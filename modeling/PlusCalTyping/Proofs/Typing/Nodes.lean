import PlusCalTyping.Proofs.Typing.Soundness.Expr
import Mathlib.Data.List.Flatten

/-! # The nodes of an algorithm

All nodes that an algorithm consists of, in the order in which its names are
resolved. Names are used at some of them (`Algorithm.sites_sublist`), so in an
algorithm whose nodes are different no two names are used at one node.
-/

namespace PlusCalTyping

namespace Expr

mutual

def nodes : Expr → List NodeId
  | .literal id _ | .ident id _ | .ref id _ => [id]
  | .tuple id elems | .set id elems => id :: listNodes elems
  | .unary id _ operand => id :: operand.nodes
  | .binary id _ left right => id :: (left.nodes ++ right.nodes)
  | .apply id func args => id :: (func.nodes ++ listNodes args)
  | .function id bounds body | .comprehension id body bounds | .quantified id _ bounds body =>
    id :: (boundsNodes bounds ++ body.nodes)
  | .refinement id bound predicate | .choose id bound predicate =>
    id :: (boundNodes bound ++ predicate.nodes)
  | .ite id condition thenBranch elseBranch =>
    id :: (condition.nodes ++ thenBranch.nodes ++ elseBranch.nodes)
  | .cases id arms none => id :: armsNodes arms
  | .cases id arms (some other) => id :: (armsNodes arms ++ other.nodes)
  | .letIn id definitions body => id :: (definitionsNodes definitions ++ body.nodes)
  | .call id _ args => id :: listNodes args

def listNodes : List Expr → List NodeId
  | [] => []
  | e :: es => e.nodes ++ listNodes es

def boundNodes : Bound → List NodeId
  | ⟨id, _, s⟩ => id :: s.nodes

def boundsNodes : List Bound → List NodeId
  | [] => []
  | b :: bs => boundNodes b ++ boundsNodes bs

def armsNodes : List Arm → List NodeId
  | [] => []
  | ⟨condition, result⟩ :: arms => condition.nodes ++ result.nodes ++ armsNodes arms

def definitionNodes : Definition → List NodeId
  | ⟨id, _, args, body⟩ => id :: (args.map (·.id) ++ body.nodes)

def definitionsNodes : List Definition → List NodeId
  | [] => []
  | d :: ds => definitionNodes d ++ definitionsNodes ds

end

theorem id_mem_nodes (e : Expr) : e.id ∈ e.nodes := by
  cases e with
  | cases id arms other => cases other <;> exact List.mem_cons_self
  | _ => exact List.mem_cons_self

end Expr

def Decl.nodes (d : Decl) : List NodeId := d.id :: (d.initial?.map Expr.nodes).getD []

namespace Stmt

mutual

def nodes : Stmt → List NodeId
  | .labeled id _ body => id :: listNodes body
  | .assign id pairs => id :: pairs.flatMap fun p => p.target.nodes ++ p.value.nodes
  | .ret id | .skip id | .goto id _ => [id]
  | .ite id condition thenBranch elseBranch =>
    id :: (condition.nodes ++ listNodes thenBranch ++ listNodes elseBranch)
  | .either id branches => id :: branchesNodes branches
  | .whileDo id condition body => id :: (condition.nodes ++ listNodes body)
  | .withDo id decls body => id :: (decls.flatMap Decl.nodes ++ listNodes body)
  | .print id e | .assert id e | .await id e | .yield id e => id :: e.nodes
  | .call id _ args => id :: Expr.listNodes args

def listNodes : List Stmt → List NodeId
  | [] => []
  | s :: ss => s.nodes ++ listNodes ss

def branchesNodes : List (List Stmt) → List NodeId
  | [] => []
  | b :: bs => listNodes b ++ branchesNodes bs

end

end Stmt

/-- The nodes of declarations and of the body that sees them. -/
def bodyNodes (decls : List Decl) (body : List Stmt) : List NodeId :=
  decls.flatMap Decl.nodes ++ Stmt.listNodes body

def Procedure.nodes (p : Procedure) : List NodeId :=
  p.id :: p.selfId :: bodyNodes (p.params ++ p.locals) p.body

def Archetype.nodes (x : Archetype) : List NodeId :=
  x.id :: x.selfId :: bodyNodes (x.params.map (·.decl) ++ x.locals) x.body

def MappingMacro.nodes (m : MappingMacro) : List NodeId :=
  [m.id, m.variableId, m.valueId, m.readValueId] ++
    (bodyNodes [] m.readBody ++ bodyNodes [] m.writeBody)

def Mapping.nodes (m : Mapping) : List NodeId := m.variableExpr.nodes ++ [m.id]

def Instance.nodes (i : Instance) : List NodeId :=
  i.name.nodes ++ [i.id] ++ Expr.listNodes i.args ++ i.mappings.flatMap Mapping.nodes

def Process.nodes (p : Process) : List NodeId := p.id :: (p.name.nodes ++ bodyNodes p.locals p.body)

def Processes.nodes : Processes → List NodeId
  | .single body => bodyNodes [] body
  | .multi processes => processes.flatMap Process.nodes

def Algorithm.nodes (a : Algorithm) : List NodeId :=
  a.constants.map (·.id) ++
    (a.globals.flatMap Decl.nodes ++
      a.units.flatMap Expr.definitionNodes ++
      a.procedures.flatMap Procedure.nodes ++
      a.archetypes.flatMap Archetype.nodes ++
      a.mappingMacros.flatMap MappingMacro.nodes ++
      a.instances.flatMap Instance.nodes ++
      a.processes.nodes)

/-! ## Where names are used -/

namespace Use

def sites (uses : List Use) : List NodeId := uses.map site

@[simp]
theorem sites_append (us vs : List Use) : sites (us ++ vs) = sites us ++ sites vs := List.map_append

@[simp]
theorem sites_cons (u : Use) (us : List Use) : sites (u :: us) = u.site :: sites us := rfl

theorem sites_flatMap {α : Type} (f : α → List Use) (xs : List α) :
    sites (xs.flatMap f) = xs.flatMap fun x => sites (f x) := List.map_flatMap

end Use

namespace Scope

open Use (sites)

mutual

theorem sites_exprUses (scope : Scope) : (e : Expr) → (sites (scope.exprUses e)).Sublist e.nodes
  | .literal _ _ => List.nil_sublist _
  | .ident _ _ | .ref _ _ => by
    rw [exprUses, Use.sites_cons, site_use]
    exact List.Sublist.refl _
  | .tuple _ elems | .set _ elems => (sites_listUses scope elems).cons _
  | .unary _ _ operand => (sites_exprUses scope operand).cons _
  | .binary _ _ left right => by
    rw [exprUses, Use.sites_append]
    exact ((sites_exprUses scope left).append (sites_exprUses scope right)).cons _
  | .apply _ func args => by
    rw [exprUses, Use.sites_append]
    exact ((sites_exprUses scope func).append (sites_listUses scope args)).cons _
  | .function _ bounds body | .comprehension _ body bounds | .quantified _ _ bounds body => by
    rw [exprUses, Use.sites_append]
    exact ((sites_boundUses scope bounds).append (sites_exprUses _ body)).cons _
  | .refinement _ bound predicate | .choose _ bound predicate => by
    rw [exprUses, Use.sites_append]
    exact ((sites_boundUse scope bound).append (sites_exprUses _ predicate)).cons _
  | .ite _ condition thenBranch elseBranch => by
    rw [exprUses, Use.sites_append, Use.sites_append]
    exact (((sites_exprUses scope condition).append (sites_exprUses scope thenBranch)).append
      (sites_exprUses scope elseBranch)).cons _
  | .cases _ arms none => (sites_armUses scope arms).cons _
  | .cases _ arms (some other) => by
    rw [exprUses, Use.sites_append]
    exact ((sites_armUses scope arms).append (sites_exprUses scope other)).cons _
  | .letIn _ definitions body => by
    rw [exprUses, Use.sites_append]
    exact ((sites_definitionUses scope definitions).append (sites_exprUses _ body)).cons _
  | .call _ _ args => by
    rw [exprUses, Use.sites_cons, site_use]
    exact (sites_listUses scope args).cons_cons _

theorem sites_listUses (scope : Scope) :
    (es : List Expr) → (sites (scope.listUses es)).Sublist (Expr.listNodes es)
  | [] => List.nil_sublist _
  | e :: es => by
    rw [listUses, Use.sites_append]
    exact (sites_exprUses scope e).append (sites_listUses scope es)

theorem sites_boundUse (scope : Scope) :
    (b : Bound) → (sites (scope.boundUse b)).Sublist (Expr.boundNodes b)
  | ⟨_, _, set⟩ => (sites_exprUses scope set).cons _

theorem sites_boundUses (scope : Scope) :
    (bs : List Bound) → (sites (scope.boundUses bs)).Sublist (Expr.boundsNodes bs)
  | [] => List.nil_sublist _
  | b :: bs => by
    rw [boundUses, Use.sites_append]
    exact (sites_boundUse scope b).append (sites_boundUses scope bs)

theorem sites_armUses (scope : Scope) :
    (arms : List Arm) → (sites (scope.armUses arms)).Sublist (Expr.armsNodes arms)
  | [] => List.nil_sublist _
  | ⟨condition, result⟩ :: arms => by
    rw [armUses, Use.sites_append, Use.sites_append]
    exact ((sites_exprUses scope condition).append (sites_exprUses scope result)).append
      (sites_armUses scope arms)

theorem sites_definitionUse (scope : Scope) :
    (d : Definition) → (sites (scope.definitionUse d)).Sublist (Expr.definitionNodes d)
  | ⟨_, _, _, body⟩ =>
    ((sites_exprUses _ body).trans (List.sublist_append_right _ _)).cons _

theorem sites_definitionUses (scope : Scope) :
    (ds : List Definition) → (sites (scope.definitionUses ds)).Sublist (Expr.definitionsNodes ds)
  | [] => List.nil_sublist _
  | d :: ds => by
    rw [definitionUses, Use.sites_append]
    exact (sites_definitionUse scope d).append (sites_definitionUses _ ds)

end

theorem sites_initUses (scope : Scope) (d : Decl) :
    (sites (scope.initUses d)).Sublist d.nodes := by
  unfold initUses Decl.nodes
  cases d.initial? with
  | none => exact List.nil_sublist _
  | some e => exact (sites_exprUses scope e).cons _

theorem sites_declUses (scope : Scope) :
    (ds : List Decl) → (sites (scope.declUses ds)).Sublist (ds.flatMap Decl.nodes)
  | [] => List.nil_sublist _
  | d :: ds => by
    rw [declUses, Use.sites_append]
    exact (sites_initUses scope d).append (sites_declUses _ ds)

variable (procedures : Scope)

mutual

theorem sites_stmtUses (scope : Scope) :
    (s : Stmt) → (sites (stmtUses procedures scope s)).Sublist s.nodes
  | .labeled _ _ body => (sites_stmtsUses scope body).cons _
  | .assign _ pairs => by
    rw [stmtUses, Use.sites_flatMap]
    refine (List.Sublist.flatMap_right pairs fun p _ => ?_).cons _
    rw [Use.sites_append]
    exact (sites_exprUses scope p.target).append (sites_exprUses scope p.value)
  | .ret _ | .skip _ | .goto _ _ => List.nil_sublist _
  | .ite _ condition thenBranch elseBranch => by
    rw [stmtUses, Use.sites_append, Use.sites_append]
    exact (((sites_exprUses scope condition).append (sites_stmtsUses scope thenBranch)).append
      (sites_stmtsUses scope elseBranch)).cons _
  | .either _ branches => (sites_branchesUses scope branches).cons _
  | .whileDo _ condition body => by
    rw [stmtUses, Use.sites_append]
    exact ((sites_exprUses scope condition).append (sites_stmtsUses scope body)).cons _
  | .withDo _ decls body => by
    rw [stmtUses, Use.sites_append]
    exact ((sites_declUses scope decls).append (sites_stmtsUses _ body)).cons _
  | .print _ e | .assert _ e | .await _ e | .yield _ e => (sites_exprUses scope e).cons _
  | .call _ _ args => by
    rw [stmtUses, Use.sites_cons, site_use]
    exact (sites_listUses scope args).cons_cons _

theorem sites_stmtsUses (scope : Scope) :
    (ss : List Stmt) → (sites (stmtsUses procedures scope ss)).Sublist (Stmt.listNodes ss)
  | [] => List.nil_sublist _
  | s :: ss => by
    rw [stmtsUses, Use.sites_append]
    exact (sites_stmtUses scope s).append (sites_stmtsUses scope ss)

theorem sites_branchesUses (scope : Scope) : (bs : List (List Stmt)) →
    (sites (branchesUses procedures scope bs)).Sublist (Stmt.branchesNodes bs)
  | [] => List.nil_sublist _
  | b :: bs => by
    rw [branchesUses, Use.sites_append]
    exact (sites_stmtsUses scope b).append (sites_branchesUses scope bs)

end

theorem sites_missing (scope : Scope) (site : NodeId) (kind : NameKind) (name : String) :
    (sites (scope.missing site kind name)).Sublist [site] := by
  unfold missing
  split
  · exact List.nil_sublist _
  · exact List.Sublist.refl _

end Scope

namespace Algorithm

open Use (sites)

variable (a : Algorithm)

theorem sites_bodyUses (scope : Scope) (decls : List Decl) (body : List Stmt) :
    (sites (a.bodyUses scope decls body)).Sublist (bodyNodes decls body) := by
  rw [bodyUses, Use.sites_append]
  exact (scope.sites_declUses decls).append (Scope.sites_stmtsUses _ _ body)

theorem sites_mappingMacroUses (m : MappingMacro) :
    (sites (a.mappingMacroUses m)).Sublist m.nodes := by
  rw [mappingMacroUses, Use.sites_append]
  exact ((a.sites_bodyUses _ [] m.readBody).append (a.sites_bodyUses _ [] m.writeBody)).trans
    (List.sublist_append_right _ _)

/-! The archetypes of instances and the mapping macros of mappings leave uses only
where they are missing. What follows goes for any other way to note them. -/

section

variable (noted : Scope → NodeId → NameKind → String → List Use)

def mappingUsesWith (m : Mapping) : List Use :=
  a.globalScope.exprUses m.variableExpr ++
    noted a.mappingMacroScope m.id .mappingMacroName m.macroName

def instanceUsesWith (i : Instance) : List Use :=
  a.globalScope.initUses i.name ++
    noted a.archetypeScope i.id .archetypeName i.target ++
    (a.globalScope.declare "self" i.name.id).listUses i.args ++
    i.mappings.flatMap (a.mappingUsesWith noted)

def processesUses : Processes → List Use
  | .single body => a.bodyUses a.globalScope [] body
  | .multi processes => processes.flatMap a.processUses

/-- The uses of an algorithm if archetypes and mapping macros are noted in some way. -/
def usesWith : List Use :=
  a.globals.flatMap a.globalScope.initUses ++
    a.units.flatMap a.globalScope.definitionUse ++
    a.procedures.flatMap a.procedureUses ++
    a.archetypes.flatMap a.archetypeUses ++
    a.mappingMacros.flatMap a.mappingMacroUses ++
    a.instances.flatMap (a.instanceUsesWith noted) ++
    a.processesUses a.processes

theorem uses_eq_usesWith : a.uses = a.usesWith Scope.missing := rfl

end

section

variable {noted : Scope → NodeId → NameKind → String → List Use}
  (h : ∀ scope site kind name, (sites (noted scope site kind name)).Sublist [site])

include h

theorem sites_mappingUsesWith (m : Mapping) :
    (sites (a.mappingUsesWith noted m)).Sublist m.nodes := by
  rw [mappingUsesWith, Use.sites_append]
  exact (Scope.sites_exprUses _ m.variableExpr).append (h _ m.id _ _)

theorem sites_instanceUsesWith (i : Instance) :
    (sites (a.instanceUsesWith noted i)).Sublist i.nodes := by
  rw [instanceUsesWith, Use.sites_append, Use.sites_append, Use.sites_append, Use.sites_flatMap]
  exact (((Scope.sites_initUses _ i.name).append (h _ i.id _ _)).append
    (Scope.sites_listUses _ i.args)).append
    (List.Sublist.flatMap_right _ fun m _ => a.sites_mappingUsesWith h m)

end

theorem sites_processUses (p : Process) : (sites (a.processUses p)).Sublist p.nodes := by
  rw [processUses, Use.sites_append]
  exact ((Scope.sites_initUses _ p.name).append (a.sites_bodyUses _ _ _)).cons _

theorem sites_usesWith {noted : Scope → NodeId → NameKind → String → List Use}
    (h : ∀ scope site kind name, (sites (noted scope site kind name)).Sublist [site]) :
    (sites (a.usesWith noted)).Sublist a.nodes := by
  have hflat {α : Type} {f : α → List Use} {g : α → List NodeId}
      (h : ∀ x, (sites (f x)).Sublist (g x)) (xs : List α) :
      (sites (xs.flatMap f)).Sublist (xs.flatMap g) := by
    rw [Use.sites_flatMap]
    exact List.Sublist.flatMap_right xs fun x _ => h x
  unfold usesWith nodes
  simp only [Use.sites_append]
  refine (((((((hflat (Scope.sites_initUses _) a.globals).append
    (hflat (Scope.sites_definitionUse _) a.units)).append
    (hflat (fun p => ?_) a.procedures)).append
    (hflat (fun x => ?_) a.archetypes)).append
    (hflat a.sites_mappingMacroUses a.mappingMacros)).append
    (hflat (a.sites_instanceUsesWith h) a.instances)).append ?_).trans
    (List.sublist_append_right _ _)
  · exact ((a.sites_bodyUses _ _ p.body).cons _).cons _
  · exact ((a.sites_bodyUses _ _ x.body).cons _).cons _
  · cases a.processes with
    | single body => exact a.sites_bodyUses _ [] body
    | multi processes => exact hflat a.sites_processUses processes

theorem sites_sublist : (sites a.uses).Sublist a.nodes := a.sites_usesWith Scope.sites_missing

end Algorithm

end PlusCalTyping
