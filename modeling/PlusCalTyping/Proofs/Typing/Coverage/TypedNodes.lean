import PlusCalTyping.Proofs.Scope.Visibility
import PlusCalTyping.Proofs.Typing.Nodes

/-! # Nodes with types

Which nodes of an algorithm have types, part by part, and which of them are those
of expressions. Statements have no types, nor have instances, mappings and
processes by themselves. The identity of a procedure has a type if the procedure
uses it or passes it on to a procedure that does.
-/

namespace PlusCalTyping

namespace Expr

mutual

/-- The nodes of an expression and of all expressions in it. -/
def ids : Expr → List NodeId
  | .literal id _ | .ident id _ | .ref id _ => [id]
  | .tuple id elems | .set id elems => id :: listIds elems
  | .unary id _ operand => id :: operand.ids
  | .binary id _ left right => id :: (left.ids ++ right.ids)
  | .apply id func args => id :: (func.ids ++ listIds args)
  | .function id bounds body | .comprehension id body bounds | .quantified id _ bounds body =>
    id :: (boundsIds bounds ++ body.ids)
  | .refinement id bound predicate | .choose id bound predicate =>
    id :: (boundIds bound ++ predicate.ids)
  | .ite id condition thenBranch elseBranch =>
    id :: (condition.ids ++ thenBranch.ids ++ elseBranch.ids)
  | .cases id arms none => id :: armsIds arms
  | .cases id arms (some other) => id :: (armsIds arms ++ other.ids)
  | .letIn id definitions body => id :: (definitionsIds definitions ++ body.ids)
  | .call id _ args => id :: listIds args

def listIds : List Expr → List NodeId
  | [] => []
  | e :: es => e.ids ++ listIds es

def boundIds : Bound → List NodeId
  | ⟨_, _, s⟩ => s.ids

def boundsIds : List Bound → List NodeId
  | [] => []
  | b :: bs => boundIds b ++ boundsIds bs

def armsIds : List Arm → List NodeId
  | [] => []
  | ⟨condition, result⟩ :: arms => condition.ids ++ result.ids ++ armsIds arms

def definitionIds : Definition → List NodeId
  | ⟨_, _, _, body⟩ => body.ids

def definitionsIds : List Definition → List NodeId
  | [] => []
  | d :: ds => definitionIds d ++ definitionsIds ds

end

mutual

theorem ids_sublist : (e : Expr) → e.ids.Sublist e.nodes
  | .literal _ _ | .ident _ _ | .ref _ _ => List.Sublist.refl _
  | .tuple _ elems | .set _ elems | .call _ _ elems => (listIds_sublist elems).cons_cons _
  | .unary _ _ operand => (ids_sublist operand).cons_cons _
  | .binary _ _ left right => ((ids_sublist left).append (ids_sublist right)).cons_cons _
  | .apply _ func args => ((ids_sublist func).append (listIds_sublist args)).cons_cons _
  | .function _ bounds body | .comprehension _ body bounds | .quantified _ _ bounds body =>
    ((boundsIds_sublist bounds).append (ids_sublist body)).cons_cons _
  | .refinement _ bound predicate | .choose _ bound predicate =>
    ((boundIds_sublist bound).append (ids_sublist predicate)).cons_cons _
  | .ite _ condition thenBranch elseBranch =>
    (((ids_sublist condition).append (ids_sublist thenBranch)).append
      (ids_sublist elseBranch)).cons_cons _
  | .cases _ arms none => (armsIds_sublist arms).cons_cons _
  | .cases _ arms (some other) =>
    ((armsIds_sublist arms).append (ids_sublist other)).cons_cons _
  | .letIn _ definitions body =>
    ((definitionsIds_sublist definitions).append (ids_sublist body)).cons_cons _

theorem listIds_sublist : (es : List Expr) → (listIds es).Sublist (listNodes es)
  | [] => .slnil
  | e :: es => (ids_sublist e).append (listIds_sublist es)

theorem boundIds_sublist : (b : Bound) → (boundIds b).Sublist (boundNodes b)
  | ⟨_, _, s⟩ => (ids_sublist s).cons _

theorem boundsIds_sublist : (bs : List Bound) → (boundsIds bs).Sublist (boundsNodes bs)
  | [] => .slnil
  | b :: bs => (boundIds_sublist b).append (boundsIds_sublist bs)

theorem armsIds_sublist : (arms : List Arm) → (armsIds arms).Sublist (armsNodes arms)
  | [] => .slnil
  | ⟨condition, result⟩ :: arms =>
    ((ids_sublist condition).append (ids_sublist result)).append (armsIds_sublist arms)

theorem definitionIds_sublist : (d : Definition) → (definitionIds d).Sublist (definitionNodes d)
  | ⟨_, _, _, body⟩ => ((ids_sublist body).trans (List.sublist_append_right _ _)).cons _

theorem definitionsIds_sublist :
    (ds : List Definition) → (definitionsIds ds).Sublist (definitionsNodes ds)
  | [] => .slnil
  | d :: ds => (definitionIds_sublist d).append (definitionsIds_sublist ds)

end

theorem listIds_eq (es : List Expr) : listIds es = es.flatMap ids := by
  induction es with
  | nil => rfl
  | cons e es ih => rw [listIds, ih, List.flatMap_cons]

theorem listNodes_eq (es : List Expr) : listNodes es = es.flatMap nodes := by
  induction es with
  | nil => rfl
  | cons e es ih => rw [listNodes, ih, List.flatMap_cons]

theorem boundsNodes_eq (bs : List Bound) : boundsNodes bs = bs.flatMap boundNodes := by
  induction bs with
  | nil => rfl
  | cons b bs ih => rw [boundsNodes, ih, List.flatMap_cons]

theorem definitionsNodes_eq (ds : List Definition) :
    definitionsNodes ds = ds.flatMap definitionNodes := by
  induction ds with
  | nil => rfl
  | cons d ds ih => rw [definitionsNodes, ih, List.flatMap_cons]

theorem boundNodes_eq (b : Bound) : boundNodes b = b.id :: b.set.nodes := by
  cases b
  rfl

theorem definitionNodes_eq (d : Definition) :
    definitionNodes d = d.id :: (d.args.map (·.id) ++ d.body.nodes) := by
  cases d
  rfl

end Expr

/-- The nodes of the expressions in what a declaration starts as. -/
def Decl.ids (d : Decl) : List NodeId := (d.initial?.map Expr.ids).getD []

theorem Decl.ids_sublist (d : Decl) : d.ids.Sublist d.nodes := by
  unfold ids nodes
  cases d.initial? with
  | none => exact List.nil_sublist _
  | some e => exact e.ids_sublist.cons _

namespace Stmt

mutual

/-- A statement and all statements in it. -/
def subs : Stmt → List Stmt
  | labeled id label body => labeled id label body :: subsAll body
  | assign id pairs => [assign id pairs]
  | ret id => [ret id]
  | skip id => [skip id]
  | goto id label => [goto id label]
  | ite id condition thenBranch elseBranch =>
    ite id condition thenBranch elseBranch :: (subsAll thenBranch ++ subsAll elseBranch)
  | either id branches => either id branches :: subsBranches branches
  | whileDo id condition body => whileDo id condition body :: subsAll body
  | withDo id decls body => withDo id decls body :: subsAll body
  | print id e => [print id e]
  | assert id e => [assert id e]
  | await id e => [await id e]
  | call id procedure args => [call id procedure args]
  | yield id e => [yield id e]

def subsAll : List Stmt → List Stmt
  | [] => []
  | s :: ss => subs s ++ subsAll ss

def subsBranches : List (List Stmt) → List Stmt
  | [] => []
  | b :: bs => subsAll b ++ subsBranches bs

end

/-- What the statement itself declares. -/
def decls : Stmt → List Decl
  | withDo _ decls _ => decls
  | _ => []

/-- The nodes of the expressions of the statement itself. -/
def ids (s : Stmt) : List NodeId := s.exprs.flatMap Expr.ids ++ s.decls.flatMap Decl.ids

variable (r : Registry) (self : Option NodeId)

/-- The identities that a call of a procedure makes the same, if the procedure uses
its own: that one and the identity of the body with the call. -/
def callIdentities (procedure : String) : List NodeId :=
  match self, r.findProcedure procedure with
  | some caller, some callee =>
    if r.isReferenced callee.selfId then [callee.selfId, caller] else []
  | _, _ => []

def identities : Stmt → List NodeId
  | call id procedure _ =>
    if (r.followReference id).isSome then callIdentities r self procedure else []
  | _ => []

/-- The typed nodes of the statement itself. -/
def typedNodes (s : Stmt) : List NodeId :=
  s.exprs.flatMap Expr.nodes ++ s.decls.flatMap Decl.nodes ++ s.identities r self

end Stmt

def bodyIds (decls : List Decl) (body : List Stmt) : List NodeId :=
  decls.flatMap Decl.ids ++ (Stmt.subsAll body).flatMap Stmt.ids

section

variable (r : Registry)

def bodyTypedNodes (self : Option NodeId) (decls : List Decl) (body : List Stmt) : List NodeId :=
  decls.flatMap Decl.nodes ++ (Stmt.subsAll body).flatMap (Stmt.typedNodes r self)

def constantTypedNodes (c : Node String) : List NodeId :=
  c.id :: ((r.constantValue c.id).map Expr.nodes).getD []

def constantIds (c : Node String) : List NodeId :=
  ((r.constantValue c.id).map Expr.ids).getD []

def Procedure.typedNodes (p : Procedure) : List NodeId :=
  (if r.isReferenced p.selfId then [p.selfId] else []) ++
    bodyTypedNodes r (some p.selfId) (p.params ++ p.locals) p.body ++ [p.id]

def Archetype.typedNodes (x : Archetype) : List NodeId :=
  x.selfId :: bodyTypedNodes r (some x.selfId) (x.params.map (·.decl) ++ x.locals) x.body ++ [x.id]

def MappingMacro.typedNodes (m : MappingMacro) : List NodeId :=
  [m.variableId, m.valueId, m.readValueId] ++
    (bodyTypedNodes r none [] m.readBody ++ bodyTypedNodes r none [] m.writeBody)

def Instance.typedNodes (i : Instance) : List NodeId :=
  i.name.nodes ++ Expr.listNodes i.args ++ i.mappings.flatMap (·.variableExpr.nodes)

def Instance.ids (i : Instance) : List NodeId :=
  i.name.ids ++ Expr.listIds i.args ++ i.mappings.flatMap (·.variableExpr.ids)

def Process.typedNodes (p : Process) : List NodeId :=
  p.name.nodes ++ bodyTypedNodes r (some p.name.id) p.locals p.body

def Processes.typedNodes : Processes → List NodeId
  | .single body => bodyTypedNodes r none [] body
  | .multi processes => processes.flatMap (Process.typedNodes r)

def Processes.ids : Processes → List NodeId
  | .single body => bodyIds [] body
  | .multi processes => processes.flatMap fun p => p.name.ids ++ bodyIds p.locals p.body

variable (a : Algorithm)

/-- The typed nodes of an algorithm, with those of the values of its constants. -/
def Algorithm.typedNodes : List NodeId :=
  a.constants.flatMap (constantTypedNodes r) ++
    (a.globals.flatMap Decl.nodes ++
      a.units.flatMap Expr.definitionNodes ++
      a.procedures.flatMap (Procedure.typedNodes r) ++
      a.archetypes.flatMap (Archetype.typedNodes r) ++
      a.mappingMacros.flatMap (MappingMacro.typedNodes r) ++
      a.instances.flatMap Instance.typedNodes ++
      a.processes.typedNodes r)

/-- The nodes of the expressions in an algorithm. -/
def Algorithm.ids : List NodeId :=
  a.globals.flatMap Decl.ids ++
    a.units.flatMap Expr.definitionIds ++
    (a.procedures.flatMap fun p => bodyIds (p.params ++ p.locals) p.body) ++
    (a.archetypes.flatMap fun x => bodyIds (x.params.map (·.decl) ++ x.locals) x.body) ++
    (a.mappingMacros.flatMap fun m => bodyIds [] m.readBody ++ bodyIds [] m.writeBody) ++
    a.instances.flatMap Instance.ids ++
    a.processes.ids

end

/-! ## What is listed are nodes of the algorithm -/

namespace Stmt

/-- The nodes of the expressions and declarations of the statement itself. -/
def ownNodes (s : Stmt) : List NodeId := s.exprs.flatMap Expr.nodes ++ s.decls.flatMap Decl.nodes

theorem ownNodes_eq_exprs {s : Stmt} (h : s.decls = []) :
    s.ownNodes = s.exprs.flatMap Expr.nodes := by
  rw [ownNodes, h, List.flatMap_nil, List.append_nil]

theorem ids_sublist_ownNodes (s : Stmt) : s.ids.Sublist s.ownNodes :=
  (List.Sublist.flatMap_right s.exprs fun e _ => e.ids_sublist).append
    (List.Sublist.flatMap_right s.decls fun d _ => d.ids_sublist)

mutual

/-- A statement consists of what it and the statements in it have by themselves. -/
theorem subs_ownNodes_sublist : (s : Stmt) → (s.subs.flatMap ownNodes).Sublist s.nodes
  | .labeled _ _ body => (subsAll_ownNodes_sublist body).cons _
  | .assign id pairs => by
    rw [subs, List.flatMap_singleton, ownNodes_eq_exprs rfl, exprs, List.flatMap_assoc]
    refine (List.Sublist.flatMap_right pairs fun p _ => ?_).cons id
    simp
  | .ret _ | .skip _ | .goto _ _ => List.nil_sublist _
  | .ite _ condition thenBranch elseBranch => by
    rw [subs, List.flatMap_cons, List.flatMap_append, ownNodes_eq_exprs rfl, exprs,
      List.flatMap_singleton, ← List.append_assoc]
    exact (((List.Sublist.refl _).append (subsAll_ownNodes_sublist thenBranch)).append
      (subsAll_ownNodes_sublist elseBranch)).cons _
  | .either _ branches => (subsBranches_ownNodes_sublist branches).cons _
  | .whileDo _ condition body => by
    rw [subs, List.flatMap_cons, ownNodes_eq_exprs rfl, exprs, List.flatMap_singleton]
    exact ((subsAll_ownNodes_sublist body).append_left _).cons _
  | .withDo _ decls body => by
    rw [subs, List.flatMap_cons]
    exact ((subsAll_ownNodes_sublist body).append_left _).cons _
  | .print _ e | .assert _ e | .await _ e | .yield _ e => by
    rw [subs, List.flatMap_singleton, ownNodes_eq_exprs rfl, exprs, List.flatMap_singleton]
    exact List.sublist_cons_self _ _
  | .call _ _ args => by
    rw [subs, List.flatMap_singleton, ownNodes_eq_exprs rfl, exprs, ← Expr.listNodes_eq]
    exact List.sublist_cons_self _ _

theorem subsAll_ownNodes_sublist :
    (ss : List Stmt) → ((subsAll ss).flatMap ownNodes).Sublist (listNodes ss)
  | [] => .slnil
  | s :: ss => by
    rw [subsAll, List.flatMap_append]
    exact (subs_ownNodes_sublist s).append (subsAll_ownNodes_sublist ss)

theorem subsBranches_ownNodes_sublist :
    (bs : List (List Stmt)) → ((subsBranches bs).flatMap ownNodes).Sublist (branchesNodes bs)
  | [] => .slnil
  | b :: bs => by
    rw [subsBranches, List.flatMap_append]
    exact (subsAll_ownNodes_sublist b).append (subsBranches_ownNodes_sublist bs)

end

theorem subsAll_ids_sublist (ss : List Stmt) :
    ((subsAll ss).flatMap ids).Sublist (listNodes ss) :=
  (List.Sublist.flatMap_right _ fun s _ => s.ids_sublist_ownNodes).trans
    (subsAll_ownNodes_sublist ss)

end Stmt

theorem bodyIds_sublist (decls : List Decl) (body : List Stmt) :
    (bodyIds decls body).Sublist (bodyNodes decls body) :=
  (List.Sublist.flatMap_right decls fun d _ => d.ids_sublist).append (Stmt.subsAll_ids_sublist body)

theorem Instance.ids_sublist (i : Instance) : i.ids.Sublist i.nodes := by
  refine ((i.name.ids_sublist.trans (List.sublist_append_left _ _)).append
    (Expr.listIds_sublist i.args)).append (List.Sublist.flatMap_right i.mappings fun m _ => ?_)
  exact m.variableExpr.ids_sublist.trans (List.sublist_append_left _ _)

theorem Processes.ids_sublist (ps : Processes) : ps.ids.Sublist ps.nodes := by
  cases ps with
  | single body => exact bodyIds_sublist [] body
  | multi ps =>
    refine List.Sublist.flatMap_right ps fun p _ => ?_
    exact (p.name.ids_sublist.append (bodyIds_sublist p.locals p.body)).cons _

theorem Algorithm.ids_sublist (a : Algorithm) : a.ids.Sublist a.nodes := by
  refine List.Sublist.trans ?_ (List.sublist_append_right (a.constants.map (·.id)) _)
  refine ((((((List.Sublist.flatMap_right a.globals fun d _ => d.ids_sublist).append
    (List.Sublist.flatMap_right a.units fun d _ => Expr.definitionIds_sublist d)).append
    (List.Sublist.flatMap_right a.procedures fun p _ => ?_)).append
    (List.Sublist.flatMap_right a.archetypes fun x _ => ?_)).append
    (List.Sublist.flatMap_right a.mappingMacros fun m _ => ?_)).append
    (List.Sublist.flatMap_right a.instances fun i _ => i.ids_sublist)).append
    a.processes.ids_sublist
  · exact ((bodyIds_sublist _ p.body).cons _).cons _
  · exact ((bodyIds_sublist _ x.body).cons _).cons _
  · exact ((bodyIds_sublist [] m.readBody).append (bodyIds_sublist [] m.writeBody)).trans
      (List.sublist_append_right _ _)

end PlusCalTyping
