import PlusCalTyping.Proofs.Typing.Rules

/-! # Registries that answer alike

Tables may differ in how they were built and still hold the same entries.
Scopes with the same entries resolve all names alike, and registries whose
tables have the same entries allow the same typings (`AlgorithmTyped.alike`).
-/

namespace PlusCalTyping

open Std (TreeMap)

/-! ## Scopes -/

namespace Scope

variable {s t : Scope}

theorem use_congr (h : s.Equiv t) (site : NodeId) (kind : NameKind) (name : String) :
    s.use site kind name = t.use site kind name := by
  rw [use, use, h.getElem?_eq]

theorem missing_congr (h : s.Equiv t) (site : NodeId) (kind : NameKind) (name : String) :
    s.missing site kind name = t.missing site kind name := by
  rw [missing, missing, h.contains_eq]

theorem declare_congr (h : s.Equiv t) (name : String) (id : NodeId) :
    (s.declare name id).Equiv (t.declare name id) := h.insert name id

theorem declareAll_congr {α : Type} (h : s.Equiv t) (name : α → String) (id : α → NodeId)
    (ds : List α) : (s.declareAll name id ds).Equiv (t.declareAll name id ds) := by
  induction ds generalizing s t with
  | nil => exact h
  | cons d ds ih => exact ih (declare_congr h (name d) (id d))

theorem declareDecls_congr (h : s.Equiv t) (ds : List Decl) :
    (s.declareDecls ds).Equiv (t.declareDecls ds) := declareAll_congr h _ _ ds

mutual

theorem exprUses_congr {s t : Scope} (h : s.Equiv t) : (e : Expr) → s.exprUses e = t.exprUses e
  | .literal _ _ => rfl
  | .ident id name | .ref id name => by simp only [exprUses, use_congr h]
  | .tuple _ elems | .set _ elems => by simp only [exprUses, listUses_congr h elems]
  | .unary _ _ operand => by simp only [exprUses, exprUses_congr h operand]
  | .binary _ _ left right => by
    simp only [exprUses, exprUses_congr h left, exprUses_congr h right]
  | .apply _ func args => by simp only [exprUses, exprUses_congr h func, listUses_congr h args]
  | .function _ bounds body | .comprehension _ body bounds | .quantified _ _ bounds body => by
    simp only [exprUses, boundUses_congr h bounds,
      exprUses_congr (declareAll_congr h _ _ bounds) body, declareBounds]
  | .refinement _ bound predicate | .choose _ bound predicate => by
    simp only [exprUses, boundUse_congr h bound,
      exprUses_congr (declare_congr h bound.name bound.id) predicate]
  | .ite _ condition thenBranch elseBranch => by
    simp only [exprUses, exprUses_congr h condition, exprUses_congr h thenBranch,
      exprUses_congr h elseBranch]
  | .cases _ arms none => by simp only [exprUses, armUses_congr h arms]
  | .cases _ arms (some other) => by
    simp only [exprUses, armUses_congr h arms, exprUses_congr h other]
  | .letIn _ definitions body => by
    simp only [exprUses, definitionUses_congr h definitions,
      exprUses_congr (declareAll_congr h _ _ definitions) body, declareDefinitions]
  | .call id name args => by simp only [exprUses, use_congr h, listUses_congr h args]

theorem listUses_congr {s t : Scope} (h : s.Equiv t) :
    (es : List Expr) → s.listUses es = t.listUses es
  | [] => rfl
  | e :: es => by simp only [listUses, exprUses_congr h e, listUses_congr h es]

theorem boundUse_congr {s t : Scope} (h : s.Equiv t) : (b : Bound) → s.boundUse b = t.boundUse b
  | ⟨_, _, set⟩ => exprUses_congr h set

theorem boundUses_congr {s t : Scope} (h : s.Equiv t) :
    (bs : List Bound) → s.boundUses bs = t.boundUses bs
  | [] => rfl
  | b :: bs => by simp only [boundUses, boundUse_congr h b, boundUses_congr h bs]

theorem armUses_congr {s t : Scope} (h : s.Equiv t) :
    (arms : List Arm) → s.armUses arms = t.armUses arms
  | [] => rfl
  | ⟨condition, result⟩ :: arms => by
    simp only [armUses, exprUses_congr h condition, exprUses_congr h result, armUses_congr h arms]

theorem definitionUse_congr {s t : Scope} (h : s.Equiv t) :
    (d : Definition) → s.definitionUse d = t.definitionUse d
  | ⟨_, _, args, body⟩ => exprUses_congr (declareAll_congr h _ _ args) body

theorem definitionUses_congr {s t : Scope} (h : s.Equiv t) :
    (ds : List Definition) → s.definitionUses ds = t.definitionUses ds
  | [] => rfl
  | d :: ds => by
    simp only [definitionUses, definitionUse_congr h d,
      definitionUses_congr (declare_congr h d.name d.id) ds]

end

theorem initUses_congr (h : s.Equiv t) (d : Decl) : s.initUses d = t.initUses d := by
  unfold initUses
  cases d.initial? with
  | none => rfl
  | some e => exact exprUses_congr h e

theorem declUses_congr {s t : Scope} (h : s.Equiv t) :
    (ds : List Decl) → s.declUses ds = t.declUses ds
  | [] => rfl
  | d :: ds => by
    simp only [declUses, initUses_congr h d, declUses_congr (declare_congr h d.name d.id) ds]

variable {p q : Scope}

mutual

theorem stmtUses_congr (hp : p.Equiv q) {s t : Scope} (h : s.Equiv t) :
    (x : Stmt) → stmtUses p s x = stmtUses q t x
  | .labeled _ _ body => by simp only [stmtUses, stmtsUses_congr hp h body]
  | .assign _ pairs => by simp only [stmtUses, exprUses_congr h]
  | .ret _ | .skip _ | .goto _ _ => rfl
  | .ite _ condition thenBranch elseBranch => by
    simp only [stmtUses, exprUses_congr h condition, stmtsUses_congr hp h thenBranch,
      stmtsUses_congr hp h elseBranch]
  | .either _ branches => by simp only [stmtUses, branchesUses_congr hp h branches]
  | .whileDo _ condition body => by
    simp only [stmtUses, exprUses_congr h condition, stmtsUses_congr hp h body]
  | .withDo _ decls body => by
    simp only [stmtUses, declUses_congr h decls,
      stmtsUses_congr hp (declareDecls_congr h decls) body]
  | .print _ e | .assert _ e | .await _ e | .yield _ e => by
    simp only [stmtUses, exprUses_congr h e]
  | .call id procedure args => by simp only [stmtUses, use_congr hp, listUses_congr h args]

theorem stmtsUses_congr (hp : p.Equiv q) {s t : Scope} (h : s.Equiv t) :
    (xs : List Stmt) → stmtsUses p s xs = stmtsUses q t xs
  | [] => rfl
  | x :: xs => by simp only [stmtsUses, stmtUses_congr hp h x, stmtsUses_congr hp h xs]

theorem branchesUses_congr (hp : p.Equiv q) {s t : Scope} (h : s.Equiv t) :
    (bs : List (List Stmt)) → branchesUses p s bs = branchesUses q t bs
  | [] => rfl
  | b :: bs => by simp only [branchesUses, stmtsUses_congr hp h b, branchesUses_congr hp h bs]

end

end Scope

/-! ## Registries -/

/-- The tables have the same entries. Constants of one name could be told apart
by their order, so there are none. -/
structure Registry.Alike (r r' : Registry) : Prop where
  references : r.references.Equiv r'.references
  globalScope : r.globalScope.Equiv r'.globalScope
  constants : r.constants.Perm r'.constants
  distinct : (r.constants.map (·.value)).Nodup
  constantValues : r.constantValues.Equiv r'.constantValues
  procedures : r.procedures.Equiv r'.procedures
  archetypes : r.archetypes.Equiv r'.archetypes
  mappingMacros : r.mappingMacros.Equiv r'.mappingMacros
  diagnostics : r.diagnostics.Perm r'.diagnostics

namespace Registry.Alike

variable {r r' : Registry} (h : r.Alike r')
include h

theorem symm : r'.Alike r where
  references := h.references.symm
  globalScope := h.globalScope.symm
  constants := h.constants.symm
  distinct := (h.constants.map _).nodup_iff.mp h.distinct
  constantValues := h.constantValues.symm
  procedures := h.procedures.symm
  archetypes := h.archetypes.symm
  mappingMacros := h.mappingMacros.symm
  diagnostics := h.diagnostics.symm

theorem followReference_eq (n : NodeId) : r.followReference n = r'.followReference n :=
  h.references.getElem?_eq

theorem isReferenced_eq (n : NodeId) : r.isReferenced n = r'.isReferenced n := by
  rw [isReferenced, isReferenced, h.references.toList_eq]

theorem constantValue_eq (n : NodeId) : r.constantValue n = r'.constantValue n :=
  h.constantValues.getElem?_eq

theorem findProcedure_eq (name : String) : r.findProcedure name = r'.findProcedure name :=
  h.procedures.getElem?_eq

theorem findArchetype_eq (name : String) : r.findArchetype name = r'.findArchetype name :=
  h.archetypes.getElem?_eq

theorem findMappingMacro_eq (name : String) :
    r.findMappingMacro name = r'.findMappingMacro name := h.mappingMacros.getElem?_eq

end Registry.Alike

/-! ## Typings -/

namespace Typing

variable {τ : Typing} {r r' : Registry}

theorem refers_congr (hr : r.Alike r') (n : NodeId) : τ.Refers r n ↔ τ.Refers r' n := by
  simp only [Refers, hr.followReference_eq]

mutual

theorem exprTyped_congr (hr : r.Alike r') : (e : Expr) → (τ.ExprTyped r e ↔ τ.ExprTyped r' e)
  | .literal _ _ => Iff.rfl
  | .ident id _ | .ref id _ => refers_congr hr id
  | .tuple _ elems | .set _ elems => by simp only [ExprTyped, listTyped_congr hr elems]
  | .unary _ _ operand => by simp only [ExprTyped, exprTyped_congr hr operand]
  | .binary _ _ left right => by
    simp only [ExprTyped, exprTyped_congr hr left, exprTyped_congr hr right]
  | .apply _ func args => by simp only [ExprTyped, exprTyped_congr hr func, listTyped_congr hr args]
  | .function _ bounds body | .comprehension _ body bounds | .quantified _ _ bounds body => by
    simp only [ExprTyped, boundsTyped_congr hr bounds, exprTyped_congr hr body]
  | .refinement _ bound predicate | .choose _ bound predicate => by
    simp only [ExprTyped, boundTyped_congr hr bound, exprTyped_congr hr predicate]
  | .ite _ condition thenBranch elseBranch => by
    simp only [ExprTyped, exprTyped_congr hr condition, exprTyped_congr hr thenBranch,
      exprTyped_congr hr elseBranch]
  | .cases _ arms none => by simp only [ExprTyped, armsTyped_congr hr arms]
  | .cases _ arms (some other) => by
    simp only [ExprTyped, armsTyped_congr hr arms, exprTyped_congr hr other]
  | .letIn _ definitions body => by
    simp only [ExprTyped, definitionsTyped_congr hr definitions, exprTyped_congr hr body]
  | .call _ _ args => by simp only [ExprTyped, listTyped_congr hr args, hr.followReference_eq]

theorem listTyped_congr (hr : r.Alike r') :
    (es : List Expr) → (τ.ListTyped r es ↔ τ.ListTyped r' es)
  | [] => Iff.rfl
  | e :: es => and_congr (exprTyped_congr hr e) (listTyped_congr hr es)

theorem boundTyped_congr (hr : r.Alike r') : (b : Bound) → (τ.BoundTyped r b ↔ τ.BoundTyped r' b)
  | ⟨_, _, set⟩ => and_congr_left' (exprTyped_congr hr set)

theorem boundsTyped_congr (hr : r.Alike r') :
    (bs : List Bound) → (τ.BoundsTyped r bs ↔ τ.BoundsTyped r' bs)
  | [] => Iff.rfl
  | b :: bs => and_congr (boundTyped_congr hr b) (boundsTyped_congr hr bs)

theorem armsTyped_congr (hr : r.Alike r') :
    (arms : List Arm) → (τ.ArmsTyped r arms ↔ τ.ArmsTyped r' arms)
  | [] => Iff.rfl
  | ⟨condition, result⟩ :: arms =>
    and_congr (exprTyped_congr hr condition)
      (and_congr (exprTyped_congr hr result) (and_congr_right' (armsTyped_congr hr arms)))

theorem definitionTyped_congr (hr : r.Alike r') :
    (d : Definition) → (τ.DefinitionTyped r d ↔ τ.DefinitionTyped r' d)
  | ⟨_, _, _, body⟩ => and_congr_left' (exprTyped_congr hr body)

theorem definitionsTyped_congr (hr : r.Alike r') :
    (ds : List Definition) → (τ.DefinitionsTyped r ds ↔ τ.DefinitionsTyped r' ds)
  | [] => Iff.rfl
  | d :: ds => and_congr (definitionTyped_congr hr d) (definitionsTyped_congr hr ds)

end

theorem declTyped_congr (hr : r.Alike r') (d : Decl) : τ.DeclTyped r d ↔ τ.DeclTyped r' d := by
  unfold DeclTyped
  split
  · rfl
  · exact and_congr_left' (exprTyped_congr hr _)
  · exact and_congr_left' (exprTyped_congr hr _)

theorem conditionTyped_congr (hr : r.Alike r') (e : Expr) :
    τ.ConditionTyped r e ↔ τ.ConditionTyped r' e :=
  and_congr_left' (exprTyped_congr hr e)

theorem assignmentTyped_congr (hr : r.Alike r') (a : Assignment) :
    τ.AssignmentTyped r a ↔ τ.AssignmentTyped r' a :=
  and_congr (exprTyped_congr hr a.target) (and_congr_left' (exprTyped_congr hr a.value))

theorem callerTyped_congr (hr : r.Alike r') (place : Place) (procedure : String) :
    τ.CallerTyped r place procedure ↔ τ.CallerTyped r' place procedure := by
  simp only [CallerTyped, hr.findProcedure_eq, hr.isReferenced_eq]

theorem callTyped_congr (hr : r.Alike r') (id : NodeId) (args : List Expr) :
    τ.CallTyped r id args ↔ τ.CallTyped r' id args := by
  simp only [CallTyped, listTyped_congr hr args, hr.followReference_eq]

mutual

theorem stmtTyped_congr (hr : r.Alike r') (place : Place) :
    (s : Stmt) → (τ.StmtTyped r place s ↔ τ.StmtTyped r' place s)
  | .labeled _ _ body => stmtsTyped_congr hr place body
  | .assign _ _ => forall₂_congr fun a _ => assignmentTyped_congr hr a
  | .ret _ | .skip _ | .goto _ _ => Iff.rfl
  | .ite _ condition thenBranch elseBranch =>
    and_congr (conditionTyped_congr hr condition)
      (and_congr (stmtsTyped_congr hr place thenBranch) (stmtsTyped_congr hr place elseBranch))
  | .either _ branches => branchesTyped_congr hr place branches
  | .whileDo _ condition body =>
    and_congr (conditionTyped_congr hr condition) (stmtsTyped_congr hr place body)
  | .withDo _ _ body =>
    and_congr (forall₂_congr fun d _ => declTyped_congr hr d) (stmtsTyped_congr hr place body)
  | .print _ e => exprTyped_congr hr e
  | .assert _ e | .await _ e => conditionTyped_congr hr e
  | .call id procedure args =>
    and_congr (callTyped_congr hr id args) (callerTyped_congr hr place procedure)
  | .yield _ e => and_congr_left' (exprTyped_congr hr e)

theorem stmtsTyped_congr (hr : r.Alike r') (place : Place) :
    (ss : List Stmt) → (τ.StmtsTyped r place ss ↔ τ.StmtsTyped r' place ss)
  | [] => Iff.rfl
  | s :: ss => and_congr (stmtTyped_congr hr place s) (stmtsTyped_congr hr place ss)

theorem branchesTyped_congr (hr : r.Alike r') (place : Place) :
    (bs : List (List Stmt)) → (τ.BranchesTyped r place bs ↔ τ.BranchesTyped r' place bs)
  | [] => Iff.rfl
  | b :: bs => and_congr (stmtsTyped_congr hr place b) (branchesTyped_congr hr place bs)

end

variable (hr : r.Alike r')
include hr

theorem ConstantTyped.alike {c : Node String} (h : τ.ConstantTyped r c) :
    τ.ConstantTyped r' c := by
  intro value hvalue
  rw [← hr.constantValue_eq] at hvalue
  exact (h value hvalue).imp_left (exprTyped_congr hr value).mp

theorem ProcedureTyped.alike {p : Procedure} (h : τ.ProcedureTyped r p) :
    τ.ProcedureTyped r' p where
  identity hself := h.identity (by rwa [hr.isReferenced_eq])
  params d hd := (declTyped_congr hr d).mp (h.params d hd)
  locals d hd := (declTyped_congr hr d).mp (h.locals d hd)
  body := (stmtsTyped_congr hr _ p.body).mp h.body
  signature := h.signature

theorem ArchetypeTyped.alike {x : Archetype} (h : τ.ArchetypeTyped r x) :
    τ.ArchetypeTyped r' x where
  identity := h.identity
  params p hp := (declTyped_congr hr p.decl).mp (h.params p hp)
  locals d hd := (declTyped_congr hr d).mp (h.locals d hd)
  body := (stmtsTyped_congr hr _ x.body).mp h.body
  signature := h.signature

theorem MacroTyped.alike {m : MappingMacro} (h : τ.MacroTyped r m) : τ.MacroTyped r' m :=
  ⟨(stmtsTyped_congr hr _ m.readBody).mp h.reads, (stmtsTyped_congr hr _ m.writeBody).mp h.writes⟩

theorem MappingTyped.alike {args : List Expr} {params : List Param} {m : Mapping}
    (h : τ.MappingTyped r args params m) : τ.MappingTyped r' args params m where
  variableExpr := (exprTyped_congr hr m.variableExpr).mp h.variableExpr
  param global p x hglobal hp href hx := by
    rw [← hr.followReference_eq] at hglobal
    rw [← hr.findMappingMacro_eq] at hx
    simp only [Drafting.paramOf?, ← hr.followReference_eq] at hp
    exact h.param global p x hglobal hp href hx

theorem InstanceTyped.alike {i : Instance} (h : τ.InstanceTyped r i) : τ.InstanceTyped r' i where
  name := (declTyped_congr hr i.name).mp h.name
  identity := h.identity
  args := (listTyped_congr hr i.args).mp h.args
  target := by
    obtain ⟨x, hx, hsignature, hmappings⟩ := h.target
    rw [hr.findArchetype_eq] at hx
    exact ⟨x, hx, hsignature, fun m hm => (hmappings m hm).alike hr⟩

theorem ProcessTyped.alike {p : Process} (h : τ.ProcessTyped r p) : τ.ProcessTyped r' p where
  name := (declTyped_congr hr p.name).mp h.name
  identity := h.identity
  locals d hd := (declTyped_congr hr d).mp (h.locals d hd)
  body := (stmtsTyped_congr hr _ p.body).mp h.body

theorem ProcessesTyped.alike {ps : Processes} (h : τ.ProcessesTyped r ps) :
    τ.ProcessesTyped r' ps := by
  cases ps with
  | single body => exact (stmtsTyped_congr hr _ body).mp h
  | multi ps => exact fun p hp => (h p hp).alike hr

/-- The typings of an algorithm are the same with any registry that answers alike. -/
theorem AlgorithmTyped.alike {a : Algorithm} (h : τ.AlgorithmTyped r a) :
    τ.AlgorithmTyped r' a where
  constants c hc := (h.constants c (hr.constants.mem_iff.mpr hc)).alike hr
  globals d hd := (declTyped_congr hr d).mp (h.globals d hd)
  units d hd := (definitionTyped_congr hr d).mp (h.units d hd)
  procedures p hp := (h.procedures p hp).alike hr
  archetypes x hx := (h.archetypes x hx).alike hr
  mappingMacros m hm := (h.mappingMacros m hm).alike hr
  instances i hi := (h.instances i hi).alike hr
  processes := h.processes.alike hr

end Typing

end PlusCalTyping
