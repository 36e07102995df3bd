import Mathlib.Data.List.Basic
import PlusCalTyping.Proofs.Scope.Visibility
import PlusCalTyping.Proofs.Typing.Nodes

/-! # Names are resolved as they are visible

The scopes that are passed on while names are resolved are the environments of
the rules of visibility, as tables (`Env.getElem?_toScope`). So the uses in an
expression or a statement are those of the names that occur there
(`Expr.mem_exprUses_iff`, `Stmt.exists_occurs`).
-/

namespace PlusCalTyping

namespace Env

/-- The innermost declarations as a table. -/
def toScope (env : Env) : Scope := env.foldr (fun d scope => scope.declare d.value d.id) ∅

theorem getElem?_toScope (env : Env) (name : String) : env.toScope[name]? = env.innermost name := by
  induction env with
  | nil => exact Std.TreeMap.getElem?_emptyc
  | cons d env ih =>
    change ((toScope env).insert d.value d.id)[name]? = _
    rw [Std.TreeMap.getElem?_insert, ih, innermost, innermost, List.find?_cons]
    by_cases h : d.value = name
    · simp [h]
    · simp [h, Std.LawfulEqCmp.compare_eq_iff_eq]

theorem toScope_declare (env : Env) (ds : List (Node String)) :
    (env.declare ds).toScope = env.toScope.declareArgs ds := by
  rw [toScope, declare, List.foldr_append, List.foldr_reverse]
  rfl

theorem declare_append (env : Env) (ds es : List (Node String)) :
    env.declare (ds ++ es) = (env.declare ds).declare es := by
  rw [declare, declare, declare, List.reverse_append, List.append_assoc]

theorem toScope_declare_map {α : Type} (env : Env) (name : α → String) (id : α → NodeId)
    (ds : List α) :
    (env.declare (ds.map fun d => ⟨id d, name d⟩)).toScope = env.toScope.declareAll name id ds := by
  rw [toScope_declare, Scope.declareArgs, Scope.declareAll, List.foldl_map]
  rfl

theorem toScope_declare_bounds (env : Env) (bounds : List Bound) :
    (env.declare (bounds.map (·.declares))).toScope = env.toScope.declareBounds bounds :=
  env.toScope_declare_map _ _ bounds

theorem toScope_declare_definitions (env : Env) (ds : List Definition) :
    (env.declare (ds.map (·.declares))).toScope = env.toScope.declareDefinitions ds :=
  env.toScope_declare_map _ _ ds

theorem toScope_declare_decls (env : Env) (ds : List Decl) :
    (env.declare (ds.map (·.declares))).toScope = env.toScope.declareDecls ds :=
  env.toScope_declare_map _ _ ds

end Env

namespace Occurrence

/-- What resolution makes of a name that occurs. -/
def use (o : Occurrence) : Use := o.visible.toScope.use o.site o.kind o.name

theorem use_eq (o : Occurrence) :
    o.use = match o.declaration? with
      | some decl => .bound o.site decl
      | none => .undefined o.site o.kind o.name := by
  rw [use, Scope.use, Env.getElem?_toScope]
  rfl

theorem site_use (o : Occurrence) : o.use.site = o.site := Scope.site_use _ _ _ _

theorem use_eq_bound_iff {o : Occurrence} {site decl : NodeId} :
    o.use = .bound site decl ↔ o.site = site ∧ o.declaration? = some decl := by
  rw [use_eq]
  cases o.declaration? <;> simp

end Occurrence

namespace Scope

variable {scope procedures : Scope} {u : Use}

theorem mem_listUses {es : List Expr} : u ∈ scope.listUses es ↔ ∃ e ∈ es, u ∈ scope.exprUses e := by
  induction es with
  | nil => simp [listUses]
  | cons e es ih => simp [listUses, ih]

theorem boundUse_eq (scope : Scope) (b : Bound) : scope.boundUse b = scope.exprUses b.set := by
  cases b
  rfl

theorem definitionUse_eq (scope : Scope) (d : Definition) :
    scope.definitionUse d = (scope.declareArgs d.args).exprUses d.body := by
  cases d
  rfl

theorem mem_boundUses {bs : List Bound} :
    u ∈ scope.boundUses bs ↔ ∃ b ∈ bs, u ∈ scope.exprUses b.set := by
  induction bs with
  | nil => simp [boundUses]
  | cons b bs ih => simp [boundUses, boundUse_eq, ih]

theorem mem_armUses {arms : List Arm} :
    u ∈ scope.armUses arms ↔
      ∃ e ∈ arms.flatMap fun x => [x.condition, x.result], u ∈ scope.exprUses e := by
  induction arms with
  | nil => simp [armUses]
  | cons x arms ih =>
    cases x
    simp [armUses, ih, or_and_right, exists_or]

/-- A member of a nonempty list with what comes before it. -/
theorem exists_append_cons_iff {α : Type} {P : List α → α → Prop} {x : α} {xs : List α} :
    (∃ before d after, x :: xs = before ++ d :: after ∧ P before d) ↔
      P [] x ∨ ∃ before d after, xs = before ++ d :: after ∧ P (x :: before) d := by
  constructor
  · rintro ⟨before, d, after, heq, hP⟩
    cases before with
    | nil =>
      cases heq
      exact .inl hP
    | cons y before =>
      cases heq
      exact .inr ⟨before, d, after, rfl, hP⟩
  · rintro (hP | ⟨before, d, after, rfl, hP⟩)
    · exact ⟨[], x, xs, rfl, hP⟩
    · exact ⟨x :: before, d, after, rfl, hP⟩

theorem mem_definitionUses {ds : List Definition} :
    u ∈ scope.definitionUses ds ↔ ∃ before d after, ds = before ++ d :: after ∧
      u ∈ (scope.declareDefinitions before).definitionUse d := by
  induction ds generalizing scope with
  | nil => simp [definitionUses]
  | cons d ds ih =>
    rw [definitionUses, List.mem_append, ih, exists_append_cons_iff]
    rfl

theorem mem_initUses {d : Decl} :
    u ∈ scope.initUses d ↔ ∃ e, d.initial? = some e ∧ u ∈ scope.exprUses e := by
  rw [initUses]
  cases d.initial? <;> simp

theorem mem_declUses {ds : List Decl} :
    u ∈ scope.declUses ds ↔ ∃ before d after, ds = before ++ d :: after ∧
      u ∈ (scope.declareDecls before).initUses d := by
  induction ds generalizing scope with
  | nil => simp [declUses]
  | cons d ds ih =>
    rw [declUses, List.mem_append, ih, exists_append_cons_iff]
    rfl

theorem mem_stmtsUses {ss : List Stmt} :
    u ∈ stmtsUses procedures scope ss ↔ ∃ s ∈ ss, u ∈ stmtUses procedures scope s := by
  induction ss with
  | nil => simp [stmtsUses]
  | cons s ss ih => simp [stmtsUses, ih]

theorem mem_branchesUses {bs : List (List Stmt)} :
    u ∈ branchesUses procedures scope bs ↔
      ∃ s ∈ bs.flatten, u ∈ stmtUses procedures scope s := by
  induction bs with
  | nil => simp [branchesUses]
  | cons b bs ih => simp [branchesUses, ih, mem_stmtsUses, or_and_right, exists_or]

end Scope

/-! ## Expressions -/

namespace Expr

open Scope

variable {env : Env} {u : Use} {o : Occurrence}

theorem mem_exprUses_of_operand {scope : Scope} {e x : Expr} (h : x ∈ e.operands)
    (hu : u ∈ scope.exprUses x) : u ∈ scope.exprUses e := by
  cases e with
  | tuple | set | call =>
    simp only [exprUses, mem_listUses, List.mem_cons]
    first | exact ⟨x, h, hu⟩ | exact .inr ⟨x, h, hu⟩
  | unary | binary | ite =>
    simp only [operands, List.mem_cons, List.not_mem_nil, or_false] at h
    simp only [exprUses, List.mem_append, or_assoc]
    rcases h with rfl | rfl | rfl <;> simp [hu]
  | apply _ func args =>
    rw [exprUses, List.mem_append, mem_listUses]
    rcases List.mem_cons.mp h with rfl | h
    · exact .inl hu
    · exact .inr ⟨x, h, hu⟩
  | cases _ arms other =>
    cases other with
    | none =>
      rw [operands, Option.toList_none, List.append_nil] at h
      exact mem_armUses.mpr ⟨x, h, hu⟩
    | some other =>
      rw [exprUses, List.mem_append, mem_armUses]
      rcases List.mem_append.mp h with h | h
      · exact .inl ⟨x, h, hu⟩
      · rw [Option.toList_some, List.mem_singleton] at h
        exact .inr (h ▸ hu)
  | _ => cases h

/-- A binder resolves the sets of its bounds where it stands and its body after them. -/
theorem mem_exprUses_of_binder {scope : Scope} {e body : Expr} {bounds : List Bound}
    (h : e.binder? = some (bounds, body)) :
    u ∈ scope.exprUses e ↔
      (∃ b ∈ bounds, u ∈ scope.exprUses b.set) ∨
        u ∈ (scope.declareBounds bounds).exprUses body := by
  cases e with
  | function | comprehension | quantified =>
    cases h
    rw [exprUses, List.mem_append, mem_boundUses]
  | refinement | choose =>
    cases h
    rw [exprUses, List.mem_append, boundUse_eq]
    simp only [List.mem_singleton, exists_eq_left]
    rfl
  | _ => cases h

theorem Part.mem_exprUses {env' : Env} {e x : Expr} (h : Part env e env' x)
    (hu : u ∈ env'.toScope.exprUses x) : u ∈ env.toScope.exprUses e := by
  cases h with
  | operand h => exact mem_exprUses_of_operand h hu
  | boundSet h hb => exact (mem_exprUses_of_binder h).mpr (.inl ⟨_, hb, hu⟩)
  | boundBody h =>
    rw [Env.toScope_declare_bounds] at hu
    exact (mem_exprUses_of_binder h).mpr (.inr hu)
  | @definition _ before after d _ =>
    rw [Env.toScope_declare, Env.toScope_declare_definitions, ← definitionUse_eq] at hu
    rw [exprUses, List.mem_append, mem_definitionUses]
    exact .inl ⟨before, d, after, rfl, hu⟩
  | letBody =>
    rw [Env.toScope_declare_definitions] at hu
    exact List.mem_append_right _ hu

theorem Occurs.mem_exprUses {e : Expr} (h : e.Occurs env o) : o.use ∈ env.toScope.exprUses e := by
  induction h with
  | ident | ref => exact List.mem_singleton_self _
  | call => exact List.mem_cons_self
  | part h _ ih => exact h.mem_exprUses ih

theorem Occurs.isReference {e : Expr} (h : e.Occurs env o) : o.kind.isReference := by
  induction h with
  | ident | ref | call => rfl
  | part _ _ ih => exact ih

mutual

/-- Every use in an expression is of a name that occurs in it. -/
theorem exists_occurs (env : Env) : (e : Expr) → u ∈ env.toScope.exprUses e →
    ∃ o, e.Occurs env o ∧ o.use = u
  | .literal _ _, h => nomatch h
  | .ident _ _, h => ⟨_, .ident, (List.mem_singleton.mp h).symm⟩
  | .ref _ _, h => ⟨_, .ref, (List.mem_singleton.mp h).symm⟩
  | .tuple _ elems, h | .set _ elems, h => by
    obtain ⟨x, hx, o, ho, hu⟩ := exists_occurs_of_list env elems h
    exact ⟨o, .part (.operand hx) ho, hu⟩
  | .unary _ _ operand, h => by
    obtain ⟨o, ho, hu⟩ := exists_occurs env operand h
    exact ⟨o, .part (.operand (List.mem_singleton_self _)) ho, hu⟩
  | .binary _ _ left right, h => by
    rw [exprUses, List.mem_append] at h
    rcases h with h | h
    · obtain ⟨o, ho, hu⟩ := exists_occurs env left h
      exact ⟨o, .part (.operand (by simp [operands])) ho, hu⟩
    · obtain ⟨o, ho, hu⟩ := exists_occurs env right h
      exact ⟨o, .part (.operand (by simp [operands])) ho, hu⟩
  | .apply _ func args, h => by
    rw [exprUses, List.mem_append] at h
    rcases h with h | h
    · obtain ⟨o, ho, hu⟩ := exists_occurs env func h
      exact ⟨o, .part (.operand List.mem_cons_self) ho, hu⟩
    · obtain ⟨x, hx, o, ho, hu⟩ := exists_occurs_of_list env args h
      exact ⟨o, .part (.operand (List.mem_cons_of_mem _ hx)) ho, hu⟩
  | .function _ bounds body, h | .comprehension _ body bounds, h
  | .quantified _ _ bounds body, h => by
    rw [exprUses, List.mem_append, ← Env.toScope_declare_bounds] at h
    rcases h with h | h
    · obtain ⟨b, hb, o, ho, hu⟩ := exists_occurs_of_bounds env bounds h
      exact ⟨o, .part (.boundSet rfl hb) ho, hu⟩
    · obtain ⟨o, ho, hu⟩ := exists_occurs _ body h
      exact ⟨o, .part (.boundBody rfl) ho, hu⟩
  | .refinement _ bound body, h | .choose _ bound body, h => by
    rw [exprUses, List.mem_append] at h
    rcases h with h | h
    · obtain ⟨o, ho, hu⟩ := exists_occurs_of_bound env bound h
      exact ⟨o, .part (.boundSet rfl (List.mem_singleton_self _)) ho, hu⟩
    · obtain ⟨o, ho, hu⟩ := exists_occurs (env.declare [bound.declares]) body h
      exact ⟨o, .part (.boundBody rfl) ho, hu⟩
  | .ite _ condition thenBranch elseBranch, h => by
    rw [exprUses, List.mem_append, List.mem_append, or_assoc] at h
    rcases h with h | h | h
    · obtain ⟨o, ho, hu⟩ := exists_occurs env condition h
      exact ⟨o, .part (.operand (by simp [operands])) ho, hu⟩
    · obtain ⟨o, ho, hu⟩ := exists_occurs env thenBranch h
      exact ⟨o, .part (.operand (by simp [operands])) ho, hu⟩
    · obtain ⟨o, ho, hu⟩ := exists_occurs env elseBranch h
      exact ⟨o, .part (.operand (by simp [operands])) ho, hu⟩
  | .cases _ arms none, h => by
    obtain ⟨x, hx, o, ho, hu⟩ := exists_occurs_of_arms env arms h
    exact ⟨o, .part (.operand (List.mem_append_left _ hx)) ho, hu⟩
  | .cases _ arms (some other), h => by
    rw [exprUses, List.mem_append] at h
    rcases h with h | h
    · obtain ⟨x, hx, o, ho, hu⟩ := exists_occurs_of_arms env arms h
      exact ⟨o, .part (.operand (List.mem_append_left _ hx)) ho, hu⟩
    · obtain ⟨o, ho, hu⟩ := exists_occurs env other h
      refine ⟨o, .part (.operand (List.mem_append_right _ ?_)) ho, hu⟩
      exact List.mem_singleton_self other
  | .letIn _ definitions body, h => by
    rw [exprUses, List.mem_append, ← Env.toScope_declare_definitions] at h
    rcases h with h | h
    · obtain ⟨before, d, after, rfl, o, ho, hu⟩ := exists_occurs_of_definitions env definitions h
      exact ⟨o, .part .definition ho, hu⟩
    · obtain ⟨o, ho, hu⟩ := exists_occurs _ body h
      exact ⟨o, .part .letBody ho, hu⟩
  | .call _ _ args, h => by
    rcases List.mem_cons.mp h with h | h
    · exact ⟨_, .call, h.symm⟩
    · obtain ⟨x, hx, o, ho, hu⟩ := exists_occurs_of_list env args h
      exact ⟨o, .part (.operand hx) ho, hu⟩

theorem exists_occurs_of_list (env : Env) : (es : List Expr) → u ∈ env.toScope.listUses es →
    ∃ x ∈ es, ∃ o, x.Occurs env o ∧ o.use = u
  | [], h => nomatch h
  | e :: es, h => by
    rw [listUses, List.mem_append] at h
    rcases h with h | h
    · exact ⟨e, List.mem_cons_self, exists_occurs env e h⟩
    · obtain ⟨x, hx, ho⟩ := exists_occurs_of_list env es h
      exact ⟨x, List.mem_cons_of_mem _ hx, ho⟩

theorem exists_occurs_of_bound (env : Env) : (b : Bound) → u ∈ env.toScope.boundUse b →
    ∃ o, b.set.Occurs env o ∧ o.use = u
  | ⟨_, _, s⟩, h => exists_occurs env s h

theorem exists_occurs_of_bounds (env : Env) : (bs : List Bound) → u ∈ env.toScope.boundUses bs →
    ∃ b ∈ bs, ∃ o, b.set.Occurs env o ∧ o.use = u
  | [], h => nomatch h
  | b :: bs, h => by
    rw [boundUses, List.mem_append] at h
    rcases h with h | h
    · exact ⟨b, List.mem_cons_self, exists_occurs_of_bound env b h⟩
    · obtain ⟨x, hx, ho⟩ := exists_occurs_of_bounds env bs h
      exact ⟨x, List.mem_cons_of_mem _ hx, ho⟩

theorem exists_occurs_of_arms (env : Env) : (arms : List Arm) → u ∈ env.toScope.armUses arms →
    ∃ x ∈ arms.flatMap (fun x => [x.condition, x.result]), ∃ o, x.Occurs env o ∧ o.use = u
  | [], h => nomatch h
  | ⟨condition, result⟩ :: arms, h => by
    rw [armUses, List.mem_append, List.mem_append, or_assoc] at h
    rcases h with h | h | h
    · exact ⟨condition, List.mem_cons_self, exists_occurs env condition h⟩
    · exact ⟨result, List.mem_cons_of_mem _ List.mem_cons_self, exists_occurs env result h⟩
    · obtain ⟨x, hx, ho⟩ := exists_occurs_of_arms env arms h
      exact ⟨x, List.mem_append_right _ hx, ho⟩

theorem exists_occurs_of_definitions (env : Env) :
    (ds : List Definition) → u ∈ env.toScope.definitionUses ds →
      ∃ before d after, ds = before ++ d :: after ∧ ∃ o,
        d.body.Occurs ((env.declare (before.map (·.declares))).declare d.args) o ∧ o.use = u
  | [], h => nomatch h
  | ⟨id, name, args, body⟩ :: ds, h => by
    rw [definitionUses, List.mem_append, definitionUse, ← Env.toScope_declare] at h
    rcases h with h | h
    · exact ⟨[], ⟨id, name, args, body⟩, ds, rfl, exists_occurs _ body h⟩
    · obtain ⟨before, d, after, rfl, o, ho, hu⟩ :=
        exists_occurs_of_definitions (env.declare [⟨id, name⟩]) ds h
      refine ⟨⟨id, name, args, body⟩ :: before, d, after, rfl, o, ?_, hu⟩
      rwa [List.map_cons, ← List.singleton_append, Env.declare_append]

end

theorem mem_exprUses_iff {e : Expr} :
    u ∈ env.toScope.exprUses e ↔ ∃ o, e.Occurs env o ∧ o.use = u := by
  refine ⟨exists_occurs env e, ?_⟩
  rintro ⟨o, ho, rfl⟩
  exact ho.mem_exprUses

end Expr

/-! ## Statements -/

section

open Scope

variable {env procedures : Env} {u : Use} {o : Occurrence} {decls : List Decl}

theorem Decl.mem_declUses_iff :
    u ∈ env.toScope.declUses decls ↔ ∃ o, Decl.OccursIn env decls o ∧ o.use = u := by
  simp only [Scope.mem_declUses, mem_initUses, ← Env.toScope_declare_decls, Expr.mem_exprUses_iff]
  constructor
  · rintro ⟨before, d, after, rfl, e, he, o, ho, hu⟩
    exact ⟨o, .initial he ho, hu⟩
  · rintro ⟨_, ⟨he, ho⟩, hu⟩
    exact ⟨_, _, _, rfl, _, he, _, ho, hu⟩

theorem Decl.OccursIn.isReference (h : Decl.OccursIn env decls o) : o.kind.isReference := by
  cases h with
  | initial _ ho => exact ho.isReference

namespace Stmt

theorem mem_stmtUses_of_expr {scope procedures : Scope} {s : Stmt} {e : Expr} (h : e ∈ s.exprs)
    (hu : u ∈ scope.exprUses e) : u ∈ stmtUses procedures scope s := by
  cases s with
  | assign _ pairs =>
    obtain ⟨p, hp, he⟩ := List.mem_flatMap.mp h
    refine List.mem_flatMap.mpr ⟨p, hp, List.mem_append.mpr ?_⟩
    simp only [List.mem_cons, List.not_mem_nil, or_false] at he
    rcases he with rfl | rfl
    · exact .inl hu
    · exact .inr hu
  | ite | whileDo | print | assert | await | yield =>
    cases List.mem_singleton.mp h
    simp only [stmtUses, List.mem_append, hu, true_or]
  | call _ _ args => exact List.mem_cons_of_mem _ (mem_listUses.mpr ⟨e, h, hu⟩)
  | _ => cases h

theorem mem_stmtUses_of_block {scope procedures : Scope} {s t : Stmt} (h : t ∈ s.blocks)
    (hu : u ∈ stmtUses procedures scope t) : u ∈ stmtUses procedures scope s := by
  cases s with
  | labeled | whileDo =>
    simp only [stmtUses, List.mem_append, mem_stmtsUses]
    first | exact ⟨t, h, hu⟩ | exact .inr ⟨t, h, hu⟩
  | ite _ _ thenBranch elseBranch =>
    simp only [stmtUses, List.mem_append, mem_stmtsUses]
    rcases List.mem_append.mp h with h | h
    · exact .inl (.inr ⟨t, h, hu⟩)
    · exact .inr ⟨t, h, hu⟩
  | either => exact mem_branchesUses.mpr ⟨t, h, hu⟩
  | _ => cases h

theorem Occurs.mem_stmtUses {s : Stmt} (h : s.Occurs procedures env o) :
    o.use ∈ stmtUses procedures.toScope env.toScope s := by
  induction h with
  | expr h ho => exact mem_stmtUses_of_expr h ho.mem_exprUses
  | block h _ ih => exact mem_stmtUses_of_block h ih
  | call => exact List.mem_cons_self
  | withDecls ho => exact List.mem_append_left _ (Decl.mem_declUses_iff.mpr ⟨_, ho, rfl⟩)
  | withBody h _ ih =>
    rw [Env.toScope_declare_decls] at ih
    exact List.mem_append_right _ (mem_stmtsUses.mpr ⟨_, h, ih⟩)

theorem Occurs.isReference {s : Stmt} (h : s.Occurs procedures env o) : o.kind.isReference := by
  induction h with
  | expr _ ho => exact ho.isReference
  | call => rfl
  | withDecls ho => exact ho.isReference
  | block _ _ ih | withBody _ _ ih => exact ih

theorem exists_occurs_of_exprs {s : Stmt} {e : Expr} (h : e ∈ s.exprs)
    (hu : u ∈ env.toScope.exprUses e) : ∃ o, s.Occurs procedures env o ∧ o.use = u := by
  obtain ⟨o, ho, hu⟩ := Expr.exists_occurs env e hu
  exact ⟨o, .expr h ho, hu⟩

mutual

/-- Every use in a statement is of a name that occurs in it. -/
theorem exists_occurs (env : Env) : (s : Stmt) →
    u ∈ stmtUses procedures.toScope env.toScope s → ∃ o, s.Occurs procedures env o ∧ o.use = u
  | .labeled _ _ body, h => by
    obtain ⟨t, ht, o, ho, hu⟩ := exists_occurs_of_list env body h
    exact ⟨o, .block ht ho, hu⟩
  | .assign _ pairs, h => by
    obtain ⟨p, hp, h⟩ := List.mem_flatMap.mp h
    rcases List.mem_append.mp h with h | h
    · exact exists_occurs_of_exprs (List.mem_flatMap.mpr ⟨p, hp, by simp⟩) h
    · exact exists_occurs_of_exprs (List.mem_flatMap.mpr ⟨p, hp, by simp⟩) h
  | .ret _, h | .skip _, h | .goto _ _, h => nomatch h
  | .ite _ condition thenBranch elseBranch, h => by
    rw [stmtUses, List.mem_append, List.mem_append, or_assoc] at h
    rcases h with h | h | h
    · exact exists_occurs_of_exprs (List.mem_singleton_self _) h
    · obtain ⟨t, ht, o, ho, hu⟩ := exists_occurs_of_list env thenBranch h
      exact ⟨o, .block (List.mem_append_left _ ht) ho, hu⟩
    · obtain ⟨t, ht, o, ho, hu⟩ := exists_occurs_of_list env elseBranch h
      exact ⟨o, .block (List.mem_append_right _ ht) ho, hu⟩
  | .either _ branches, h => by
    obtain ⟨t, ht, o, ho, hu⟩ := exists_occurs_of_branches env branches h
    exact ⟨o, .block ht ho, hu⟩
  | .whileDo _ condition body, h => by
    rw [stmtUses, List.mem_append] at h
    rcases h with h | h
    · exact exists_occurs_of_exprs (List.mem_singleton_self _) h
    · obtain ⟨t, ht, o, ho, hu⟩ := exists_occurs_of_list env body h
      exact ⟨o, .block ht ho, hu⟩
  | .withDo _ decls body, h => by
    rw [stmtUses, List.mem_append, ← Env.toScope_declare_decls] at h
    rcases h with h | h
    · obtain ⟨o, ho, hu⟩ := Decl.mem_declUses_iff.mp h
      exact ⟨o, .withDecls ho, hu⟩
    · obtain ⟨t, ht, o, ho, hu⟩ := exists_occurs_of_list _ body h
      exact ⟨o, .withBody ht ho, hu⟩
  | .print _ _, h | .assert _ _, h | .await _ _, h | .yield _ _, h =>
    exists_occurs_of_exprs (List.mem_singleton_self _) h
  | .call _ _ args, h => by
    rcases List.mem_cons.mp h with h | h
    · exact ⟨_, .call, h.symm⟩
    · obtain ⟨e, he, h⟩ := mem_listUses.mp h
      exact exists_occurs_of_exprs he h

theorem exists_occurs_of_list (env : Env) : (ss : List Stmt) →
    u ∈ stmtsUses procedures.toScope env.toScope ss →
      ∃ t ∈ ss, ∃ o, t.Occurs procedures env o ∧ o.use = u
  | [], h => nomatch h
  | s :: ss, h => by
    rw [stmtsUses, List.mem_append] at h
    rcases h with h | h
    · exact ⟨s, List.mem_cons_self, exists_occurs env s h⟩
    · obtain ⟨t, ht, ho⟩ := exists_occurs_of_list env ss h
      exact ⟨t, List.mem_cons_of_mem _ ht, ho⟩

theorem exists_occurs_of_branches (env : Env) : (bs : List (List Stmt)) →
    u ∈ branchesUses procedures.toScope env.toScope bs →
      ∃ t ∈ bs.flatten, ∃ o, t.Occurs procedures env o ∧ o.use = u
  | [], h => nomatch h
  | b :: bs, h => by
    rw [branchesUses, List.mem_append] at h
    rcases h with h | h
    · obtain ⟨t, ht, ho⟩ := exists_occurs_of_list env b h
      exact ⟨t, List.mem_append_left _ ht, ho⟩
    · obtain ⟨t, ht, ho⟩ := exists_occurs_of_branches env bs h
      exact ⟨t, List.mem_append_right _ ht, ho⟩

end

end Stmt

end

end PlusCalTyping
