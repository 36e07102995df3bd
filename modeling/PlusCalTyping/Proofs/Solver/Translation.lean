import PlusCalTyping.Proofs.Solver.Comparison
import PlusCalTyping.Proofs.Solver.Resemblance
import PlusCalTyping.Proofs.Ty.Translation

/-! # Solving translated constraints

A list of constraints and its translation are solved in the same way: the same
equations are tried, as many of them are admitted, and choices are decided
alike, so that bindings, failures and verdicts at the end are translations of
each other (`Session.solve_translate`). The two runs may be given different
options, only the number of equations admitted has to be the same: what is
recorded on the way changes nothing.
-/

namespace PlusCalTyping

variable {T : Translation}

theorem map_eq_map_of_forall₂ {α β : Type} {r : α → α → Prop} {f : α → β} {l l' : List α}
    (hr : ∀ x y, r x y → f x = f y) (h : List.Forall₂ r l l') : l.map f = l'.map f := by
  induction h with
  | nil => rfl
  | cons hxy _ ih => rw [List.map_cons, List.map_cons, hr _ _ hxy, ih]

/-! ## Constraints and failures -/

namespace Equation

def translate (T : Translation) (e : Equation) : Equation :=
  ⟨e.expected.translate T, e.actual.translate T, T.provenance e.provenance⟩

theorem vars_translate (e : Equation) : (e.translate T).vars = e.vars.map T.var := by
  simp only [vars, translate, Ty.vars_translate, List.map_append]

end Equation

def Choice.translate (T : Translation) (c : Choice) : Choice :=
  ⟨c.candidates.map (·.map (·.translate T)), T.provenance c.provenance⟩

namespace Constraint

def translate (T : Translation) : Constraint → Constraint
  | equal e => equal (e.translate T)
  | oneOf c => oneOf (c.translate T)

theorem vars_translate (k : Constraint) : (k.translate T).vars = k.vars.map T.var := by
  cases k with
  | equal e => exact e.vars_translate
  | oneOf c =>
    simp only [translate, vars, Choice.translate, ← List.map_flatten, List.flatMap_map,
      List.map_flatMap, Equation.vars_translate]

theorem equations_translate (cs : List Constraint) :
    Solving.equations (cs.map (·.translate T)) = (Solving.equations cs).map (·.translate T) := by
  induction cs with
  | nil => rfl
  | cons k cs ih => cases k <;> simp_all [Solving.equations, translate]

theorem choices_translate (cs : List Constraint) :
    Solving.choices (cs.map (·.translate T)) = (Solving.choices cs).map (·.translate T) := by
  induction cs with
  | nil => rfl
  | cons k cs ih => cases k <;> simp_all [Solving.choices, translate]

end Constraint

namespace Failure

def translate (T : Translation) : Failure → Failure
  | mismatch s t p => mismatch (s.translate T) (t.translate T) (T.provenance p)
  | tupleSize s t m n p => tupleSize (s.translate T) (t.translate T) m n (T.provenance p)
  | paramCount m n p => paramCount m n (T.provenance p)
  | infinite v t p => infinite (T.var v) (t.translate T) (T.provenance p)
  | exhausted c => exhausted (c.translate T)
  | outOfBudget limit recent p =>
    outOfBudget limit (recent.map (·.translate T)) (T.provenance p)

theorem provenance_translate (f : Failure) :
    (f.translate T).provenance = T.provenance f.provenance := by
  cases f <;> rfl

theorem ofEvent?_translate (p : Provenance) (e : UnifyEvent) :
    ofEvent? (T.provenance p) (e.translate T) = (ofEvent? p e).map (·.translate T) := by
  unfold ofEvent?
  cases h : e.outcome with
  | clash c => cases c <;> simp only [UnifyEvent.translate, Outcome.translate, h] <;> rfl
  | _ =>
    simp only [UnifyEvent.translate, Outcome.translate, h]
    rfl

end Failure

/-! ## Sessions -/

/-- The nodes of constraints stay what they are. -/
def Translation.KeepsNodes (T : Translation) : Prop :=
  ∀ p : Provenance, (T.provenance p).node = p.node

namespace Session

/-- What is known and found wrong is the same, told in other words. Failures
may go unreported because of others at their node, so that the reports are only
the same if the nodes are. -/
structure Translates (T : Translation) (s t : Session) : Prop where
  substitution : s.substitution.Translates T t.substitution
  constrained (v : TypeVar) : T.var v ∈ t.constrained ↔ v ∈ s.constrained
  clean : t.failures = #[] ↔ s.failures = #[]
  failures : T.KeepsNodes → t.failures = s.failures.map (·.translate T)

variable {s t : Session}

theorem translates_ofOptions (T : Translation) (o o' : Options) :
    (ofOptions o).Translates T (ofOptions o') where
  substitution := Substitution.translates_empty T
  constrained v := by simp [ofOptions]
  clean := Iff.rfl
  failures _ := by simp [ofOptions]

theorem Translates.constrain (h : s.Translates T t) (cs : List Constraint) :
    (s.constrain cs).Translates T (t.constrain (cs.map (·.translate T))) where
  substitution := h.substitution
  constrained v := by
    simp only [Session.constrain, mem_foldl_insert, List.flatMap_map, Constraint.vars_translate,
      ← List.map_flatMap, List.mem_map_of_injective T.injective, h.constrained]
  clean := h.clean
  failures := h.failures

theorem Translates.log (h : s.Translates T t) (lines lines' : String → List UnifyLine) :
    (s.log lines).Translates T (t.log lines') := by
  constructor
  · rw [substitution_log, substitution_log]
    exact h.substitution
  · rw [constrained_log, constrained_log]
    exact h.constrained
  · rw [failures_log, failures_log]
    exact h.clean
  · rw [failures_log, failures_log]
    exact h.failures

theorem Translates.unify (h : s.Translates T t) (e : Equation) :
    (s.unify e).Translates T (t.unify (e.translate T)) := by
  have hevents := h.substitution.unify e.expected e.actual
  constructor
  · rw [substitution_unify, substitution_unify, Equation.translate, hevents]
    exact h.substitution.extend _
  · intro v
    rw [Session.unify, Session.unify, absorb, absorb, constrained_log, constrained_log]
    exact h.constrained v
  · rw [failures_unify_eq_empty_iff, failures_unify_eq_empty_iff, Equation.translate, hevents,
      Unify.succeeded_translate, h.clean]
  · intro hT
    simp only [Session.unify, absorb, Equation.translate, hevents, h.failures hT,
      List.filterMap_map, Array.map_append, List.map_toArray, List.map_filterMap]
    congr 3
    exact funext fun e' => Failure.ofEvent?_translate e.provenance e'

theorem Translates.current (h : s.Translates T t) (c : Choice) :
    t.current (c.translate T) = (s.current c).translate T := by
  simp only [Session.current, Choice.translate, List.map_map, Choice.mk.injEq, and_true]
  refine List.map_congr_left fun es _ => ?_
  simp only [Function.comp_apply, List.map_map]
  refine List.map_congr_left fun e _ => ?_
  simp only [Function.comp_apply, Equation.translate, h.substitution.apply]

theorem Translates.reportExhausted (h : s.Translates T t) (c : Choice) :
    (s.reportExhausted c).Translates T (t.reportExhausted (c.translate T)) := by
  constructor
  · rw [substitution_reportExhausted, substitution_reportExhausted]
    exact h.substitution
  · rw [constrained_reportExhausted, constrained_reportExhausted]
    exact h.constrained
  · exact iff_of_false (failures_reportExhausted_ne t _) (failures_reportExhausted_ne s c)
  · intro hT
    have hnode (f : Failure) : (f.translate T).node = f.node := by
      rw [Failure.node, Failure.provenance_translate, hT, Failure.node]
    have hany : t.failures.any (·.node = (c.translate T).provenance.node) =
        s.failures.any (·.node = c.provenance.node) := by
      simp only [h.failures hT, Array.any_map, Function.comp_def, hnode, Choice.translate,
        hT c.provenance]
    simp only [Session.reportExhausted, hany, h.current]
    split
    · exact h.failures hT
    · simp only [Session.fail, h.failures hT, Array.map_push]
      rfl

def Verdict.translate (T : Translation) : Verdict → Verdict
  | known t => known (t.translate T)
  | unused => unused
  | incomplete t => incomplete (t.translate T)

theorem Translates.verdict (h : s.Translates T t) (v : TypeVar) :
    t.verdict (T.var v) = (s.verdict v).translate T := by
  have hvalue : t.substitution.apply (.var (T.var v)) = _ := h.substitution.apply (.var v)
  have hcontains : t.constrained.contains (T.var v) = s.constrained.contains v := by
    rw [Bool.eq_iff_iff, Std.TreeSet.contains_iff_mem, Std.TreeSet.contains_iff_mem]
    exact h.constrained v
  unfold Session.verdict
  rw [hvalue, h.substitution.isBound, hcontains]
  simp only [Ty.containsVars_translate]
  split
  · rfl
  · split <;> rfl

end Session

/-! ## Runs -/

/-- As much is spent of as much, on the same equations. How many of them a
report lists is the same if `same` holds. -/
structure Budget.Translates (T : Translation) (same : Prop) (b b' : Budget) : Prop where
  limit : b'.limit = b.limit
  used : b'.used = b.used
  attempted : b'.attempted = b.attempted.map (·.translate T)
  traceLimit : same → b'.traceLimit = b.traceLimit

structure Progress.Translates (T : Translation) (same : Prop) (p q : Progress) : Prop where
  session : p.session.Translates T q.session
  budget : p.budget.Translates T same q.budget

/-- Failures that say the same, except that refusals of an equation only list
the same equations before it if `same` holds. -/
inductive Failure.Echoes (T : Translation) (same : Prop) : Failure → Failure → Prop
  | told (f : Failure) : Echoes T same f (f.translate T)
  | refused {limit : Nat} {recent recent' : List Equation} {p : Provenance}
    (h : same → recent' = recent.map (·.translate T)) :
    Echoes T same (.outOfBudget limit recent p) (.outOfBudget limit recent' (T.provenance p))

theorem Failure.Echoes.eq_translate {same : Prop} {f f' : Failure} (h : f.Echoes T same f')
    (hsame : same) : f' = f.translate T := by
  cases h with
  | told => rfl
  | refused h => rw [h hsame, translate]

namespace Solving

/-- Two runs end alike, or the budget stops both at the same equation. -/
def Echoes (T : Translation) (same : Prop) {α α' : Type} (found : α → α' → Prop) :
    EStateM.Result Failure Progress α → EStateM.Result Failure Progress α' → Prop
  | .ok x p, .ok y q => p.Translates T same q ∧ found x y
  | .error f p, .error f' q => p.Translates T same q ∧ f.Echoes T same f'
  | _, _ => False

variable {same : Prop}

/-- Parts that go on alike wherever a translation has led. -/
def echoing (T : Translation) (same : Prop) : Comparison where
  Holds m m' found := ∀ p q, p.Translates T same q → Echoes T same found (m p) (m' q)
  pure h p q hpq := ⟨hpq, h⟩
  bind {_ _ _ _ m m' g k found found'} h hg p q hpq := by
    have hm := h p q hpq
    simp only [Bind.bind, EStateM.bind]
    cases hp : m p <;> cases hq : m' q <;> rw [hp, hq] at hm
    case ok.ok x p' y q' => exact hg x y hm.2 p' q' hm.1
    case error.error => exact hm
    all_goals exact hm.elim

theorem echoing_change {f f' : Session → Session}
    (h : ∀ s t, s.Translates T t → (f s).Translates T (f' t)) :
    (echoing T same).Holds (change f) (change f') fun _ _ => True :=
  fun _ _ hpq => ⟨⟨h _ _ hpq.session, hpq.budget⟩, trivial⟩

theorem echoing_charge (e : Equation) :
    (echoing T same).Holds (charge e) (charge (e.translate T)) fun _ _ => True := by
  intro p q hpq
  obtain ⟨hlimit, hused, hattempted, htraceLimit⟩ := hpq.budget
  have hnoted : (q.budget.note (e.translate T)).attempted =
      (p.budget.note e).attempted.map (·.translate T) := by
    simp only [Budget.note, hattempted, List.map_cons]
  simp only [charge, Budget.charge, hlimit, hused]
  by_cases h : p.budget.used < p.budget.limit
  · simp only [h, if_true]
    exact ⟨⟨hpq.session, hlimit, rfl, hnoted, htraceLimit⟩, trivial⟩
  · simp only [h, if_false]
    refine ⟨⟨hpq.session, hlimit, hused, hnoted, htraceLimit⟩, .refused fun hsame => ?_⟩
    simp only [Budget.recent, Budget.note, hattempted, htraceLimit hsame, List.map_reverse,
      List.map_take, List.map_cons]

theorem covers_echoing (T : Translation) (same : Prop) :
    (echoing T same).Covers (fun e e' => e' = e.translate T) (fun c c' => c' = c.translate T)
      (Substitution.Translates T) where
  get _ _ hpq := ⟨hpq, hpq.session.substitution⟩
  charge he := he ▸ echoing_charge _
  unify he := he ▸ echoing_change fun _ _ h => h.unify _
  log _ _ _ _ _ _ _ := echoing_change fun _ _ h => h.log _ _
  exhaust hc := hc ▸ echoing_change fun _ _ h => h.reportExhausted _
  candidates {c _} hc := by
    rw [hc, Choice.translate, List.forall₂_map_right_iff]
    refine List.forall₂_same.mpr fun es _ => ?_
    rw [List.forall₂_map_right_iff]
    exact List.forall₂_same.mpr fun _ _ => rfl
  succeeded he hσ := by
    rw [he, Equation.translate, hσ.unify, Unify.succeeded_translate]
  extend he hσ := by
    rw [he, Equation.translate, hσ.unify]
    exact hσ.extend _

theorem echoing_constraints (T : Translation) (same : Prop) (cs : List Constraint) :
    (echoing T same).Holds (constraints cs) (constraints (cs.map (·.translate T)))
      fun _ _ => True := by
  refine (covers_echoing T same).constraints ?_ ?_
  · rw [Constraint.equations_translate, List.forall₂_map_right_iff]
    exact List.forall₂_same.mpr fun _ _ => rfl
  · rw [Constraint.choices_translate, List.forall₂_map_right_iff]
    exact List.forall₂_same.mpr fun _ _ => rfl

end Solving

/-- What is found of translated constraints is a translation of what is found
of the constraints. -/
structure Solution.Translates (T : Translation) (same : Prop) (x y : Solution) : Prop where
  session : x.session.Translates T y.session
  solved : y.failures = [] ↔ x.failures = []
  failures : T.KeepsNodes → List.Forall₂ (Failure.Echoes T same) x.failures y.failures

theorem Session.Translates.ofSession {s t : Session} {same : Prop} (h : s.Translates T t) :
    (Solution.ofSession s).Translates T same (Solution.ofSession t) where
  session := ⟨h.substitution, h.constrained, Iff.rfl, fun _ => by simp [Solution.ofSession]⟩
  solved := Array.toList_eq_nil_iff.trans (h.clean.trans Array.toList_eq_nil_iff.symm)
  failures hT := by
    simp only [Solution.ofSession, h.failures hT, Array.toList_map, List.forall₂_map_right_iff]
    exact List.forall₂_same.mpr fun f _ => .told f

theorem Session.Translates.ofSession_fail {s t : Session} {same : Prop} (h : s.Translates T t)
    {f f' : Failure} (hf : f.Echoes T same f') :
    (Solution.ofSession (s.fail f)).Translates T same (Solution.ofSession (t.fail f')) where
  session := ⟨h.substitution, h.constrained, Iff.rfl, fun _ => by simp [Solution.ofSession]⟩
  solved := by simp [Solution.ofSession, fail]
  failures hT := by
    simp only [Solution.ofSession, fail, Array.toList_push]
    exact List.rel_append (h.ofSession.failures hT) (.cons hf .nil)

/-- Constraints and their translation are solved alike if as many equations are
admitted. -/
theorem Session.Translates.solve {s t : Session} (h : s.Translates T t) {o o' : Options}
    (ho : o'.maxIterations = o.maxIterations) (cs : List Constraint) :
    (s.solve o cs).Translates T (o'.traceLimit = o.traceLimit)
      (t.solve o' (cs.map (·.translate T))) := by
  have hbudget : (Budget.ofOptions o).Translates T (o'.traceLimit = o.traceLimit)
      (Budget.ofOptions o') := ⟨ho, rfl, rfl, id⟩
  have hrun := Solving.echoing_constraints T _ cs ⟨s.constrain cs, .ofOptions o⟩
    ⟨t.constrain (cs.map (·.translate T)), .ofOptions o'⟩ ⟨h.constrain cs, hbudget⟩
  unfold Session.solve
  cases hp : Solving.constraints cs ⟨s.constrain cs, .ofOptions o⟩ <;>
    cases hq : Solving.constraints (cs.map (·.translate T))
      ⟨t.constrain (cs.map (·.translate T)), .ofOptions o'⟩ <;> rw [hp, hq] at hrun
  case ok.ok => exact hrun.1.session.ofSession
  case error.error => exact hrun.1.session.ofSession_fail hrun.2
  all_goals exact hrun.elim

end PlusCalTyping
