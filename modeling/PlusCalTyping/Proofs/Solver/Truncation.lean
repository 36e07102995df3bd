import PlusCalTyping.Proofs.Solver.Bindings
import PlusCalTyping.Proofs.Solver.Comparison
import PlusCalTyping.Proofs.Solver.MostGeneral
import PlusCalTyping.Proofs.Solver.Termination

/-! # A smaller budget

What a run does is not influenced by its budget until the budget is exhausted.
Two runs that differ in their budgets do the same up to the first equation that
the smaller one refuses; there one run ends, with one more failure, and the
other goes on by further steps. Steps only add to what is bound, found wrong and
traced, so that the shorter run leaves a part of what the longer one leaves
(`Session.ofOptions_solve_truncated`).
-/

namespace PlusCalTyping

/-! ## What steps add -/

theorem prefix_appendLines (trace : Array UnifyStep) (lines : List UnifyLine) :
    trace.toList <+: (appendLines trace lines).toList := by
  induction lines generalizing trace with
  | nil => exact List.prefix_refl _
  | cons l lines ih =>
    have hpush : trace.toList <+: (trace.push ⟨l, trace.size + 1⟩).toList := by
      rw [Array.toList_push]
      exact List.prefix_append _ _
    exact hpush.trans (ih _)

namespace Session

variable {s t u : Session} {cs : List Constraint}

/-- Later than the first session, with more failures and a longer trace. -/
structure Continues (s t : Session) : Prop where
  failures : s.failures.toList <+: t.failures.toList
  trace : s.trace.toList <+: t.trace.toList

theorem Continues.refl (s : Session) : s.Continues s := ⟨List.prefix_refl _, List.prefix_refl _⟩

theorem Continues.trans (h : s.Continues t) (h' : t.Continues u) : s.Continues u :=
  ⟨h.failures.trans h'.failures, h.trace.trans h'.trace⟩

theorem continues_log (s : Session) (lines : String → List UnifyLine) :
    s.Continues (s.log lines) := by
  constructor
  · rw [failures_log]
  · unfold log
    split
    · exact prefix_appendLines _ _
    · rfl

theorem continues_fail (s : Session) (f : Failure) : s.Continues (s.fail f) := by
  constructor
  · rw [fail, Array.toList_push]
    exact List.prefix_append _ _
  · exact List.prefix_refl _

theorem Step.continues (h : Step cs s t) : s.Continues t := by
  cases h with
  | unify =>
    constructor
    · simp only [Session.unify, absorb, Array.toList_append]
      exact List.prefix_append _ _
    · exact (continues_log s _).trace
  | decide => exact continues_log s _
  | exhaust =>
    unfold reportExhausted
    split
    · exact .refl s
    · exact continues_fail s _

theorem Steps.continues (h : Steps cs s t) : s.Continues t := by
  induction h with
  | refl => exact .refl s
  | tail _ hlast ih => exact ih.trans hlast.continues

end Session

/-! ## Two budgets -/

/-- Two states that only differ in how much is left to spend, the first not
having more of it. -/
structure Progress.Cut (p q : Progress) : Prop where
  session : p.session = q.session
  used : p.budget.used = q.budget.used
  limit : p.budget.limit ≤ q.budget.limit

namespace Solving

variable {cs : List Constraint}

/-- The runs end alike, or the budget stopped the first and the second has come
further by steps. -/
def Truncates (cs : List Constraint) {α α' : Type} (found : α → α' → Prop) :
    EStateM.Result Failure Progress α → EStateM.Result Failure Progress α' → Prop
  | .ok x p, .ok y q => p.Cut q ∧ found x y
  | .error f p, .ok _ q | .error f p, .error _ q =>
    f.OutOfBudget ∧ Session.Steps cs p.session q.session
  | .ok _ _, .error _ _ => False

/-- Parts that truncate each other. The second goes on by steps also where the
first is not reached any more. -/
def truncating (cs : List Constraint) : Comparison where
  Holds m m' found := Walks cs m' (fun y => ∃ x, found x y) ∧
    ∀ p q, p.Cut q → Truncates cs found (m p) (m' q)
  pure h := ⟨walks_pure ⟨_, h⟩, fun _ _ hpq => ⟨hpq, h⟩⟩
  bind {_ _ _ _ m m' g k found found'} h hg := by
    constructor
    · exact h.1.bind fun y ⟨x, hxy⟩ => (hg x y hxy).1
    intro p q hpq
    have hm := h.2 p q hpq
    have hwalks := h.1 q
    unfold Ends at hwalks
    simp only [Bind.bind, EStateM.bind]
    cases hp : m p <;> cases hq : m' q <;> rw [hp, hq] at hm <;> rw [hq] at hwalks
    case ok.ok x p' y q' => exact (hg x y hm.2).2 p' q' hm.1
    case ok.error => exact hm.elim
    case error.error => exact hm
    case error.ok f p' y q' =>
      obtain ⟨_, x, hxy⟩ := hwalks
      have hrest := (hg x y hxy).1 q'
      unfold Ends at hrest
      dsimp only
      cases hk : k y q' <;> rw [hk] at hrest <;> exact ⟨hm.1, hm.2.trans hrest.1⟩

theorem truncating_charge (e : Equation) :
    (truncating cs).Holds (charge e) (charge e) fun _ _ => True := by
  refine ⟨fun q => (walks_charge e q).mono (fun _ _ h => ⟨h.1, (), trivial⟩) fun _ _ h => h, ?_⟩
  intro p q hpq
  have hlimit := hpq.limit
  have hused := hpq.used
  by_cases hp : p.budget.used < p.budget.limit
  · have hq : q.budget.used < q.budget.limit := by omega
    simp only [charge, Budget.charge, hp, hq, if_true]
    exact ⟨⟨hpq.session, congrArg (· + 1) hused, hlimit⟩, trivial⟩
  · have hsteps : Session.Steps cs p.session q.session := hpq.session ▸ .refl
    by_cases hq : q.budget.used < q.budget.limit <;>
      simp only [charge, Budget.charge, hp, hq, if_true, if_false] <;> exact ⟨rfl, hsteps⟩

theorem truncating_change {f : Session → Session} (h : ∀ s, Session.Step cs s (f s)) :
    (truncating cs).Holds (change f) (change f) fun _ _ => True := by
  constructor
  · exact fun q => ⟨.single (h q.session), (), trivial⟩
  · exact fun p q hpq => ⟨⟨congrArg f hpq.session, hpq.used, hpq.limit⟩, trivial⟩

theorem covers_truncating (cs : List Constraint) :
    (truncating cs).Covers (fun e e' => e = e' ∧ ∃ k ∈ cs, e ∈ k.equations)
      (fun c c' => c = c' ∧ .oneOf c ∈ cs) Eq where
  get := ⟨fun q => ⟨.refl, q, rfl⟩,
    fun _ _ hpq => ⟨hpq, congrArg Session.substitution hpq.session⟩⟩
  charge := by
    rintro e _ ⟨rfl, _⟩
    exact truncating_charge e
  unify := by
    rintro e _ ⟨rfl, he⟩
    exact truncating_change fun _ => .unify he
  log := by
    rintro c _ action i candidate candidate' ⟨rfl, hc⟩ hi hi'
    obtain rfl := Option.some.inj (hi.symm.trans hi')
    exact truncating_change fun _ => .decide action hc hi
  exhaust := by
    rintro c _ ⟨rfl, hc⟩
    exact truncating_change fun _ => .exhaust hc
  candidates := by
    rintro c _ ⟨rfl, hc⟩
    refine List.forall₂_same.mpr fun es hes => List.forall₂_same.mpr fun e he => ⟨rfl, _, hc, ?_⟩
    exact List.mem_flatten.mpr ⟨es, hes, he⟩
  succeeded := by
    rintro e _ σ _ ⟨rfl, _⟩ rfl
    rfl
  extend := by
    rintro e _ σ _ ⟨rfl, _⟩ rfl
    rfl

theorem truncating_constraints (cs : List Constraint) :
    (truncating cs).Holds (constraints cs) (constraints cs) fun _ _ => True := by
  refine (covers_truncating cs).constraints ?_ ?_
  · exact List.forall₂_same.mpr fun e he =>
      ⟨rfl, .equal e, mem_equations_iff.mp he, List.mem_singleton_self e⟩
  · exact List.forall₂_same.mpr fun c hc => ⟨rfl, mem_choices_iff.mp hc⟩

end Solving

/-! ## Whole runs -/

theorem Solution.exists_of_category {x : Solution} {k : Category}
    (h : k ∈ x.failures.map (·.category)) : ∃ d ∈ x.diagnostics, d.category = k := by
  obtain ⟨f, hf, rfl⟩ := List.mem_map.mp h
  exact ⟨f.toDiagnostic, List.mem_map_of_mem hf, rfl⟩

namespace Session

variable {s t : Session}

theorem Unstopped.category_ne (h : s.Unstopped) :
    ∀ d ∈ (Solution.ofSession s).diagnostics, d.category ≠ .solverBudget := by
  intro d hd
  obtain ⟨f, hf, rfl⟩ := List.mem_map.mp hd
  exact h f (Array.mem_toList_iff.mp hf)

theorem diagnostics_fail (s : Session) (f : Failure) :
    (Solution.ofSession (s.fail f)).diagnostics =
      (Solution.ofSession s).diagnostics ++ [f.toDiagnostic] := by
  simp only [Solution.diagnostics, Solution.ofSession, fail, Array.toList_push, List.map_append,
    List.map_cons, List.map_nil]

/-- The solutions are the same, or the budget has stopped the first run in a
session that the second one has taken further. -/
inductive Truncated : Solution → Solution → Prop
  | same {s : Session} (hs : s.Unstopped) : Truncated (.ofSession s) (.ofSession s)
  | stopped {s t : Session} {f : Failure} (hs : s.Unstopped) (hf : f.OutOfBudget)
    (h : s.Continues t) (hle : s.substitution ≤ t.substitution) :
    Truncated (.ofSession (s.fail f)) (.ofSession t)

theorem truncated_solve (hs : s.Regular) (hfailures : s.failures = #[]) {o o' : Options}
    (h : o.maxIterations ≤ o'.maxIterations) (cs : List Constraint) :
    Truncated (s.solve o cs) (s.solve o' cs) := by
  have hstart : Progress.Cut ⟨s.constrain cs, .ofOptions o⟩ ⟨s.constrain cs, .ofOptions o'⟩ :=
    ⟨rfl, rfl, h⟩
  have hrun := (Solving.truncating_constraints cs).2 _ _ hstart
  have hwalks := Solving.walks_constraints cs ⟨s.constrain cs, .ofOptions o⟩
  have hunstopped : (s.constrain cs).Unstopped := by
    simp [Unstopped, constrain, hfailures]
  have hcovers : (s.constrain cs).Covers cs := fun k hk v hv => mem_constrained hk hv
  unfold Solving.Ends at hwalks
  unfold solve
  cases hp : Solving.constraints cs ⟨s.constrain cs, .ofOptions o⟩ with
  | ok x p =>
    rw [hp] at hrun hwalks
    cases hq : Solving.constraints cs ⟨s.constrain cs, .ofOptions o'⟩ <;> rw [hq] at hrun
    · dsimp only
      rw [← hrun.1.session]
      exact .same (hwalks.1.unstopped hunstopped)
    · exact hrun.elim
  | error f p =>
    rw [hp] at hrun hwalks
    have hadvances := hwalks.1.advances (hs.constrain cs) hcovers
    have hmore {t : Session} (ht : Steps cs p.session t) :
        p.session.Continues t ∧ p.session.substitution ≤ t.substitution := by
      refine ⟨ht.continues, (ht.advances hadvances.regular fun k hk v hv => ?_).le⟩
      rw [hadvances.constrained]
      exact hcovers k hk v hv
    cases hq : Solving.constraints cs ⟨s.constrain cs, .ofOptions o'⟩ <;> rw [hq] at hrun
    · obtain ⟨hcontinues, hle⟩ := hmore hrun.2
      exact .stopped (hwalks.1.unstopped hunstopped) hrun.1 hcontinues hle
    · obtain ⟨hcontinues, hle⟩ := hmore hrun.2
      exact .stopped (hwalks.1.unstopped hunstopped) hrun.1
        (hcontinues.trans (continues_fail _ _)) hle

/-- Runs are not influenced by a budget that they do not exhaust. One that does
ends with the report of it, and all else that it has found is found with every
larger budget, before anything more. -/
theorem ofOptions_solve_truncated (p : Options) {o o' : Options}
    (h : o.maxIterations ≤ o'.maxIterations) (cs : List Constraint) :
    let x := (ofOptions p).solve o cs
    let y := (ofOptions p).solve o' cs
    ((∀ d ∈ x.diagnostics, d.category ≠ .solverBudget) → y = x) ∧
    ((∃ d ∈ x.diagnostics, d.category = .solverBudget) →
      (∃ ds d, x.diagnostics = ds ++ [d] ∧ d.category = .solverBudget ∧
        (∀ d' ∈ ds, d'.category ≠ .solverBudget) ∧ ds <+: y.diagnostics) ∧
      x.session.trace.toList <+: y.session.trace.toList ∧
      ∀ v t, x.session.substitution.lookup v = some t →
        y.session.substitution.lookup v = some t) := by
  intro x y
  have hxy : Truncated x y := truncated_solve (regular_ofOptions p) rfl h cs
  clear_value x y
  cases hxy with
  | same hs =>
    refine ⟨fun _ => rfl, ?_⟩
    rintro ⟨d, hd, hcategory⟩
    exact absurd hcategory (hs.category_ne d hd)
  | stopped hs hf hcontinues hle =>
    rw [diagnostics_fail]
    constructor
    · intro hnone
      exact absurd hf (hnone _ List.mem_concat_self)
    · intro _
      exact ⟨⟨_, _, rfl, hf, hs.category_ne, hcontinues.failures.map _⟩, hcontinues.trace, hle⟩

/-- The last of three equations is refused. The binding that the first made is
also found if all three are admitted, and the failure of the second comes first. -/
theorem ofOptions_solve_truncated_third :
    let n : NodeId := ⟨0⟩
    let eqn (s t : Ty) : Constraint := .equal ⟨s, t, n, .exprType⟩
    let cs : List Constraint :=
      [eqn (.var ⟨0⟩) (.int n), eqn (.var ⟨0⟩) (.string n), eqn (.var ⟨1⟩) (.bool n)]
    let o : Options := { maxIterations := 2, tracing := true }
    let o' : Options := { maxIterations := 3, tracing := true }
    let x := (ofOptions o).solve o cs
    let y := (ofOptions o).solve o' cs
    o.maxIterations ≤ o'.maxIterations ∧ (∃ d ∈ x.diagnostics, d.category = .solverBudget) ∧
    y.session.substitution.lookup ⟨0⟩ = some (.int n) ∧
    x.session.trace.toList <+: y.session.trace.toList := by
  intro n eqn cs o o' x y
  have hstopped : ∃ d ∈ x.diagnostics, d.category = .solverBudget := by
    have hcategories : x.failures.map (·.category) = [.typeMismatch, .solverBudget] := by cbv
    have hmem : Category.solverBudget ∈ x.failures.map (·.category) := by
      rw [hcategories]
      decide
    obtain ⟨f, hf, hcategory⟩ := List.mem_map.mp hmem
    exact ⟨_, List.mem_map_of_mem hf, hcategory⟩
  have hle : o.maxIterations ≤ o'.maxIterations := by decide
  obtain ⟨_, htrace, hlookup⟩ := (ofOptions_solve_truncated o hle cs).2 hstopped
  exact ⟨hle, hstopped, hlookup ⟨0⟩ (.int n) (by cbv), htrace⟩

end Session

end PlusCalTyping
