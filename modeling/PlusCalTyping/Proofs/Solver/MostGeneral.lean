import Mathlib
import PlusCalTyping.Proofs.Solver.Soundness
import PlusCalTyping.Proofs.Solver.Verdicts

/-! # Most general unifiers

Equations alone need one unit of budget each. Within such a budget they are all
tried, so the valuations that a fresh session admits afterwards are the
solutions of the equations: there are none exactly when something has failed,
and every solution factors through the final bindings
(`ofOptions_solve_mostGeneral`).
-/

namespace PlusCalTyping

namespace Solving

variable {α : Type} {m : Solving α} {p : Progress}

theorem Ends.and {done done' : α → Progress → Prop} {stopped stopped' : Failure → Progress → Prop}
    (h : Ends m p done stopped) (h' : Ends m p done' stopped') :
    Ends m p (fun x q => done x q ∧ done' x q) fun f q => stopped f q ∧ stopped' f q := by
  unfold Ends at h h' ⊢
  cases hm : m p with
  | ok x q =>
    rw [hm] at h h'
    exact ⟨h, h'⟩
  | error f q =>
    rw [hm] at h h'
    exact ⟨h, h'⟩

theorem ends_enforce_of_lt {e : Equation} (h : p.budget.used < p.budget.limit) :
    Ends (enforce e) p
      (fun _ q => q.budget.limit = p.budget.limit ∧ q.budget.used = p.budget.used + 1)
      fun _ _ => False := by
  refine ends_bind.mpr ?_
  simp only [Ends, charge, Budget.charge, h, if_true]
  exact ⟨rfl, rfl⟩

theorem ends_forM_enforce {es : List Equation} {p : Progress}
    (h : p.budget.used + es.length ≤ p.budget.limit) :
    Ends (es.forM enforce) p (fun _ _ => True) fun _ _ => False := by
  induction es generalizing p with
  | nil => exact trivial
  | cons e es ih =>
    rw [List.length_cons] at h
    refine ends_bind.mpr ((ends_enforce_of_lt (by omega)).mono ?_ fun _ _ h => h)
    rintro _ q ⟨hlimit, hused⟩
    exact ih (by omega)

/-- Trying equations spends one unit on each, or stops. -/
theorem ends_forM_enforce_spent (es : List Equation) {p : Progress}
    (h : p.budget.used ≤ p.budget.limit) :
    Ends (es.forM enforce) p
      (fun _ q => q.budget.limit = p.budget.limit ∧
        q.budget.used = p.budget.used + es.length ∧ q.budget.used ≤ q.budget.limit)
      fun _ _ => p.budget.limit < p.budget.used + es.length := by
  induction es generalizing p with
  | nil => exact ⟨rfl, rfl, h⟩
  | cons e es ih =>
    rw [List.length_cons]
    by_cases h : p.budget.used < p.budget.limit
    · refine ends_bind.mpr ((ends_enforce_of_lt h).mono ?_ fun _ _ h => h.elim)
      rintro _ q ⟨hlimit, hused⟩
      refine (ih (by omega)).mono ?_ ?_
      · rintro _ q' ⟨hlimit', hused', hle⟩
        omega
      · intro _ _ hlt
        omega
    · refine ends_bind.mpr (ends_bind.mpr ?_)
      simp only [Ends, charge, Budget.charge, h, if_false]
      omega

theorem ends_forM_enforce_admits {es : List Equation} (hes : ∀ e ∈ es, e.Determined)
    (hp : p.session.Coherent) (h : p.budget.used + es.length ≤ p.budget.limit) :
    Ends (es.forM enforce) p
      (fun _ q => q.session.Coherent ∧
        ∀ θ, q.session.Admits θ ↔ p.session.Admits θ ∧ ∀ e ∈ es, θ.Solves e)
      fun _ _ => False := by
  refine ((keeps_forM_enforce hes hp).and (ends_forM_enforce h)).mono ?_ fun _ _ h => h.2
  rintro _ q ⟨⟨hq, hsolves⟩, _⟩
  refine ⟨hq.coherent, fun θ => ⟨fun hθ => ⟨hq.admits hθ, hsolves θ hθ⟩, ?_⟩⟩
  exact fun hθ => hq.retains θ hθ.1 hθ.2

theorem equations_map_equal (es : List Equation) : equations (es.map .equal) = es := by
  rw [equations, List.filterMap_map]
  exact List.filterMap_some

theorem choices_map_equal (es : List Equation) : choices (es.map .equal) = [] := by
  rw [choices, List.filterMap_map, List.filterMap_eq_nil_iff]
  exact fun _ _ => rfl

theorem rounds_nil : rounds [] = pure () := by
  rw [rounds]
  rfl

end Solving

namespace Session

/-- Within the budget, equations leave exactly their solutions. -/
theorem models_solve_iff (o o' : Options) {es : List Equation} (hes : ∀ e ∈ es, e.Determined)
    (hlen : es.length ≤ o'.maxIterations) {x : Solution}
    (hx : x = (ofOptions o).solve o' (es.map .equal)) :
    x.session.Coherent ∧ ∀ θ : Valuation,
      x.failures = [] ∧ θ.Models x.session.substitution ↔ ∀ e ∈ es, θ.Solves e := by
  let p : Progress := ⟨(ofOptions o).constrain (es.map .equal), .ofOptions o'⟩
  have hp : p.session.Coherent := (coherent_ofOptions o).constrain _
  have hbudget : p.budget.used + es.length ≤ p.budget.limit := by
    rw [← Nat.zero_add es.length] at hlen
    exact hlen
  have h := Solving.ends_forM_enforce_admits hes hp hbudget
  have hrun : Solving.constraints (es.map .equal) = es.forM Solving.enforce := by
    rw [Solving.constraints, Solving.equations_map_equal, Solving.choices_map_equal,
      Solving.rounds_nil]
    exact bind_pure _
  subst hx
  unfold Solving.Ends at h
  unfold solve
  rw [hrun]
  split
  · next heq =>
    rw [heq] at h
    obtain ⟨hq, hadmits⟩ := h
    refine ⟨⟨hq.acyclic, hq.determined⟩, fun θ => ?_⟩
    exact (and_congr_left' Array.toList_eq_nil_iff).trans
      ((hadmits θ).trans (and_iff_right (admits_ofOptions o)))
  · next heq =>
    rw [heq] at h
    exact h.elim

/-- Equations are solved without failures exactly when they have a solution,
every solution factors through the final bindings, and a variable is found to
have a type without variables exactly when every solution gives it that type. -/
theorem ofOptions_solve_mostGeneral (o o' : Options) (es : List Equation)
    (hes : ∀ e ∈ es, e.Determined) (hlen : es.length ≤ o'.maxIterations) :
    let x := (ofOptions o).solve o' (es.map .equal)
    (x.failures = [] ↔ ∃ θ : Valuation, ∀ e ∈ es, θ.Solves e) ∧
    (x.failures = [] →
      (∀ θ : Valuation, (∀ e ∈ es, θ.Solves e) →
        ∀ t, ((x.session.substitution.apply t).subst θ).agrees (t.subst θ)) ∧
      ∀ v t, t.vars = [] →
        ((∃ u, x.session.verdict v = .known u ∧ u.agrees t) ↔
          ∀ θ : Valuation, (∀ e ∈ es, θ.Solves e) → (θ v).agrees t)) := by
  intro x
  obtain ⟨hcoherent, hmodels⟩ := models_solve_iff o o' hes hlen (x := x) rfl
  have hfactor (θ : Valuation) (hθ : ∀ e ∈ es, θ.Solves e) (t : Ty) :
      ((x.session.substitution.apply t).subst θ).agrees (t.subst θ) :=
    ((hmodels θ).mpr hθ).2.apply_agrees t
  have hvalue := Valuation.models_value hcoherent.acyclic
  refine ⟨⟨fun hf => ⟨_, (hmodels _).mp ⟨hf, hvalue⟩⟩, fun ⟨θ, hθ⟩ => ((hmodels θ).mpr hθ).1⟩,
    fun hf => ⟨hfactor, fun v t ht => ?_⟩⟩
  constructor
  · rintro ⟨u, hu, hut⟩ θ hθ
    obtain ⟨rfl, hvars⟩ := verdict_eq_known_iff.mp hu
    have hself : (x.session.substitution.apply (.var v)).subst θ =
        x.session.substitution.value v := Ty.subst_eq_self (by
      intro w hw
      rw [Substitution.value] at hvars
      rw [hvars] at hw
      cases hw)
    have := hfactor θ hθ (.var v)
    rw [hself] at this
    exact Ty.agrees_trans (Ty.agrees_symm this) hut
  · intro hall
    have hv := hall _ ((hmodels _).mp ⟨hf, hvalue⟩)
    refine ⟨_, verdict_eq_known_iff.mpr ⟨rfl, ?_⟩, hv⟩
    rw [Ty.vars_eq_of_agrees hv, ht]

/-- A map from the keys of another is a map from integers if the other is. -/
theorem ofOptions_solve_mostGeneral_map :
    let n : NodeId := ⟨0⟩
    let es : List Equation :=
      [⟨.var ⟨2⟩, .map (.var ⟨0⟩) (.var ⟨1⟩) .none, n, .exprType⟩,
        ⟨.map (.int n) (.set (.var ⟨0⟩) .none) .none, .var ⟨2⟩, n, .exprType⟩]
    (∀ e ∈ es, e.Determined) ∧ es.length ≤ 2 ∧
    ∀ θ : Valuation, (∀ e ∈ es, θ.Solves e) → (θ ⟨1⟩).agrees (.set (.int n) .none) := by
  intro n es
  have hes : ∀ e ∈ es, e.Determined := by decide
  refine ⟨hes, Nat.le_refl 2, ?_⟩
  obtain ⟨_, h⟩ := ofOptions_solve_mostGeneral {} { maxIterations := 2 } es hes (Nat.le_refl 2)
  exact ((h (by cbv)).2 ⟨1⟩ _ rfl).mp ⟨.set (.int n) .none, by cbv, rfl⟩

end Session

end PlusCalTyping
