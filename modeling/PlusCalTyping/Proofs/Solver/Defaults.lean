import PlusCalTyping.Proofs.Solver.Soundness

/-! # Defaults lose no solution

Deciding a choice by default can lose solutions in general. It cannot where
every choice is between the integers and another primitive type for a single
variable, and where all equations have been tried and no choice is forced. Then
every such variable still stands for an unbound one, and a solution remains one
when the integers are put for the unbound variable of the first choice
(`exists_decides_int`). So constraints of this kind that have a solution are
solved, unless the budget runs out (`ofOptions_solve_of_satisfiable`).
-/

namespace PlusCalTyping

/-- The choice is between the integers and some other primitive type for one
variable, in this order. -/
def Choice.IsIntOr (c : Choice) (v : TypeVar) (q : Prim) : Prop :=
  q ≠ .int ∧ ∃ o o' p p',
    c.candidates = [[⟨.var v, .prim .int o, p⟩], [⟨.var v, .prim q o', p'⟩]]

theorem Valuation.solves_prim_iff {θ : Valuation} {v : TypeVar} {r : Prim} {o : Origins}
    {p : Provenance} : θ.Solves ⟨.var v, .prim r o, p⟩ ↔ (θ v).agrees (.prim r .none) :=
  Ty.agrees_congr (Ty.agrees_refl _) (decide_eq_true rfl)

namespace Choice

variable {c : Choice} {v : TypeVar} {q : Prim}

theorem IsIntOr.decides_iff (h : c.IsIntOr v q) {θ : Valuation} :
    θ.Decides c ↔ (θ v).agrees (.prim .int .none) ∨ (θ v).agrees (.prim q .none) := by
  obtain ⟨_, o, o', p, p', hc⟩ := h
  rw [Valuation.Decides, hc]
  simp only [List.mem_cons, List.not_mem_nil, or_false, exists_eq_or_imp, exists_eq_left,
    forall_eq]
  exact or_congr Valuation.solves_prim_iff Valuation.solves_prim_iff

theorem IsIntOr.unique (h : c.IsIntOr v q) {w : TypeVar} {r : Prim} (h' : c.IsIntOr w r) :
    v = w ∧ q = r := by
  obtain ⟨_, o, o', p, p', hc⟩ := h
  obtain ⟨_, _, _, _, _, hc'⟩ := h'
  rw [hc] at hc'
  cases hc'
  exact ⟨rfl, rfl⟩

theorem IsIntOr.determined (h : c.IsIntOr v q) : c.Determined := by
  obtain ⟨_, o, o', p, p', hc⟩ := h
  rw [Determined, hc]
  simp only [List.forall_mem_cons, List.not_mem_nil, false_imp_iff, implies_true, and_true]
  exact ⟨⟨Ty.determined_var v, Ty.determined_prim _ _⟩,
    ⟨Ty.determined_var v, Ty.determined_prim _ _⟩⟩

end Choice

namespace Valuation

variable {σ : Substitution}

theorem models_comp_value (hσ : σ.Acyclic) (θ : Valuation) :
    Models (fun v => (σ.value v).subst θ) σ := by
  intro v t hv
  rw [← Ty.subst_subst, ← Substitution.apply_eq_subst, ← hσ.value_of_lookup hv]
  exact Ty.agrees_refl _

theorem Models.value_agrees {θ : Valuation} (h : θ.Models σ) (v : TypeVar) :
    ((σ.value v).subst θ).agrees (θ v) := h.apply_agrees (.var v)

end Valuation

namespace Solving

variable {σ : Substitution} {c : Choice} {v : TypeVar} {q : Prim} {p : Progress}

/-- If both types of a choice fit, its variable stands for an unbound one. -/
theorem Undecided.exists_value_eq_var (h : Undecided σ c) (hc : c.IsIntOr v q) :
    ∃ w, σ.value v = .var w := by
  obtain ⟨found, hfound, hlen⟩ := h
  obtain ⟨hq, o, o', p, p', hc⟩ := hc
  rw [hc] at hfound
  have hall : found = [0, 1] := hfound.sublist.eq_of_length_le hlen
  have hallows {j : Nat} {es : List Equation} (hj : j ∈ found)
      (hes : [[⟨.var v, .prim .int o, p⟩], [⟨.var v, .prim q o', p'⟩]][j]? = some es) :
      σ.Allows es := (hfound.mem_iff hes).mp (by rwa [Nat.zero_add])
  obtain ⟨θ, hθ, hint⟩ := hallows (j := 0) (by rw [hall]; decide) rfl
  obtain ⟨θ', hθ', hother⟩ := hallows (j := 1) (by rw [hall]; decide) rfl
  have hint := Ty.agrees_trans (hθ.value_agrees v) (hint _ List.mem_cons_self)
  have hother := Ty.agrees_trans (hθ'.value_agrees v) (hother _ List.mem_cons_self)
  cases ht : σ.value v with
  | var w => exact ⟨w, rfl⟩
  | prim r _ =>
    rw [ht] at hint hother
    have hr : r = .int := of_decide_eq_true hint
    have hr' : r = q := of_decide_eq_true hother
    exact absurd (hr'.symm.trans hr) hq
  | _ =>
    rw [ht] at hint
    cases hint

/-- Where both types of every choice fit, a solution can be changed to take the
integers in one of them. -/
theorem exists_decides_int (hσ : σ.Acyclic) {cs : List Choice}
    (hcs : ∀ c ∈ cs, ∃ v q, c.IsIntOr v q) (hund : ∀ c ∈ cs, Undecided σ c)
    {θ : Valuation} (hθ : θ.Models σ) (hdec : ∀ c ∈ cs, θ.Decides c) (hmem : c ∈ cs)
    (hc : c.IsIntOr v q) :
    ∃ θ' : Valuation, θ'.Models σ ∧ (∀ c ∈ cs, θ'.Decides c) ∧
      (θ' v).agrees (.prim .int .none) := by
  obtain ⟨w, hw⟩ := (hund c hmem).exists_value_eq_var hc
  -- All choices stand for unbound variables, and that of `c` is free to be the integers.
  let θ₀ : Valuation := fun x => if x = w then .prim .int .none else θ x
  refine ⟨fun x => (σ.value x).subst θ₀, Valuation.models_comp_value hσ θ₀, ?_, ?_⟩
  · intro c' hc'
    obtain ⟨v', q', hv'⟩ := hcs c' hc'
    obtain ⟨w', hw'⟩ := (hund c' hc').exists_value_eq_var hv'
    rw [hv'.decides_iff, hw', Ty.subst]
    by_cases h : w' = w
    · simp only [θ₀, if_pos h]
      exact .inl (Ty.agrees_refl _)
    · have hagrees := hθ.value_agrees v'
      rw [hw', Ty.subst] at hagrees
      simp only [θ₀, if_neg h]
      exact (hv'.decides_iff.mp (hdec c' hc')).imp (Ty.agrees_trans hagrees)
        (Ty.agrees_trans hagrees)
  · simp only [hw, Ty.subst, θ₀, if_true]
    exact Ty.agrees_refl _

theorem Viable.eq_zero_of_mem {candidates : List (List Equation)} {i : Nat} {more : List Nat}
    (h : Viable σ 0 candidates (i :: more)) (h0 : 0 ∈ i :: more) : i = 0 := by
  have hsorted := (List.pairwise_lt_range' (s := 0) (n := candidates.length)).sublist h.sublist
  rcases List.mem_cons.mp h0 with h0 | h0
  · exact h0.symm
  · exact absurd (List.rel_of_pairwise_cons hsorted h0) (Nat.not_lt_zero i)

/-- By default the first candidate is taken if it can be. -/
theorem keeps_decideFirst_first (hp : p.session.Coherent) (hc : c.Determined)
    {candidate : List Equation} (h0 : c.candidates[0]? = some candidate) :
    Keeps (fun θ => ∀ e ∈ candidate, θ.Solves e) (decideFirst c) p fun _ _ => True := by
  refine ((tries_viable hc hp).keeps hp).bind fun found q _ hfound => ?_
  obtain ⟨hq, hfound⟩ := hfound
  rw [← hq] at hp hfound
  have hzero {θ : Valuation} (hθ : q.session.Admits θ) (h : ∀ e ∈ candidate, θ.Solves e) :
      0 ∈ found := (hfound.mem_iff h0).mpr ⟨θ, hθ.2, h⟩
  cases found with
  | nil => exact (keeps_exhaust hp c).mono (fun θ hθ h => nomatch hzero hθ h) fun _ _ _ _ => trivial
  | cons i more =>
    obtain ⟨chosen, hi⟩ := hfound.exists_candidate List.mem_cons_self
    refine (keeps_commit hp hc hi .defaultAlternative).mono (fun θ hθ h => ?_)
      fun _ _ _ _ => trivial
    rw [hfound.eq_zero_of_mem (hzero hθ h), h0] at hi
    cases hi
    exact h

/-- A default keeps to some solution where both types of every choice fit. -/
theorem ends_decideFirst {cs : List Choice} (hp : p.session.Coherent)
    (hcs : ∀ c' ∈ c :: cs, ∃ v q, c'.IsIntOr v q)
    (hund : ∀ c' ∈ c :: cs, Undecided p.session.substitution c')
    (h : ∃ θ, p.session.Admits θ ∧ ∀ c' ∈ c :: cs, θ.Decides c') :
    Ends (decideFirst c) p
      (fun _ q => q.session.Coherent ∧ ∃ θ, q.session.Admits θ ∧ ∀ c' ∈ cs, θ.Decides c')
      fun f q => (∃ θ, q.session.Admits θ) ∧ f.OutOfBudget := by
  obtain ⟨θ, hθ, hdec⟩ := h
  obtain ⟨v, r, hc⟩ := hcs c List.mem_cons_self
  obtain ⟨θ', hmodels, hdec', hint⟩ :=
    exists_decides_int hp.acyclic hcs hund hθ.2 hdec List.mem_cons_self hc
  have hθ' : p.session.Admits θ' := ⟨hθ.1, hmodels⟩
  have hdet := hc.determined
  obtain ⟨_, o, o', p₀, p₁, hcands⟩ := hc
  have h0 : c.candidates[0]? = some [⟨.var v, .prim .int o, p₀⟩] := by
    rw [hcands]
    rfl
  have hsolves : ∀ e ∈ [(⟨.var v, .prim .int o, p₀⟩ : Equation)], θ'.Solves e := by
    rw [List.forall_mem_singleton, Valuation.solves_prim_iff]
    exact hint
  refine Ends.mono (keeps_decideFirst_first hp hdet h0) ?_ ?_
  · rintro _ q ⟨hq, _⟩
    exact ⟨hq.coherent, θ', hq.retains θ' hθ' hsolves, (List.forall_mem_cons.mp hdec').2⟩
  · rintro f q ⟨hq, hf⟩
    exact ⟨⟨θ', hq.retains θ' hθ' hsolves⟩, hf⟩

/-- Rounds keep to a solution that there is, though not to every one. -/
theorem ends_rounds {cs : List Choice} (hcs : ∀ c ∈ cs, ∃ v q, c.IsIntOr v q)
    (hp : p.session.Coherent) (h : ∃ θ, p.session.Admits θ ∧ ∀ c ∈ cs, θ.Decides c) :
    Ends (rounds cs) p (fun _ q => ∃ θ, q.session.Admits θ)
      fun f q => (∃ θ, q.session.Admits θ) ∧ f.OutOfBudget := by
  induction hn : cs.length using Nat.strong_induction_on generalizing cs p with
  | _ n ih =>
    subst hn
    obtain ⟨θ, hθ, hdec⟩ := h
    have hdet {cs : List Choice} (hcs : ∀ c ∈ cs, ∃ v q, c.IsIntOr v q) (c) (hc : c ∈ cs) :
        c.Determined := by
      obtain ⟨v, q, h⟩ := hcs c hc
      exact h.determined
    rw [rounds]
    refine ends_bind.mpr (Ends.mono (keeps_pass (hdet hcs) hp) ?_ ?_)
    · rintro ⟨waiting, hlen⟩ q ⟨hq, hw⟩
      have hθ' := hq.retains θ hθ hdec
      have hwaiting : ∀ c ∈ waiting, ∃ v q, c.IsIntOr v q :=
        fun c hc => hcs c (hw.sublist.subset hc)
      have hdec' : ∀ c ∈ waiting, θ.Decides c := fun c hc => hdec c (hw.sublist.subset hc)
      cases waiting with
      | nil => exact ends_pure.mpr ⟨θ, hθ'⟩
      | cons c rest =>
        dsimp only
        split
        · next hlt => exact ih _ hlt hwaiting hq.coherent ⟨θ, hθ', hdec'⟩ rfl
        · next hlt =>
          -- The pass has decided nothing, so both types of every choice fit.
          have heq := Nat.le_antisymm hlen (Nat.not_lt.mp hlt)
          obtain ⟨hsame, hund⟩ := hw.idle heq
          have hall : c :: rest = cs := hw.sublist.eq_of_length heq
          rw [← hsame, ← hall] at hund
          have hfirst := ends_decideFirst hq.coherent hwaiting hund ⟨θ, hθ', hdec'⟩
          refine ends_bind.mpr (hfirst.mono ?_ fun _ _ h => h)
          rintro _ q' ⟨hq', h⟩
          exact ih _ hlen (List.forall_mem_cons.mp hwaiting).2 hq' h rfl
    · rintro f q ⟨hq, hf⟩
      exact ⟨⟨θ, hq.retains θ hθ hdec⟩, hf⟩

theorem ends_constraints {cs : List Constraint} (hdet : ∀ k ∈ cs, k.Determined)
    (hcs : ∀ c ∈ choices cs, ∃ v q, c.IsIntOr v q) (hp : p.session.Coherent)
    (h : ∃ θ, p.session.Admits θ ∧ ∀ k ∈ cs, θ.Satisfies k) :
    Ends (constraints cs) p (fun _ q => ∃ θ, q.session.Admits θ)
      fun f q => (∃ θ, q.session.Admits θ) ∧ f.OutOfBudget := by
  obtain ⟨θ, hθ, h⟩ := h
  obtain ⟨hsolves, hdecides⟩ := satisfies_all_iff.mp h
  refine ends_bind.mpr (Ends.mono (keeps_forM_enforce (determined_equations hdet) hp) ?_ ?_)
  · rintro _ q ⟨hq, _⟩
    exact ends_rounds hcs hq.coherent ⟨θ, hq.retains θ hθ hsolves, hdecides⟩
  · rintro f q ⟨hq, hf⟩
    exact ⟨⟨θ, hq.retains θ hθ hsolves⟩, hf⟩

end Solving

/-- Satisfiable constraints are solved unless the budget runs out. -/
theorem Session.ofOptions_solve_of_satisfiable (o o' : Options) {cs : List Constraint}
    (hdet : ∀ k ∈ cs, k.Determined)
    (hcs : ∀ c, Constraint.oneOf c ∈ cs → ∃ v q, c.IsIntOr v q)
    {θ : Valuation} (hθ : ∀ k ∈ cs, θ.Satisfies k) :
    ((ofOptions o).solve o' cs).failures = [] ∨
      ∃ f, ((ofOptions o).solve o' cs).failures = [f] ∧ f.OutOfBudget := by
  let p : Progress := ⟨(ofOptions o).constrain cs, .ofOptions o'⟩
  have hp : p.session.Coherent := (coherent_ofOptions o).constrain cs
  have h := Solving.ends_constraints hdet (fun c hc => hcs c (Solving.mem_choices_iff.mp hc)) hp
    ⟨θ, admits_ofOptions o, hθ⟩
  unfold Solving.Ends at h
  unfold solve
  split
  · next heq =>
    rw [heq] at h
    obtain ⟨_, hclean, _⟩ := h
    exact .inl (Array.toList_eq_nil_iff.mpr hclean)
  · next f q heq =>
    rw [heq] at h
    obtain ⟨⟨_, hclean, _⟩, hf⟩ := h
    refine .inr ⟨f, ?_, hf⟩
    simp only [Solution.ofSession, fail, hclean, Array.push_empty]

end PlusCalTyping
