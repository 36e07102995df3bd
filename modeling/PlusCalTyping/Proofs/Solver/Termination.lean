import PlusCalTyping.Proofs.Solver.Bindings
import PlusCalTyping.Proofs.Solver.MostGeneral

/-! # Solving without a budget

No part of a run needs the budget to come to an end. Every round leaves fewer
choices waiting (`ends_round`), and each choice is tried at most twice
in a round, so the number of equations that a run tries is bounded by its
constraints alone (`exists_spends_constraints`). A budget that allows so many
never stops the run, and makes no difference to it. Between the equations, the
evaluation of types, the occurs check and the recursion of unification end
under every substitution that unification has made, whether it succeeded or not
(`ends_without_budget`).
-/

namespace PlusCalTyping

/-- The number of equations in all candidates. -/
def Choice.cost (c : Choice) : Nat := c.candidates.flatten.length

namespace Solving

/-! ## Rounds -/

/-- One round: a pass, and a decision if the pass decides nothing. The choices
that still wait are returned. -/
def round (pending : List Choice) : Solving (List Choice) := do
  match ← pass pending with
  | ⟨[], _⟩ => return []
  | ⟨c :: rest, _⟩ =>
    if (c :: rest).length < pending.length then return c :: rest
    else
      decideFirst c
      return rest

theorem rounds_eq_round_bind (pending : List Choice) :
    rounds pending = round pending >>= rounds := by
  rw [rounds, round, bind_assoc]
  congr 1
  funext w
  obtain ⟨waiting, hlen⟩ := w
  cases waiting with
  | nil => rw [pure_bind, rounds_nil]
  | cons c rest =>
    dsimp only
    split
    · rw [pure_bind]
    · rw [bind_assoc]
      rfl

/-- Every round decides some choice, or the budget stops it. -/
theorem ends_round {pending : List Choice} (h : pending ≠ []) (p : Progress) :
    Ends (round pending) p (fun waiting _ => waiting.length < pending.length)
      fun f _ => f.OutOfBudget := by
  have hpending : ∀ c ∈ pending, Constraint.oneOf c ∈ pending.map .oneOf :=
    fun c hc => List.mem_map_of_mem hc
  have hpass := walks_pass hpending p
  refine ends_bind.mpr (hpass.mono ?_ fun _ _ h => h.2)
  rintro ⟨waiting, hlen⟩ q _
  cases waiting with
  | nil => exact List.length_pos_iff.mpr h
  | cons c rest =>
    dsimp only
    split
    · assumption
    · have hc : Constraint.oneOf c ∈ [.oneOf c] := List.mem_cons_self
      have hfirst := walks_decideFirst hc q
      exact ends_bind.mpr (hfirst.mono (fun _ _ _ => hlen) fun _ _ h => h.2)

/-! ## What a part spends -/

variable {α β : Type} {m : Solving α} {g : α → Solving β} {s t u : Session} {n k : Nat} {x : α}
  {y : β}

/-- A part comes to its end wherever the budget allows so many equations more,
and what it does is then the same for all budgets. -/
def Spends (m : Solving α) (s : Session) (n : Nat) (x : α) (t : Session) : Prop :=
  ∀ b : Budget, b.used + n ≤ b.limit →
    ∃ b', m ⟨s, b⟩ = .ok x ⟨t, b'⟩ ∧ b'.limit = b.limit ∧ b'.used ≤ b.used + n

theorem spends_pure (x : α) (s : Session) (n : Nat) : Spends (pure x) s n x s :=
  fun b _ => ⟨b, rfl, rfl, Nat.le_add_right _ n⟩

theorem Spends.bind (h : Spends m s n x t) (hg : Spends (g x) t k y u) {l : Nat}
    (hl : n + k ≤ l) : Spends (m >>= g) s l y u := by
  intro b hb
  obtain ⟨b', hm, hlimit, hused⟩ := h b (by omega)
  obtain ⟨b'', hgx, hlimit', hused'⟩ := hg b' (by omega)
  refine ⟨b'', ?_, hlimit'.trans hlimit, by omega⟩
  simp only [Bind.bind, EStateM.bind, hm]
  exact hgx

/-- Nothing is spent on what is made of a result. -/
theorem Spends.bind_pure (h : Spends m s n x t) (hg : g x = pure y) :
    Spends (m >>= g) s n y t := by
  refine h.bind (k := 0) ?_ (Nat.le_refl n)
  rw [hg]
  exact spends_pure y t 0

theorem spends_charge (e : Equation) (s : Session) : Spends (charge e) s 1 () s := by
  intro b hb
  have hlt : b.used < b.limit := hb
  refine ⟨{ b.note e with used := b.used + 1 }, ?_, rfl, Nat.le_refl _⟩
  simp only [charge, Budget.charge, hlt, if_true]

theorem spends_change (f : Session → Session) (s : Session) : Spends (change f) s 0 () (f s) :=
  fun b _ => ⟨b, rfl, rfl, Nat.le_refl _⟩

theorem spends_enforce (e : Equation) (s : Session) : Spends (enforce e) s 1 () (s.unify e) :=
  (spends_charge e s).bind (spends_change _ s) (Nat.le_refl 1)

theorem spends_forM_enforce (es : List Equation) (s : Session) :
    Spends (es.forM enforce) s es.length () (es.foldl Session.unify s) := by
  induction es generalizing s with
  | nil => exact spends_pure () s 0
  | cons e es ih =>
    have hl : 1 + es.length ≤ (e :: es).length := by
      rw [List.length_cons]
      omega
    exact (spends_enforce e s).bind (g := fun _ => es.forM enforce) (ih (s.unify e)) hl

theorem exists_spends_fits (σ : Substitution) (es : List Equation) (s : Session) :
    ∃ fit, Spends (fits σ es) s es.length fit s := by
  induction es generalizing σ with
  | nil => exact ⟨true, spends_pure true s 0⟩
  | cons e es ih =>
    have hl : 1 + es.length ≤ (e :: es).length := by
      rw [List.length_cons]
      omega
    rw [fits]
    by_cases h : Unify.succeeded (σ.unify e.expected e.actual)
    · obtain ⟨fit, hfit⟩ := ih (Unify.extend σ (σ.unify e.expected e.actual))
      refine ⟨fit, (spends_charge e s).bind ?_ hl⟩
      rwa [if_pos h]
    · refine ⟨false, (spends_charge e s).bind ?_ hl⟩
      rw [if_neg h]
      exact spends_pure false s _

theorem exists_spends_viableFrom (σ : Substitution) (i : Nat) (candidates : List (List Equation))
    (s : Session) :
    ∃ found, Spends (viableFrom σ i candidates) s candidates.flatten.length found s := by
  induction candidates generalizing i with
  | nil => exact ⟨[], spends_pure [] s 0⟩
  | cons es rest ih =>
    obtain ⟨fit, hfit⟩ := exists_spends_fits σ es s
    obtain ⟨later, hlater⟩ := ih (i + 1)
    rw [viableFrom, List.flatten_cons, List.length_append]
    refine ⟨if fit then i :: later else later, hfit.bind ?_ (Nat.le_refl _)⟩
    exact hlater.bind_pure rfl

theorem exists_spends_viable (c : Choice) (s : Session) :
    ∃ found, Spends (viable c) s c.cost found s :=
  exists_spends_viableFrom s.substitution 0 c.candidates s

theorem exists_spends_commit (action : UnifyAction) (c : Choice) (i : Nat) (s : Session) :
    ∃ t, Spends (commit action c i) s c.cost () t := by
  unfold commit
  cases hi : c.candidates[i]? with
  | none => exact ⟨s, spends_pure () s _⟩
  | some candidate =>
    have hl : 0 + candidate.length ≤ c.cost := by
      rw [Nat.zero_add]
      exact (List.sublist_flatten_of_mem (List.mem_of_getElem? hi)).length_le
    exact ⟨_, (spends_change _ s).bind (spends_forM_enforce candidate _) hl⟩

theorem spends_exhaust (c : Choice) (s : Session) :
    Spends (exhaust c) s 0 () (s.reportExhausted c) := spends_change _ s

theorem exists_spends_decideFirst (c : Choice) (s : Session) :
    ∃ t, Spends (decideFirst c) s (2 * c.cost) () t := by
  obtain ⟨found, hfound⟩ := exists_spends_viable c s
  cases found with
  | nil => exact ⟨_, hfound.bind (spends_exhaust c s) (by omega)⟩
  | cons i more =>
    obtain ⟨t, hcommit⟩ := exists_spends_commit .defaultAlternative c i s
    exact ⟨t, hfound.bind hcommit (by omega)⟩

/-- The number of equations in all candidates of the choices. -/
def totalCost (cs : List Choice) : Nat := (cs.map Choice.cost).sum

theorem totalCost_cons (c : Choice) (cs : List Choice) :
    totalCost (c :: cs) = c.cost + totalCost cs := by
  rw [totalCost, List.map_cons, List.sum_cons, totalCost]

/-- A pass tries every choice once, and commits to those that do not wait. -/
theorem exists_spends_pass (cs : List Choice) (s : Session) :
    ∃ w t n, totalCost w.val ≤ totalCost cs ∧ n + totalCost w.val ≤ 2 * totalCost cs ∧
      Spends (pass cs) s n w t := by
  induction cs generalizing s with
  | nil =>
    exact ⟨⟨[], Nat.le_refl 0⟩, s, 0, Nat.le_refl _, Nat.zero_le _, spends_pure _ s 0⟩
  | cons c cs ih =>
    obtain ⟨found, hfound⟩ := exists_spends_viable c s
    rw [totalCost_cons]
    match found, hfound with
    | [], hfound =>
      obtain ⟨⟨w, hw⟩, t, n, hle, hn, hpass⟩ := ih (s.reportExhausted c)
      dsimp only at hle hn
      refine ⟨⟨w, Nat.le_succ_of_le hw⟩, t, c.cost + n, by dsimp only; omega, by dsimp only; omega,
        hfound.bind (k := n) ?_ (Nat.le_refl _)⟩
      refine (spends_exhaust c s).bind (k := n) ?_ (Nat.le_of_eq (Nat.zero_add n))
      exact hpass.bind_pure rfl
    | [i], hfound =>
      obtain ⟨t', hcommit⟩ := exists_spends_commit .commitAlternative c i s
      obtain ⟨⟨w, hw⟩, t, n, hle, hn, hpass⟩ := ih t'
      dsimp only at hle hn
      refine ⟨⟨w, Nat.le_succ_of_le hw⟩, t, c.cost + (c.cost + n), by dsimp only; omega,
        by dsimp only; omega, hfound.bind (k := c.cost + n) ?_ (Nat.le_refl _)⟩
      refine hcommit.bind (k := n) ?_ (Nat.le_refl _)
      exact hpass.bind_pure rfl
    | _ :: _ :: _, hfound =>
      obtain ⟨⟨w, hw⟩, t, n, hle, hn, hpass⟩ := ih s
      dsimp only at hle hn
      refine ⟨⟨c :: w, Nat.succ_le_succ hw⟩, t, c.cost + n, ?_, ?_,
        hfound.bind (k := n) ?_ (Nat.le_refl _)⟩
      · rw [totalCost_cons]
        omega
      · rw [totalCost_cons]
        omega
      · exact hpass.bind_pure rfl

/-- What rounds spend on choices at most. -/
def roundsCost (cs : List Choice) : Nat := (2 * cs.length + 1) * totalCost cs

/-- Fewer choices, and no dearer ones, leave room for trying all once more. -/
theorem roundsCost_le {cs w : List Choice} (hlen : w.length < cs.length)
    (hle : totalCost w ≤ totalCost cs) :
    2 * totalCost cs + roundsCost w ≤ 2 * cs.length * totalCost cs + totalCost w := by
  have hmul : 2 * w.length * totalCost w ≤ 2 * w.length * totalCost cs :=
    Nat.mul_le_mul_left _ hle
  have hround : (2 * w.length + 2) * totalCost cs ≤ 2 * cs.length * totalCost cs :=
    Nat.mul_le_mul_right _ (by omega)
  rw [Nat.add_mul] at hround
  rw [roundsCost, Nat.add_mul, Nat.one_mul]
  omega

/-- What a round spends is made up for by the choices that do not wait any more. -/
theorem exists_spends_round {cs : List Choice} (hcs : cs ≠ []) (s : Session) :
    ∃ w t n, w.length < cs.length ∧ n + roundsCost w ≤ roundsCost cs ∧
      Spends (round cs) s n w t := by
  obtain ⟨⟨waiting, hlen⟩, t, n, hle, hn, hpass⟩ := exists_spends_pass cs s
  dsimp only at hle hn
  have htotal : roundsCost cs = 2 * cs.length * totalCost cs + totalCost cs := by
    rw [roundsCost, Nat.add_mul, Nat.one_mul]
  cases waiting with
  | nil =>
    have hpos : ([] : List Choice).length < cs.length := List.length_pos_iff.mpr hcs
    have := roundsCost_le hpos hle
    exact ⟨[], t, n, hpos, by omega, hpass.bind_pure rfl⟩
  | cons c rest =>
    by_cases hlt : (c :: rest).length < cs.length
    · have := roundsCost_le hlt hle
      exact ⟨c :: rest, t, n, hlt, by omega, hpass.bind_pure (if_pos hlt)⟩
    · obtain ⟨t', hfirst⟩ := exists_spends_decideFirst c t
      refine ⟨rest, t', n + 2 * c.cost, hlen, ?_, hpass.bind (k := 2 * c.cost) ?_ (Nat.le_refl _)⟩
      · rw [totalCost_cons] at hle hn
        have := roundsCost_le hlen (by omega)
        omega
      · dsimp only
        rw [if_neg hlt]
        exact hfirst.bind_pure rfl

theorem exists_spends_rounds (cs : List Choice) (s : Session) :
    ∃ t, Spends (rounds cs) s (roundsCost cs) () t := by
  induction hn : cs.length using Nat.strong_induction_on generalizing cs s with
  | _ n ih =>
    subst hn
    by_cases hcs : cs = []
    · rw [hcs, rounds_nil]
      exact ⟨s, spends_pure () s _⟩
    · obtain ⟨w, t, n, hlt, hcost, hround⟩ := exists_spends_round hcs s
      obtain ⟨t', hrounds⟩ := ih _ hlt w t rfl
      rw [rounds_eq_round_bind]
      exact ⟨t', hround.bind hrounds hcost⟩

/-- The most equations that a run on the constraints tries. -/
def bound (cs : List Constraint) : Nat := (equations cs).length + roundsCost (choices cs)

theorem exists_spends_constraints (cs : List Constraint) (s : Session) :
    ∃ t, Spends (constraints cs) s (bound cs) () t := by
  obtain ⟨t, hrounds⟩ := exists_spends_rounds (choices cs) ((equations cs).foldl Session.unify s)
  exact ⟨t, (spends_forM_enforce (equations cs) s).bind (g := fun _ => rounds (choices cs)) hrounds
    (Nat.le_refl _)⟩

end Solving

/-! ## Whole runs -/

theorem Failure.not_outOfBudget_of_event {p : Provenance} {e : UnifyEvent} {f : Failure}
    (h : Failure.ofEvent? p e = some f) : ¬f.OutOfBudget := by
  unfold Failure.ofEvent? at h
  split at h <;> cases h <;> exact nofun

namespace Session

variable {s t : Session} {cs : List Constraint}

/-- Nothing that has failed is due to the budget. -/
def Unstopped (s : Session) : Prop := ∀ f ∈ s.failures, ¬f.OutOfBudget

theorem Step.unstopped (hs : s.Unstopped) (h : Step cs s t) : t.Unstopped := by
  cases h with
  | unify he =>
    intro f hf
    rcases Array.mem_append.mp hf with hf | hf
    · exact hs f hf
    · obtain ⟨e, _, hfe⟩ := List.mem_filterMap.mp (List.mem_toArray.mp hf)
      exact Failure.not_outOfBudget_of_event hfe
  | decide action hc hi =>
    rw [Unstopped, failures_log]
    exact hs
  | exhaust hc =>
    unfold reportExhausted
    split
    · exact hs
    · intro f hf
      rcases Array.mem_push.mp hf with hf | rfl
      · exact hs f hf
      · exact nofun

theorem Steps.unstopped (hs : s.Unstopped) (h : Steps cs s t) : t.Unstopped := by
  induction h with
  | refl => exact hs
  | tail _ hlast ih => exact hlast.unstopped ih

theorem failures_after (hs : s.failures = #[]) (calls : List Call) :
    (s.after calls).failures = #[] := by
  induction calls generalizing s with
  | nil => exact hs
  | cons c calls ih =>
    refine ih ?_
    dsimp only [answer, solve]
    split <;> rfl

/-- With enough budget, a run is not stopped, and more makes no difference. -/
theorem exists_solution (hs : s.Unstopped) (cs : List Constraint) :
    ∃ x, (∀ f ∈ x.failures, ¬f.OutOfBudget) ∧
      ∀ o : Options, Solving.bound cs ≤ o.maxIterations → s.solve o cs = x := by
  obtain ⟨t, ht⟩ := Solving.exists_spends_constraints cs (s.constrain cs)
  have hrun (o : Options) (ho : Solving.bound cs ≤ o.maxIterations) :
      ∃ b, Solving.constraints cs ⟨s.constrain cs, .ofOptions o⟩ = .ok () ⟨t, b⟩ := by
    obtain ⟨b, hb, _⟩ := ht (.ofOptions o) (by rwa [← Nat.zero_add (Solving.bound cs)] at ho)
    exact ⟨b, hb⟩
  refine ⟨.ofSession t, fun f hf => ?_, fun o ho => ?_⟩
  · have hwalks := Solving.walks_constraints cs
      ⟨s.constrain cs, .ofOptions { maxIterations := Solving.bound cs }⟩
    obtain ⟨b, hb⟩ := hrun { maxIterations := Solving.bound cs } (Nat.le_refl _)
    unfold Solving.Ends at hwalks
    rw [hb] at hwalks
    have hs : (s.constrain cs).Unstopped := hs
    exact hwalks.1.unstopped hs f (Array.mem_toList_iff.mp hf)
  · obtain ⟨b, hb⟩ := hrun o ho
    unfold solve
    rw [hb]

end Session

/-! ## Substitutions that come up -/

namespace Substitution

/-- The second substitution arises from the first by unifications, some of
which may fail. -/
def Reaches : Substitution → Substitution → Prop :=
  Relation.ReflTransGen fun σ τ => ∃ t u, τ = Unify.extend σ (σ.unify t u)

theorem Acyclic.of_reaches {σ τ : Substitution} (hσ : σ.Acyclic) (h : σ.Reaches τ) :
    τ.Acyclic := by
  induction h with
  | refl => exact hσ
  | tail _ hlast ih =>
    obtain ⟨t, u, rfl⟩ := hlast
    exact (ih.extends_unify t u).acyclic ih

end Substitution

namespace Session

theorem Steps.reaches {s t : Session} {cs : List Constraint} (h : Steps cs s t) :
    s.substitution.Reaches t.substitution := by
  induction h with
  | refl => exact .refl
  | tail _ hlast ih =>
    cases hlast with
    | @unify e he => exact ih.tail ⟨e.expected, e.actual, rfl⟩
    | decide action hc hi =>
      rw [substitution_log]
      exact ih
    | exhaust hc =>
      unfold reportExhausted
      split <;> exact ih

/-- In every state that calls lead to, solving needs no budget. Types are
evaluated, occurs checks are made and types are made equal by recursions that
end under all substitutions that come up, every round leaves fewer choices
unless the budget stops it, and a run that is given enough budget, or any more,
is not stopped. -/
theorem ends_without_budget (o : Options) (calls : List Call) :
    let s := (ofOptions o).after calls
    (∀ cs t, Steps cs (s.constrain cs) t → s.substitution.Reaches t.substitution) ∧
    (∀ σ, s.substitution.Reaches σ →
      (∀ t u, σ.Evaluates t u ↔ u = σ.apply t) ∧
      (∀ v t found, σ.Searches v t found ↔ found = decide (v ∈ (σ.apply t).vars)) ∧
      ∀ t u events, Unify.Equates σ t u events ↔ events = σ.unify t u) ∧
    (∀ pending, Solving.rounds pending = Solving.round pending >>= Solving.rounds) ∧
    (∀ pending, pending ≠ [] → ∀ p, Solving.Ends (Solving.round pending) p
      (fun waiting _ => waiting.length < pending.length) fun f _ => f.OutOfBudget) ∧
    ∀ cs, ∃ x, (∀ f ∈ x.failures, ¬f.OutOfBudget) ∧
      ∀ o' : Options, Solving.bound cs ≤ o'.maxIterations → s.solve o' cs = x := by
  intro s
  have hs : s.Regular := (regular_ofOptions o).after calls
  have hunstopped : s.Unstopped := by
    rw [Unstopped, failures_after rfl calls]
    exact nofun
  refine ⟨fun cs t h => h.reaches, fun σ hσ => ?_, Solving.rounds_eq_round_bind,
    fun pending h p => Solving.ends_round h p, exists_solution hunstopped⟩
  have hσ := hs.acyclic.of_reaches hσ
  exact ⟨fun t u => hσ.evaluates_iff, fun v t found => hσ.searches_iff,
    fun t u events => hσ.equates_iff⟩

end Session

end PlusCalTyping
