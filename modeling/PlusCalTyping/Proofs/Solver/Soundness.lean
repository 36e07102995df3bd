import PlusCalTyping.Proofs.Solver.Runs

/-! # What a solved list of constraints guarantees

Rounds go on until no choice waits, so a valuation that is admitted in the end
decides every choice. A list of constraints that is solved without failures
therefore holds of every valuation that respects the final bindings
(`Session.Coherent.solved`).
-/

namespace PlusCalTyping

namespace Solving

variable {p : Progress}

theorem keeps_decideFirst (hp : p.session.Coherent) {c : Choice} (hc : c.Determined) :
    Keeps (fun _ => False) (decideFirst c) p fun _ s => ∀ θ, s.Admits θ → θ.Decides c := by
  refine ((tries_viable hc hp).keeps hp).bind fun found q _ hfound => ?_
  obtain ⟨hq, hfound⟩ := hfound
  rw [← hq] at hp hfound
  cases found with
  | nil =>
    refine (keeps_exhaust hp c).mono (fun _ _ h => h) ?_
    exact fun _ _ _ h θ hθ => absurd hθ (h θ)
  | cons i more =>
    obtain ⟨candidate, hi⟩ := hfound.exists_candidate List.mem_cons_self
    refine (keeps_commit hp hc hi .defaultAlternative).mono (fun _ _ h => h.elim) ?_
    exact fun _ _ _ h θ hθ => ⟨candidate, List.mem_of_getElem? hi, h θ hθ⟩

theorem keeps_rounds {cs : List Choice} (hcs : ∀ c ∈ cs, c.Determined)
    (hp : p.session.Coherent) :
    Keeps (fun _ => False) (rounds cs) p
      fun _ s => ∀ θ, s.Admits θ → ∀ c ∈ cs, θ.Decides c := by
  induction hn : cs.length using Nat.strong_induction_on generalizing cs p with
  | _ n ih =>
    subst hn
    rw [rounds]
    have hpass := (keeps_pass hcs hp).asking (fun _ => False) fun _ _ h => h.elim
    refine hpass.bind fun w q hq hw => ?_
    obtain ⟨waiting, hlen⟩ := w
    have hdet : ∀ c ∈ waiting, c.Determined := fun c hc => hcs c (hw.sublist.subset hc)
    cases waiting with
    | nil => exact keeps_pure hq.coherent fun θ hθ c hc => (hw.decided θ hθ c hc).resolve_left nofun
    | cons c rest =>
      -- What waits is decided later, and what does not has been decided by the pass.
      have hdone {s : Session} (hs : q.session.Extends s)
          (h : ∀ θ, s.Admits θ → ∀ c' ∈ c :: rest, θ.Decides c') :
          ∀ θ, s.Admits θ → ∀ c' ∈ cs, θ.Decides c' := by
        intro θ hθ c' hc'
        exact (hw.decided θ (hs.admits hθ) c' hc').elim (h θ hθ c') id
      dsimp only
      split
      · next hlt =>
        refine (ih _ hlt hdet hq.coherent rfl).mono (fun _ _ h => h) ?_
        exact fun _ s hs h => hdone hs.toExtends h
      · obtain ⟨hc, hrest⟩ := List.forall_mem_cons.mp hdet
        refine (keeps_decideFirst hq.coherent hc).bind fun _ q' hq' hfirst => ?_
        refine (ih _ hlen hrest hq'.coherent rfl).mono (fun _ _ h => h) ?_
        intro _ s hs h
        refine hdone (hq'.toExtends.trans hs.toExtends) fun θ hθ => ?_
        exact List.forall_mem_cons.mpr ⟨hfirst θ (hs.admits hθ), h θ hθ⟩

theorem mem_equations_iff {cs : List Constraint} {e : Equation} :
    e ∈ equations cs ↔ .equal e ∈ cs := by
  rw [equations, List.mem_filterMap]
  constructor
  · rintro ⟨k, hk, he⟩
    cases k <;> cases he
    exact hk
  · exact fun h => ⟨_, h, rfl⟩

theorem mem_choices_iff {cs : List Constraint} {c : Choice} :
    c ∈ choices cs ↔ .oneOf c ∈ cs := by
  rw [choices, List.mem_filterMap]
  constructor
  · rintro ⟨k, hk, hc⟩
    cases k <;> cases hc
    exact hk
  · exact fun h => ⟨_, h, rfl⟩

/-- A list of constraints is satisfied when its equations are solved and its
choices are decided. -/
theorem satisfies_all_iff {θ : Valuation} {cs : List Constraint} :
    (∀ k ∈ cs, θ.Satisfies k) ↔
      (∀ e ∈ equations cs, θ.Solves e) ∧ ∀ c ∈ choices cs, θ.Decides c := by
  simp only [mem_equations_iff, mem_choices_iff]
  constructor
  · exact fun h => ⟨fun e he => h _ he, fun c hc => h _ hc⟩
  · rintro ⟨he, hc⟩ k hk
    cases k with
    | equal e => exact he e hk
    | oneOf c => exact hc c hk

variable {cs : List Constraint}

theorem determined_equations (h : ∀ k ∈ cs, k.Determined) : ∀ e ∈ equations cs, e.Determined :=
  fun _ he => h _ (mem_equations_iff.mp he)

theorem determined_choices (h : ∀ k ∈ cs, k.Determined) : ∀ c ∈ choices cs, c.Determined :=
  fun _ hc => h _ (mem_choices_iff.mp hc)

theorem keeps_constraints (hcs : ∀ k ∈ cs, k.Determined) (hp : p.session.Coherent) :
    Keeps (fun _ => False) (constraints cs) p
      fun _ s => ∀ θ, s.Admits θ → ∀ k ∈ cs, θ.Satisfies k := by
  have hequations := (keeps_forM_enforce (determined_equations hcs) hp).asking
    (fun _ => False) fun _ _ h => h.elim
  refine hequations.bind fun _ q hq hsolved => ?_
  refine (keeps_rounds (determined_choices hcs) hq.coherent).mono (fun _ _ h => h) ?_
  intro _ s hs hdecided θ hθ
  exact satisfies_all_iff.mpr ⟨hsolved θ (hs.admits hθ), hdecided θ hθ⟩

end Solving

/-! ## Sessions -/

namespace Session

variable {s : Session} {o : Options} {cs : List Constraint}

/-- What a session knows of a list of constraints that it was given. -/
structure Solved (s : Session) (cs : List Constraint) (x : Solution) : Prop where
  coherent : x.session.Coherent
  le : s.substitution ≤ x.session.substitution
  constrained : x.session.constrained = (s.constrain cs).constrained
  satisfies : x.failures = [] → ∀ θ : Valuation, θ.Models x.session.substitution →
    ∀ k ∈ cs, θ.Satisfies k

theorem Coherent.solved (hs : s.Coherent) (hcs : ∀ k ∈ cs, k.Determined) :
    s.Solved cs (s.solve o cs) := by
  have h := Solving.keeps_constraints (p := ⟨s.constrain cs, .ofOptions o⟩) hcs
    (hs.constrain cs)
  unfold Solving.Keeps Solving.Ends at h
  unfold solve
  split <;> next heq =>
    rw [heq] at h
    obtain ⟨hnarrows, h⟩ := h
    refine ⟨⟨hnarrows.coherent.acyclic, hnarrows.coherent.determined⟩, hnarrows.le,
      hnarrows.constrained, fun hf => ?_⟩
    first
    | exact fun θ hθ => h θ ⟨Array.toList_eq_nil_iff.mp hf, hθ⟩
    | exact absurd (Array.toList_eq_nil_iff.mp hf) Array.push_ne_empty

end Session

end PlusCalTyping
