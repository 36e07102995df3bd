import Mathlib
import PlusCalTyping.Proofs.Solver.Reordering
import PlusCalTyping.Proofs.Solver.Steps
import PlusCalTyping.Proofs.Solver.Unbudgeted

/-! # Runs that take no default

A decision that is forced loses no solution: what an earlier decision of the
same pass has bound respects every solution that is left, so the one candidate
that fits is the one that each of them solves. Only a default can lose some, and
it leaves a line in the trace, which nothing removes (`Steps.guessed`). So a run
whose trace tells of no default has lost none (`ends_rounds_forced`). A trace
makes no difference to anything else, and so this holds as well of a run that
keeps no trace (`ofOptions_solve_forced`).
-/

namespace PlusCalTyping

theorem mem_appendLines {trace : Array UnifyStep} {step : UnifyStep} (h : step ∈ trace)
    (lines : List UnifyLine) : step ∈ appendLines trace lines := by
  induction lines generalizing trace with
  | nil => exact h
  | cons l lines ih => exact ih (Array.mem_push_of_mem _ h)

namespace Session

/-- The trace tells of a choice that was decided by default. -/
def Guessed (s : Session) : Prop := ∃ step ∈ s.trace, step.action = .defaultAlternative

instance (s : Session) : Decidable s.Guessed :=
  decidable_of_iff (∃ step ∈ s.trace.toList, step.action = .defaultAlternative) (by
    simp only [Guessed, Array.mem_toList_iff])

variable {s t : Session} {cs : List Constraint}

@[simp]
theorem tracing_log (s : Session) (lines : String → List UnifyLine) :
    (s.log lines).tracing = s.tracing := by
  unfold log
  split <;> rfl

theorem mem_trace_log {step : UnifyStep} (h : step ∈ s.trace) (lines : String → List UnifyLine) :
    step ∈ (s.log lines).trace := by
  unfold log
  split
  · exact mem_appendLines h _
  · exact h

theorem Step.tracing_eq (h : Step cs s t) : t.tracing = s.tracing := by
  cases h with
  | unify => exact tracing_log s _
  | decide => exact tracing_log s _
  | exhaust =>
    unfold reportExhausted
    split <;> rfl

theorem Step.mem_trace (h : Step cs s t) {step : UnifyStep} (hstep : step ∈ s.trace) :
    step ∈ t.trace := by
  cases h with
  | unify => exact mem_trace_log hstep _
  | decide => exact mem_trace_log hstep _
  | exhaust =>
    unfold reportExhausted
    split <;> exact hstep

theorem Steps.tracing_eq (h : Steps cs s t) : t.tracing = s.tracing := by
  induction h with
  | refl => rfl
  | tail _ hstep ih => exact hstep.tracing_eq.trans ih

/-- What a trace tells is not taken back. -/
theorem Steps.guessed (h : Steps cs s t) (hs : s.Guessed) : t.Guessed := by
  induction h with
  | refl => exact hs
  | tail _ hstep ih =>
    obtain ⟨step, hmem, haction⟩ := ih
    exact ⟨step, hstep.mem_trace hmem, haction⟩

theorem guessed_log (hs : s.tracing) (c : Choice) (i : Nat) (candidate : List Equation) :
    (s.log fun _ => [c.commitLine .defaultAlternative i candidate]).Guessed := by
  rw [log, if_pos hs]
  exact ⟨_, Array.mem_push_self, rfl⟩

end Session

namespace Solving

variable {σ : Substitution} {cs : List Constraint} {c : Choice} {p : Progress}

theorem Undecided.ne_nil (h : Undecided σ c) {found : List Nat}
    (hfound : Viable σ 0 c.candidates found) : found ≠ [] := by
  obtain ⟨found', hfound', hlen⟩ := h
  rintro rfl
  obtain ⟨i, hi⟩ := List.exists_mem_of_length_pos (l := found') (by omega)
  obtain ⟨candidate, hcandidate⟩ := hfound'.exists_candidate hi
  rw [← Nat.zero_add i, hfound'.mem_iff hcandidate, ← hfound.mem_iff hcandidate] at hi
  cases hi

/-- The default for a choice that several candidates fit is traced. -/
theorem ends_decideFirst_guessed (hmem : .oneOf c ∈ cs) (hc : c.Determined)
    (hp : p.session.Coherent) (htracing : p.session.tracing)
    (hund : Undecided p.session.substitution c) :
    Ends (decideFirst c) p (fun _ q => q.session.Guessed) fun _ _ => True := by
  refine ends_bind.mpr (Ends.mono (tries_viable hc hp) ?_ fun _ _ _ => trivial)
  rintro found q ⟨hq, hfound⟩
  rw [← hq] at htracing
  cases found with
  | nil => exact absurd rfl (hund.ne_nil hfound)
  | cons i more =>
    obtain ⟨candidate, hi⟩ := hfound.exists_candidate List.mem_cons_self
    simp only [commit, hi]
    let t := q.session.log fun _ => [c.commitLine .defaultAlternative i candidate]
    have hguessed : t.Guessed := Session.guessed_log htracing c i candidate
    have hwalks : Walks cs (candidate.forM enforce) fun _ => True :=
      walks_forM_enforce fun e he =>
        ⟨.oneOf c, hmem, List.mem_flatten.mpr ⟨candidate, List.mem_of_getElem? hi, he⟩⟩
    have hrest : Ends (candidate.forM enforce) ⟨t, q.budget⟩ (fun _ q => q.session.Guessed)
        fun _ _ => True :=
      Ends.mono (hwalks ⟨t, q.budget⟩) (fun _ _ h => h.1.guessed hguessed) fun _ _ _ => trivial
    exact ends_bind.mpr hrest

/-- Rounds that are traced lose no solution unless they take a default. -/
theorem ends_rounds_forced {pending : List Choice} (hmem : ∀ c ∈ pending, .oneOf c ∈ cs)
    (hdet : ∀ c ∈ pending, c.Determined) (hp : p.session.Coherent)
    (htracing : p.session.tracing) :
    Ends (rounds pending) p
      (fun _ q => q.session.Guessed ∨
        p.session.Narrows (fun θ => ∀ c ∈ pending, θ.Decides c) q.session)
      fun _ _ => True := by
  induction hn : pending.length using Nat.strong_induction_on generalizing pending p with
  | _ n ih =>
    subst hn
    rw [rounds]
    refine ends_bind.mpr (Ends.mono ((keeps_pass hdet hp).and (walks_pass hmem p)) ?_
      fun _ _ _ => trivial)
    rintro ⟨waiting, hlen⟩ q ⟨⟨hq, hw⟩, hsteps, hsub⟩
    rw [← hsteps.tracing_eq] at htracing
    have hmem' : ∀ c ∈ waiting, .oneOf c ∈ cs := fun c hc => hmem c (hsub.subset hc)
    have hdet' : ∀ c ∈ waiting, c.Determined := fun c hc => hdet c (hsub.subset hc)
    cases waiting with
    | nil => exact ends_pure.mpr (.inr hq)
    | cons c rest =>
      dsimp only
      split
      · next hlt =>
        refine (ih _ hlt hmem' hdet' hq.coherent htracing rfl).mono ?_ fun _ _ h => h
        refine fun _ q' h => h.imp_right fun hq' => hq.trans (hq'.mono ?_)
        exact fun θ _ h c' hc' => h c' (hsub.subset hc')
      · next hlt =>
        -- The pass has decided nothing, so several candidates fit the first choice.
        have heq := Nat.le_antisymm hlen (Nat.not_lt.mp hlt)
        obtain ⟨hsame, hund⟩ := hw.idle heq
        have hc := hund c (hsub.subset List.mem_cons_self)
        rw [← hsame] at hc
        have hfirst := ends_decideFirst_guessed (hmem' c List.mem_cons_self)
          (hdet' c List.mem_cons_self) hq.coherent htracing hc
        refine ends_bind.mpr (hfirst.mono ?_ fun _ _ h => h)
        intro _ q' hguessed
        have hrest : ∀ c' ∈ rest, .oneOf c' ∈ cs :=
          fun c' hc' => hmem' c' (List.mem_cons_of_mem c hc')
        refine (walks_rounds hrest q').mono ?_ fun _ _ _ => trivial
        exact fun _ q'' h => .inl (h.1.guessed hguessed)

theorem ends_constraints_forced (hcs : ∀ k ∈ cs, k.Determined) (hp : p.session.Coherent)
    (htracing : p.session.tracing) :
    Ends (constraints cs) p
      (fun _ q => q.session.Guessed ∨
        p.session.Narrows (fun θ => ∀ k ∈ cs, θ.Satisfies k) q.session)
      fun _ _ => True := by
  have hwalks : Walks cs ((equations cs).forM enforce) fun _ => True := walks_equations cs
  have hequations := (keeps_forM_enforce (determined_equations hcs) hp).and (hwalks p)
  refine ends_bind.mpr (hequations.mono ?_ fun _ _ _ => trivial)
  rintro _ q ⟨⟨hq, _⟩, hsteps, _⟩
  rw [← hsteps.tracing_eq] at htracing
  refine (ends_rounds_forced (fun c hc => mem_choices_iff.mp hc) (determined_choices hcs)
    hq.coherent htracing).mono ?_ fun _ _ h => h
  refine fun _ q' h => h.imp_right fun hq' => ?_
  refine (hq.mono fun θ _ h => ?_).trans (hq'.mono fun θ _ h => ?_)
  · exact (satisfies_all_iff.mp h).1
  · exact (satisfies_all_iff.mp h).2

end Solving

namespace Session

/-- Every solution respects the bindings of a run that is not stopped and takes
no default, whether it is traced or not. -/
theorem models_solve_of_not_guessed (o o' : Options) {cs : List Constraint}
    (hcs : ∀ k ∈ cs, k.Determined) (hunstopped : ((ofOptions o).solve o' cs).Unstopped)
    (hforced : ¬((ofOptions { o with tracing := true }).solve o' cs).session.Guessed)
    {θ : Valuation} (hθ : ∀ k ∈ cs, θ.Satisfies k) :
    ((ofOptions o).solve o' cs).failures = [] ∧
      θ.Models ((ofOptions o).solve o' cs).session.substitution := by
  let traced : Session := ofOptions { o with tracing := true }
  let p : Progress := ⟨(ofOptions o).constrain cs, .ofOptions o'⟩
  let q : Progress := ⟨traced.constrain cs, .ofOptions o'⟩
  have hq : q.session.Coherent := (coherent_ofOptions _).constrain cs
  have hsame : p.Alike q :=
    ⟨⟨Substitution.acyclic_empty, Substitution.acyclic_empty, Substitution.determined_empty,
      Substitution.determined_empty, fun _ => Iff.rfl⟩, Iff.rfl, rfl, rfl⟩
  have hmirrors := Solving.mirrors_constraints ⟨rfl, _, .refl _, List.forall₂_same.mpr
    fun e _ => .same e⟩ hcs (Solving.satisfies_all_iff.mp hθ).1 hsame
    (fun _ => admits_ofOptions o) (fun _ => admits_ofOptions { o with tracing := true })
    (Nat.zero_le _)
  have hends := Solving.ends_constraints_forced hcs hq rfl
  obtain ⟨p', hp'⟩ := exists_ok_of_unstopped hunstopped
  unfold Solving.Mirrors at hmirrors
  unfold Solving.Ends at hends
  rw [hp'] at hmirrors
  unfold solve at hforced ⊢
  rw [hp']
  cases hq' : Solving.constraints cs q with
  | error f q' =>
    rw [hq'] at hmirrors
    exact hmirrors.elim
  | ok _ q' =>
    rw [hq'] at hmirrors hends hforced
    obtain ⟨halike, _⟩ := hmirrors
    have hadmits := (hends.resolve_left hforced).retains θ
      (admits_ofOptions { o with tracing := true }) hθ
    exact ⟨Array.toList_eq_nil_iff.mpr (halike.clean.mpr hadmits.1),
      (halike.equivalent.models θ).mpr hadmits.2⟩

/-- If the budget suffices and no choice is decided by default, which a traced
run would tell, then constraints are solved without failures exactly when they
have a solution, and every solution factors through the final bindings. -/
theorem ofOptions_solve_forced (o o' : Options) (cs : List Constraint)
    (hcs : ∀ k ∈ cs, k.Determined) (hunstopped : ((ofOptions o).solve o' cs).Unstopped)
    (hforced : ¬((ofOptions { o with tracing := true }).solve o' cs).session.Guessed) :
    let x := (ofOptions o).solve o' cs
    (x.failures = [] ↔ ∃ θ : Valuation, ∀ k ∈ cs, θ.Satisfies k) ∧
    (x.failures = [] → ∀ θ : Valuation, (∀ k ∈ cs, θ.Satisfies k) →
      ∀ t, ((x.session.substitution.apply t).subst θ).agrees (t.subst θ)) := by
  intro x
  have hmodels {θ : Valuation} (hθ : ∀ k ∈ cs, θ.Satisfies k) :=
    models_solve_of_not_guessed o o' hcs hunstopped hforced hθ
  refine ⟨⟨exists_satisfies_of_solved o o' hcs, fun ⟨θ, hθ⟩ => (hmodels hθ).1⟩, ?_⟩
  exact fun _ θ hθ t => (hmodels hθ).2.apply_agrees t

/-- What is known of the first type decides about the second, and that about the
third in the next round. Asking anything else of the third leaves no solution. -/
theorem ofOptions_solve_forced_in_turn :
    let n : NodeId := ⟨0⟩
    let eqn (v : TypeVar) (t : Ty) : Equation := ⟨.var v, t, n, .exprType⟩
    let first : Constraint := .equal (eqn ⟨0⟩ (.string n))
    let second : Constraint :=
      .oneOf ⟨[[eqn ⟨0⟩ (.int n)], [eqn ⟨0⟩ (.string n), eqn ⟨1⟩ (.int n)]], n, .identity⟩
    let third : Constraint :=
      .oneOf ⟨[[eqn ⟨1⟩ (.string n)], [eqn ⟨1⟩ (.int n), eqn ⟨2⟩ (.bool n)]], n, .identity⟩
    let other : Constraint :=
      .oneOf ⟨[[eqn ⟨2⟩ (.int n)], [eqn ⟨2⟩ (.string n)]], n, .identity⟩
    let cs : List Constraint := [third, second, first]
    (∀ k ∈ cs, k.Determined) ∧ ((ofOptions {}).solve {} cs).Unstopped ∧
    ¬((ofOptions { tracing := true }).solve {} cs).session.Guessed ∧
    (∀ θ : Valuation, (∀ k ∈ cs, θ.Satisfies k) → (Ty.bool n).agrees (θ ⟨2⟩)) ∧
    ¬∃ θ : Valuation, ∀ k ∈ other :: cs, θ.Satisfies k := by
  intro n eqn first second third other cs
  have hcs : ∀ k ∈ cs, k.Determined := by decide
  have hunstopped : ((ofOptions {}).solve {} cs).Unstopped := of_decide_eq_true (by cbv)
  have hforced : ¬((ofOptions { tracing := true }).solve {} cs).session.Guessed := by
    subst n eqn first second third other cs
    exact of_decide_eq_true (by cbv)
  have hforced' : ¬((ofOptions { tracing := true }).solve {} (other :: cs)).session.Guessed := by
    subst n eqn first second third other cs
    exact of_decide_eq_true (by cbv)
  obtain ⟨_, hfactor⟩ := ofOptions_solve_forced {} {} cs hcs hunstopped hforced
  have h := ofOptions_solve_forced {} {} (other :: cs) (by decide) (of_decide_eq_true (by cbv))
    hforced'
  refine ⟨hcs, hunstopped, hforced, fun θ hθ => ?_, ?_⟩
  · have hvalue : ((ofOptions {}).solve {} cs).session.substitution.apply (.var ⟨2⟩) =
      .bool n := by cbv
    have hagrees := hfactor (by cbv) θ hθ (.var ⟨2⟩)
    rwa [hvalue] at hagrees
  · rw [← h.1]
    exact of_decide_eq_false (by cbv)

end Session

end PlusCalTyping
