import PlusCalTyping.Proofs.Solver.Defaults
import PlusCalTyping.Proofs.Solver.Termination
import PlusCalTyping.Proofs.Solver.Unbudgeted

/-! # Trials of candidates

The equations of a candidate are tried one after the other, each under the
bindings that the earlier ones would make, and the first failure ends the trial.
What a trial finds is nevertheless a property of the candidate as a whole: its
equations have a common solution among the types that the bindings leave open
(`Substitution.fits_iff_allows`, `Substitution.allows_iff`). More bindings leave
fewer solutions, so a candidate that did not fit never fits again
(`Session.viable_exact_antitone`).

A commit repeats its trial and keeps the bindings. It fails nowhere if the
candidate fits, and leaves all its equations solved.
-/

namespace PlusCalTyping

theorem Constraint.Determined.equation {k : Constraint} (hk : k.Determined) {e : Equation}
    (he : e ∈ k.equations) : e.Determined := by
  cases k with
  | equal e' =>
    rw [List.mem_singleton.mp he]
    exact hk
  | oneOf c =>
    obtain ⟨candidate, hcandidate, he⟩ := List.mem_flatten.mp he
    exact hk candidate hcandidate e he

namespace Substitution

variable {σ τ : Substitution} {es : List Equation}

/-- The solutions may as well be sought after all bindings are put in. -/
theorem allows_iff (hσ : σ.Acyclic) :
    σ.Allows es ↔
      ∃ θ : Valuation, ∀ e ∈ es, θ.Unifies (σ.apply e.expected, σ.apply e.actual) := by
  constructor
  · rintro ⟨θ, hθ, h⟩
    exact ⟨θ, fun e he => hθ.unifies_apply_iff.mpr (h e he)⟩
  · rintro ⟨θ, h⟩
    refine ⟨fun v => (σ.value v).subst θ, Valuation.models_comp_value hσ θ, fun e he => ?_⟩
    have hunifies := h e he
    rw [Valuation.Unifies, apply_eq_subst, apply_eq_subst, Ty.subst_subst,
      Ty.subst_subst] at hunifies
    exact hunifies

theorem Allows.mono (h : τ.Allows es) (hle : σ ≤ τ) : σ.Allows es := by
  obtain ⟨θ, hθ, hsolves⟩ := h
  exact ⟨θ, hθ.mono hle, hsolves⟩

theorem Solves.mono {e : Equation} (h : σ.Solves e) (hτ : τ.Acyclic) (hle : σ ≤ τ) :
    τ.Solves e := by
  have hmodels : Valuation.Models τ.value σ := (Valuation.models_value hτ).mono hle
  rw [← solves_value_iff]
  exact hmodels.unifies_apply_iff.mp (Ty.subst_agrees h)

theorem allows_of_solves (hσ : σ.Acyclic) (h : ∀ e ∈ es, σ.Solves e) : σ.Allows es :=
  ⟨σ.value, Valuation.models_value hσ, fun e he => solves_value_iff.mpr (h e he)⟩

theorem fits_cons {e : Equation} :
    σ.fits (e :: es) ↔
      Unify.succeeded (σ.unify e.expected e.actual) ∧
        (Unify.extend σ (σ.unify e.expected e.actual)).fits es := by
  rw [fits, Bool.and_eq_true]

/-- Equations that are tried in turn fit if they have a common solution. -/
theorem fits_iff_allows (hes : ∀ e ∈ es, e.Determined) (hσ : σ.Acyclic) (hdet : σ.Determined) :
    σ.fits es ↔ σ.Allows es := by
  -- A budget for all equations lets the trial come to its end.
  let b : Budget := { limit := es.length, traceLimit := 0 }
  obtain ⟨fit, hspends⟩ := Solving.exists_spends_fits σ es default
  obtain ⟨b', hrun, _⟩ := hspends b (Nat.le_of_eq (Nat.zero_add _))
  have hyields := Solving.yields_fits σ es default b
  have htries := Solving.tries_fits hes hσ hdet ⟨default, b⟩
  unfold Solving.Tries at htries
  unfold Solving.Ends at hyields htries
  rw [hrun] at hyields htries
  rw [← hyields.1]
  exact htries.2

theorem sublist_viable (i : Nat) (candidates : List (List Equation)) :
    (σ.viable i candidates).Sublist (List.range' i candidates.length) := by
  induction candidates generalizing i with
  | nil => exact .slnil
  | cons es rest ih =>
    rw [viable, List.length_cons, List.range'_succ]
    split
    · exact (ih (i + 1)).cons_cons i
    · exact (ih (i + 1)).cons i

theorem mem_viable_iff {i j : Nat} {candidates : List (List Equation)} :
    j ∈ σ.viable i candidates ↔ ∃ k es, j = i + k ∧ candidates[k]? = some es ∧ σ.fits es := by
  induction candidates generalizing i with
  | nil => simp [viable]
  | cons es rest ih =>
    have hsplit : j ∈ σ.viable i (es :: rest) ↔
        (j = i ∧ σ.fits es) ∨ j ∈ σ.viable (i + 1) rest := by
      rw [viable]
      split
      · next h => simp only [List.mem_cons, h, and_true]
      · next h => exact (or_iff_right fun hj => h hj.2).symm
    rw [hsplit, ih]
    constructor
    · rintro (⟨rfl, h⟩ | ⟨k, es', rfl, hk, h⟩)
      · exact ⟨0, es, rfl, rfl, h⟩
      · exact ⟨k + 1, es', by omega, hk, h⟩
    · rintro ⟨k, es', rfl, hk, h⟩
      cases k with
      | zero =>
        cases hk
        exact .inl ⟨rfl, h⟩
      | succ k => exact .inr ⟨k, es', by omega, hk, h⟩

end Substitution

theorem Solving.eq_of_viable {c : Choice} {p q : Progress} {found : List Nat}
    (h : viable c p = .ok found q) : q.session = p.session ∧ found = p.session.viable c := by
  have hyields := yields_viable c p.session p.budget
  unfold Ends at hyields
  rw [h] at hyields
  exact ⟨hyields.2, hyields.1⟩

namespace Session

variable {s t u : Session} {c : Choice} {i : Nat} {es : List Equation}

/-! ## What is found -/

theorem mem_viable_iff :
    i ∈ s.viable c ↔ ∃ es, c.candidates[i]? = some es ∧ s.substitution.fits es := by
  rw [viable, Substitution.mem_viable_iff]
  constructor
  · rintro ⟨k, es, rfl, h⟩
    rw [Nat.zero_add]
    exact ⟨es, h⟩
  · rintro ⟨es, h⟩
    exact ⟨i, es, (Nat.zero_add i).symm, h⟩

theorem pairwise_viable (s : Session) (c : Choice) : (s.viable c).Pairwise (· < ·) :=
  (List.pairwise_lt_range' (s := 0)).sublist (Substitution.sublist_viable 0 c.candidates)

theorem mem_viable_of_eq_cons {more : List Nat} (h : s.viable c = i :: more) :
    i ∈ s.viable c := by
  rw [h]
  exact List.mem_cons_self

theorem le_of_mem_viable {more : List Nat} (h : s.viable c = i :: more) :
    ∀ j ∈ s.viable c, i ≤ j := by
  have hsorted := s.pairwise_viable c
  rw [h] at hsorted ⊢
  exact List.forall_mem_cons.mpr
    ⟨Nat.le_refl i, fun j hj => Nat.le_of_lt (List.rel_of_pairwise_cons hsorted hj)⟩

/-- The candidates found are those that some solution of the bindings solves. -/
theorem Coherent.mem_viable_iff (hs : s.Coherent) (hc : c.Determined) :
    i ∈ s.viable c ↔ ∃ es, c.candidates[i]? = some es ∧ s.substitution.Allows es := by
  rw [Session.mem_viable_iff]
  refine exists_congr fun es => and_congr_right fun hi => ?_
  exact Substitution.fits_iff_allows (hc es (List.mem_of_getElem? hi)) hs.acyclic hs.determined

theorem Coherent.viable_subset (hs : s.Coherent) (ht : t.Coherent)
    (hle : s.substitution ≤ t.substitution) (hc : c.Determined) : t.viable c ⊆ s.viable c := by
  intro i hi
  obtain ⟨es, hes, hallows⟩ := (ht.mem_viable_iff hc).mp hi
  exact (hs.mem_viable_iff hc).mpr ⟨es, hes, hallows.mono hle⟩

/-- Where all choices have to wait, several candidates of each of them fit. -/
theorem two_le_viable_of_pass {cs : List Choice}
    (h : cs.length ≤ (s.pass cs).1.length) : ∀ c ∈ cs, 2 ≤ (s.viable c).length := by
  induction cs with
  | nil => exact List.forall_mem_nil _
  | cons c cs ih =>
    match hfound : s.viable c with
    | [] =>
      rw [pass_of_exhausted hfound, List.length_cons] at h
      have := length_pass_le (s.reportExhausted c) cs
      omega
    | [i] =>
      rw [pass_of_forced hfound, List.length_cons] at h
      have := length_pass_le (s.commit .commitAlternative c i) cs
      omega
    | i :: j :: more =>
      rw [pass_of_open hfound, List.length_cons, List.length_cons] at h
      refine List.forall_mem_cons.mpr ⟨?_, ih (by omega)⟩
      rw [hfound]
      exact Nat.le_add_left 2 more.length

/-! ## What a commit does -/

theorem failures_unify {e : Equation}
    (h : Unify.succeeded (s.substitution.unify e.expected e.actual)) :
    (s.unify e).failures = s.failures := by
  rw [unify, absorb, Failure.filterMap_ofEvent?_eq_nil_iff.mpr h]
  exact Array.append_empty

theorem failures_foldl_unify (h : s.substitution.fits es) :
    (es.foldl unify s).failures = s.failures := by
  induction es generalizing s with
  | nil => rfl
  | cons e es ih =>
    obtain ⟨he, hes⟩ := Substitution.fits_cons.mp h
    rw [List.foldl_cons, ih hes, failures_unify he]

theorem Coherent.extends_foldl_unify (hs : s.Coherent) (hes : ∀ e ∈ es, e.Determined) :
    s.Extends (es.foldl unify s) := by
  induction es generalizing s with
  | nil => exact hs.extends_refl
  | cons e es ih =>
    obtain ⟨he, hes⟩ := List.forall_mem_cons.mp hes
    have hfirst := hs.extends_unify he
    exact hfirst.trans (ih hfirst.coherent hes)

/-- Equations that fit are solved once they have been tried. -/
theorem Coherent.solves_foldl_unify (hs : s.Coherent) (hes : ∀ e ∈ es, e.Determined)
    (h : s.substitution.fits es) : ∀ e ∈ es, (es.foldl unify s).substitution.Solves e := by
  induction es generalizing s with
  | nil => exact List.forall_mem_nil _
  | cons e es ih =>
    obtain ⟨he, hes⟩ := List.forall_mem_cons.mp hes
    obtain ⟨hsucc, hrest⟩ := Substitution.fits_cons.mp h
    have hfirst := hs.extends_unify he
    have hlast := hfirst.coherent.extends_foldl_unify hes
    refine List.forall_mem_cons.mpr ⟨?_, ih hfirst.coherent hes hrest⟩
    have hvalue : Valuation.Models (s.unify e).substitution.value (s.unify e).substitution :=
      Valuation.models_value hfirst.coherent.acyclic
    have hsolves := (Substitution.models_unify_iff hs.acyclic hs.determined he.1 he.2).mp
      ⟨hsucc, hvalue⟩
    exact (Substitution.solves_value_iff.mp hsolves.2).mono hlast.coherent.acyclic hlast.le

theorem commit_eq (action : UnifyAction) (hi : c.candidates[i]? = some es) :
    s.commit action c i = es.foldl unify (s.log fun _ => [c.commitLine action i es]) := by
  rw [commit, hi]

theorem failures_commit (action : UnifyAction) (h : i ∈ s.viable c) :
    (s.commit action c i).failures = s.failures := by
  obtain ⟨es, hi, hfits⟩ := mem_viable_iff.mp h
  rw [← substitution_log s fun _ => [c.commitLine action i es]] at hfits
  rw [commit_eq action hi, failures_foldl_unify hfits, failures_log]

theorem Coherent.extends_commit (hs : s.Coherent) (hc : c.Determined) (action : UnifyAction)
    (i : Nat) : s.Extends (s.commit action c i) := by
  cases hi : c.candidates[i]? with
  | none =>
    rw [commit, hi]
    exact hs.extends_refl
  | some es =>
    rw [commit_eq action hi]
    have hlog := extends_log hs fun _ => [c.commitLine action i es]
    exact hlog.trans (hlog.coherent.extends_foldl_unify (hc es (List.mem_of_getElem? hi)))

theorem Coherent.solves_commit (hs : s.Coherent) (hc : c.Determined) (action : UnifyAction)
    (h : i ∈ s.viable c) (hi : c.candidates[i]? = some es) :
    ∀ e ∈ es, (s.commit action c i).substitution.Solves e := by
  obtain ⟨_, hi', hfits⟩ := Session.mem_viable_iff.mp h
  cases hi.symm.trans hi'
  rw [← substitution_log s fun _ => [c.commitLine action i es]] at hfits
  rw [commit_eq action hi]
  exact (extends_log hs _).coherent.solves_foldl_unify (hc es (List.mem_of_getElem? hi)) hfits

/-! ## Later states -/

/-- A change of a session, between lists of constraints or in the course of one.
Nothing in the lists is marked as impossible to determine. -/
inductive Moves : Session → Session → Prop
  | constrain {s : Session} {cs : List Constraint} (hcs : ∀ k ∈ cs, k.Determined) :
    Moves s (s.constrain cs)
  | step {s t : Session} {cs : List Constraint} (hcs : ∀ k ∈ cs, k.Determined)
    (h : Step cs s t) : Moves s t
  | handOver {s : Session} : Moves s { s with failures := #[] }

def Later : Session → Session → Prop := Relation.ReflTransGen Moves

theorem Step.extends {cs : List Constraint} (h : Step cs s t) (hcs : ∀ k ∈ cs, k.Determined)
    (hs : s.Coherent) : s.Extends t := by
  cases h with
  | unify he =>
    obtain ⟨k, hk, he⟩ := he
    exact hs.extends_unify ((hcs k hk).equation he)
  | decide => exact extends_log hs _
  | exhaust => exact extends_reportExhausted hs _

theorem Steps.extends {cs : List Constraint} (h : Steps cs s t) (hcs : ∀ k ∈ cs, k.Determined)
    (hs : s.Coherent) : s.Extends t := by
  induction h with
  | refl => exact hs.extends_refl
  | tail _ hlast ih => exact ih.trans (hlast.extends hcs ih.coherent)

theorem Moves.coherent_le (h : s.Moves t) (hs : s.Coherent) :
    t.Coherent ∧ s.substitution ≤ t.substitution := by
  cases h with
  | constrain => exact ⟨hs.constrain _, Substitution.le_refl _⟩
  | step hcs h =>
    have hext := h.extends hcs hs
    exact ⟨hext.coherent, hext.le⟩
  | handOver => exact ⟨⟨hs.acyclic, hs.determined⟩, Substitution.le_refl _⟩

theorem Later.coherent_le (h : s.Later t) (hs : s.Coherent) :
    t.Coherent ∧ s.substitution ≤ t.substitution := by
  induction h with
  | refl => exact ⟨hs, Substitution.le_refl _⟩
  | tail _ hlast ih =>
    obtain ⟨hcoherent, hle⟩ := hlast.coherent_le ih.1
    exact ⟨hcoherent, Substitution.le_trans ih.2 hle⟩

theorem Steps.later {cs : List Constraint} (hcs : ∀ k ∈ cs, k.Determined) (h : Steps cs s t) :
    s.Later t := Relation.ReflTransGen.mono (fun _ _ hstep => .step hcs hstep) _ _ h

/-- The session that a call leaves comes later, and so do those on the way. -/
theorem later_answer (s : Session) {call : Call} (h : call.Determined) :
    s.Later (s.answer call).session := by
  have hwalks := Solving.walks_constraints call.constraints
    ⟨s.constrain call.constraints, .ofOptions call.options⟩
  unfold Solving.Ends at hwalks
  have hfirst : s.Later (s.constrain call.constraints) := .single (.constrain h)
  unfold answer solve
  split <;> next heq =>
    rw [heq] at hwalks
    exact (hfirst.trans (hwalks.1.later h)).tail .handOver

theorem later_after (s : Session) {calls : List Call} (h : ∀ c ∈ calls, c.Determined) :
    s.Later (s.after calls) := by
  induction calls generalizing s with
  | nil => exact .refl
  | cons c calls ih =>
    obtain ⟨hc, hcalls⟩ := List.forall_mem_cons.mp h
    exact (s.later_answer hc).trans (ih _ hcalls)

/-- In every state that a session comes to, trials end unless the budget is too
small. They find the candidates whose equations have a common solution under the
bindings, in ascending order; and what is found in a later state was found
before. -/
theorem viable_exact_antitone (o : Options) (hs : (ofOptions o).Later s) (ht : s.Later t)
    (hc : c.Determined) :
    (∀ b, Solving.Ends (Solving.viable c) ⟨s, b⟩
      (fun found p => p.session = s ∧ found.Pairwise (· < ·) ∧
        ∀ i, i ∈ found ↔ ∃ candidate, c.candidates[i]? = some candidate ∧
          ∃ θ : Valuation, ∀ e ∈ candidate,
            θ.Unifies (s.substitution.apply e.expected, s.substitution.apply e.actual))
      fun f p => p.session = s ∧ f.OutOfBudget ∧ b.limit < b.used + c.cost) ∧
    ∀ b b' found found' p p', Solving.viable c ⟨s, b⟩ = .ok found p →
      Solving.viable c ⟨t, b'⟩ = .ok found' p' → found' ⊆ found := by
  obtain ⟨hs, _⟩ := hs.coherent_le (coherent_ofOptions o)
  obtain ⟨ht, hle⟩ := ht.coherent_le hs
  constructor
  · intro b
    have hyields := Solving.yields_viable c s b
    have htries := Solving.tries_viable (p := ⟨s, b⟩) hc hs
    obtain ⟨found, hspends⟩ := Solving.exists_spends_viable c s
    unfold Solving.Tries at htries
    unfold Solving.Ends at hyields htries ⊢
    cases hrun : Solving.viable c ⟨s, b⟩ with
    | ok found p =>
      rw [hrun] at hyields
      obtain ⟨rfl, hp⟩ := hyields
      refine ⟨hp, s.pairwise_viable c, fun i => (hs.mem_viable_iff hc).trans ?_⟩
      simp only [Substitution.allows_iff hs.acyclic]
    | error f p =>
      rw [hrun] at htries
      refine ⟨htries.1, htries.2, Nat.lt_of_not_le fun hb => ?_⟩
      obtain ⟨_, hok, _⟩ := hspends b hb
      rw [hrun] at hok
      cases hok
  · intro b b' found found' p p' hfound hfound'
    rw [(Solving.eq_of_viable hfound).2, (Solving.eq_of_viable hfound').2]
    exact hs.viable_subset ht hle hc

/-- The equations of the second candidate can be solved one by one, but not
together. The last one is not found any more when another list has decided what
the variable is. -/
theorem viable_exact_antitone_two_calls :
    let n : NodeId := ⟨0⟩
    let v : Ty := .var ⟨0⟩
    let w : Ty := .var ⟨1⟩
    let eqn (s t : Ty) : Equation := ⟨s, t, n, .exprType⟩
    let together := [eqn v (.bool n), eqn v w, eqn w (.int n)]
    let c : Choice := ⟨[[eqn v (.int n)], together, [eqn (.set v .none) (.set (.string n) .none)]],
      n, .identity⟩
    let first : Call := ⟨{}, [.equal (eqn (.var ⟨2⟩) (.set v .none))]⟩
    let second : Call := ⟨{}, [.equal (eqn (.var ⟨2⟩) (.set (.int n) .none))]⟩
    let s := (ofOptions {}).after [first]
    let found (s : Session) : Option (List Nat) :=
      match Solving.viable c ⟨s, .ofOptions {}⟩ with
      | .ok found _ => some found
      | .error _ _ => none
    found s = some [0, 2] ∧ found (s.after [second]) = some [0] ∧
    ¬∃ θ : Valuation, ∀ e ∈ together,
      θ.Unifies (s.substitution.apply e.expected, s.substitution.apply e.actual) := by
  intro n v w eqn together c first second s found
  have hs : (ofOptions {}).Later s := later_after _ (by decide)
  have ht : s.Later (s.after [second]) := later_after _ (by decide)
  obtain ⟨hexact, _⟩ := viable_exact_antitone {} hs ht (c := c) (by decide)
  have hfound : found s = some [0, 2] := by
    simp only [found, s, first, c, together, eqn, v, w, n]
    cbv
  have hlater : found (s.after [second]) = some [0] := by
    simp only [found, s, second, first, c, together, eqn, v, w, n]
    cbv
  refine ⟨hfound, hlater, fun hsolved => ?_⟩
  have hends := hexact (.ofOptions {})
  unfold Solving.Ends at hends
  simp only [found] at hfound
  split at hfound
  · next heq =>
    rw [heq] at hends
    cases hfound
    exact absurd ((hends.2.2 1).mpr ⟨together, rfl, hsolved⟩) (by decide)
  · cases hfound

end Session

end PlusCalTyping
