import PlusCalTyping.Proofs.Solver.Sessions
import PlusCalTyping.Proofs.Solver.Steps
import PlusCalTyping.Proofs.Solver.Verdicts
import PlusCalTyping.Proofs.Unify.Recursion

/-! # The bindings of a session

A binding is made of what stands in constraints: its variable and the variables
of its type are mentioned by a constraint of this or of an earlier list. With
that, and with acyclicity, a session is regular. Every step of a run leaves a
regular session regular and all its bindings in place, whatever the types are
and however the run ends. So the substitution of a session can always be
applied, and a call only adds bindings of unbound variables that some
constraint mentions (`substitution_answer`).
-/

namespace PlusCalTyping

/-! ## Variables of bindings -/

namespace Substitution

variable {σ : Substitution} {P : TypeVar → Prop}

/-- The bound variables and those of their types have a property. -/
def Within (σ : Substitution) (P : TypeVar → Prop) : Prop :=
  ∀ v t, σ.lookup v = some t → P v ∧ ∀ w ∈ t.vars, P w

theorem within_empty : empty.Within P := by
  intro v t h
  rw [lookup_empty] at h
  cases h

theorem Within.bind (h : σ.Within P) {v : TypeVar} {t : Ty} (hv : P v) (ht : ∀ w ∈ t.vars, P w) :
    (σ.bind v t).Within P := by
  intro w u hw
  rw [lookup_bind] at hw
  split at hw
  · next he =>
    cases hw
    exact ⟨he ▸ hv, ht⟩
  · exact h w u hw

theorem Within.apply (h : σ.Within P) {t : Ty} (ht : ∀ w ∈ t.vars, P w) :
    ∀ w ∈ (σ.apply t).vars, P w := by
  have hexpand : ∀ n (t : Ty), (∀ w ∈ t.vars, P w) → ∀ w ∈ (σ.expand n t).vars, P w := by
    intro n
    induction n with
    | zero => exact fun _ ht => ht
    | succ n ih =>
      intro t ht w hw
      rw [expand, Ty.vars_subst, List.mem_flatMap] at hw
      obtain ⟨v, hv, hw⟩ := hw
      rw [Function.comp_apply] at hw
      cases hl : σ.lookup v with
      | none =>
        simp only [hl, Ty.vars, List.mem_singleton] at hw
        exact hw ▸ ht v hv
      | some u =>
        rw [hl] at hw
        exact ih u (h v u hl).2 w hw
  exact hexpand _ t ht

end Substitution

namespace Unify

variable {σ : Substitution} {P : TypeVar → Prop}

theorem pairVars_remaining_subset (s t : Ty) (rest : List (Ty × Ty)) :
    pairVars (remaining rest (.ofPair s t)) ⊆ pairVars ((s, t) :: rest) := by
  have hrest : pairVars rest ⊆ pairVars ((s, t) :: rest) := List.subset_append_right _ _
  have hpair : s.vars ++ t.vars ⊆ pairVars ((s, t) :: rest) := List.subset_append_left _ _
  cases ho : Outcome.ofPair s t with
  | bind v u =>
    obtain ⟨_, _, hu⟩ := bind_mem ho
    intro w hw
    rcases List.mem_append.mp (pairVars_replaceAll_subset v u rest hw) with hw | hw
    · exact hpair (hu hw)
    · exact hrest hw
  | split pairs =>
    rw [remaining, pairVars_append]
    exact List.append_subset.mpr ⟨List.Subset.trans (split_decreases ho).1 hpair, hrest⟩
  | identical | infinite | absorbed | clash => exact hrest

theorem within_extend_run (pairs : List (Ty × Ty)) (h : ∀ w ∈ pairVars pairs, P w) :
    ∀ {σ : Substitution}, σ.Within P → (extend σ (run pairs)).Within P := by
  induction pairs using run.induct with
  | case1 =>
    intro σ hσ
    rw [run]
    exact hσ
  | case2 s t rest o =>
    rename_i ih
    intro σ hσ
    specialize @ih fun w hw => h w (pairVars_remaining_subset s t rest hw)
    rw [run]
    cases ho : Outcome.ofPair s t with
    | bind v u =>
      obtain ⟨_, hv, hu⟩ := bind_mem ho
      have hpair : ∀ w ∈ s.vars ++ t.vars, P w := fun w hw => h w (List.mem_append_left _ hw)
      simp only [o, ho] at ih
      exact ih (hσ.bind (hpair v hv) fun w hw => hpair w (hu hw))
    | split | identical | infinite | absorbed | clash =>
      simp only [o, ho] at ih
      exact ih hσ

end Unify

theorem Substitution.Within.unify {σ : Substitution} {P : TypeVar → Prop} (h : σ.Within P)
    {s t : Ty} (hs : ∀ w ∈ s.vars, P w) (ht : ∀ w ∈ t.vars, P w) :
    (Unify.extend σ (σ.unify s t)).Within P := by
  refine Unify.within_extend_run _ (fun w hw => ?_) h
  obtain ⟨p, hp, hw⟩ := Unify.mem_pairVars.mp hw
  rw [List.mem_singleton.mp hp] at hw
  exact hw.elim (h.apply hs w) (h.apply ht w)

/-! ## Regular sessions -/

namespace Session

variable {s t u : Session} {cs : List Constraint}

/-- No variable reaches itself, and bindings are made of variables that
constraints mention. -/
structure Regular (s : Session) : Prop where
  acyclic : s.substitution.Acyclic
  within : s.substitution.Within (· ∈ s.constrained)

/-- All variables of the constraints count as mentioned. -/
def Covers (s : Session) (cs : List Constraint) : Prop := ∀ k ∈ cs, ∀ v ∈ k.vars, v ∈ s.constrained

/-- What a step does to the bindings of a session. -/
structure Advances (s t : Session) : Prop where
  regular : t.Regular
  le : s.substitution ≤ t.substitution
  constrained : t.constrained = s.constrained

theorem Regular.advances_of_eq (h : s.Regular) (hsub : t.substitution = s.substitution)
    (hconstrained : t.constrained = s.constrained) : s.Advances t := by
  refine ⟨⟨?_, ?_⟩, ?_, hconstrained⟩
  · rw [hsub]
    exact h.acyclic
  · rw [hsub, hconstrained]
    exact h.within
  · rw [hsub]
    exact Substitution.le_refl _

theorem Advances.trans (h : s.Advances t) (h' : t.Advances u) : s.Advances u :=
  ⟨h'.regular, Substitution.le_trans h.le h'.le, h'.constrained.trans h.constrained⟩

theorem Regular.advances_unify (h : s.Regular) {e : Equation}
    (he : ∀ v ∈ e.vars, v ∈ s.constrained) : s.Advances (s.unify e) := by
  have hext := h.acyclic.extends_unify e.expected e.actual
  have hconstrained : (s.unify e).constrained = s.constrained := constrained_log s _
  refine ⟨⟨hext.acyclic h.acyclic, ?_⟩, hext.le, hconstrained⟩
  rw [hconstrained]
  exact h.within.unify (fun w hw => he w (List.mem_append_left _ hw))
    fun w hw => he w (List.mem_append_right _ hw)

theorem Step.advances (hs : s.Regular) (hcs : s.Covers cs) (h : Step cs s t) : s.Advances t := by
  cases h with
  | unify he =>
    obtain ⟨k, hk, he⟩ := he
    refine hs.advances_unify fun v hv => hcs k hk v ?_
    rw [k.vars_eq_flatMap_equations]
    exact List.mem_flatMap.mpr ⟨_, he, hv⟩
  | decide action hc hi => exact hs.advances_of_eq (substitution_log s _) (constrained_log s _)
  | exhaust hc =>
    exact hs.advances_of_eq (substitution_reportExhausted s _) (constrained_reportExhausted s _)

theorem Steps.advances (hs : s.Regular) (hcs : s.Covers cs) (h : Steps cs s t) :
    s.Advances t := by
  induction h with
  | refl => exact hs.advances_of_eq rfl rfl
  | tail _ hlast ih =>
    refine ih.trans (hlast.advances ih.regular fun k hk v hv => ?_)
    rw [ih.constrained]
    exact hcs k hk v hv

theorem regular_ofOptions (o : Options) : (ofOptions o).Regular :=
  ⟨Substitution.acyclic_empty, Substitution.within_empty⟩

theorem Regular.constrain (h : s.Regular) (cs : List Constraint) : (s.constrain cs).Regular :=
  ⟨h.acyclic, fun v t hv => by
    obtain ⟨hkey, hvars⟩ := h.within v t hv
    exact ⟨mem_foldl_insert.mpr (.inr hkey), fun w hw => mem_foldl_insert.mpr (.inr (hvars w hw))⟩⟩

/-- An answer advances the session that the list was added to. -/
theorem Regular.advances_solve (h : s.Regular) (o : Options) (cs : List Constraint) :
    (s.constrain cs).Advances (s.solve o cs).session := by
  obtain ⟨t, hsteps, hsub, hconstrained⟩ := s.exists_steps_solve o cs
  have ht := hsteps.advances (h.constrain cs) fun k hk v hv => mem_constrained hk hv
  exact ht.trans (ht.regular.advances_of_eq hsub hconstrained)

/-! ## Sequences of calls -/

theorem Regular.after (h : s.Regular) (calls : List Call) : (s.after calls).Regular := by
  induction calls generalizing s with
  | nil => exact h
  | cons c calls ih => exact ih (h.advances_solve c.options c.constraints).regular

theorem Regular.mem_constrained_answer (h : s.Regular) {c : Call} {v : TypeVar} :
    v ∈ (s.answer c).session.constrained ↔
      v ∈ s.constrained ∨ ∃ k ∈ c.constraints, v ∈ k.vars := by
  rw [answer, (h.advances_solve c.options c.constraints).constrained, ← List.mem_flatMap, or_comm]
  exact mem_foldl_insert

/-- A variable counts as mentioned if it did before or some call mentions it. -/
theorem Regular.mem_constrained_after (h : s.Regular) {calls : List Call} {v : TypeVar} :
    v ∈ (s.after calls).constrained ↔
      v ∈ s.constrained ∨ ∃ c ∈ calls, ∃ k ∈ c.constraints, v ∈ k.vars := by
  induction calls generalizing s with
  | nil => simp [Session.after]
  | cons c calls ih =>
    have hanswer : (s.answer c).session.Regular :=
      (h.advances_solve c.options c.constraints).regular
    refine (ih hanswer).trans ?_
    rw [h.mem_constrained_answer]
    simp only [List.mem_cons, exists_eq_or_imp, or_assoc]

/-- In every state that calls lead to, no variable reaches itself, so that every
type evaluates to one type; a call keeps all bindings, and those it adds are of
variables that were unbound and that some constraint mentions. -/
theorem substitution_answer (o : Options) (calls : List Call) (call : Call) :
    let s := (ofOptions o).after calls
    let t := (s.answer call).session
    s.substitution.Acyclic ∧
    (∀ u u', s.substitution.Evaluates u u' ↔ u' = s.substitution.apply u) ∧
    (∀ v u, s.substitution.lookup v = some u → t.substitution.lookup v = some u) ∧
    ∀ v, s.substitution.lookup v = none → (t.substitution.lookup v).isSome →
      ∃ c ∈ calls ++ [call], ∃ k ∈ c.constraints, v ∈ k.vars := by
  intro s t
  have hs : s.Regular := (regular_ofOptions o).after calls
  have ht := hs.advances_solve call.options call.constraints
  refine ⟨hs.acyclic, fun u u' => hs.acyclic.evaluates_iff, ht.le, fun v _ hv => ?_⟩
  obtain ⟨u, hu⟩ := Option.isSome_iff_exists.mp hv
  have hmem : v ∈ ((ofOptions o).after (calls ++ [call])).constrained := by
    rw [after_append]
    exact (ht.regular.within v u hu).1
  have hfresh : v ∉ (ofOptions o).constrained := Std.TreeSet.not_mem_emptyc
  exact ((regular_ofOptions o).mem_constrained_after.mp hmem).resolve_left hfresh

end Session

end PlusCalTyping
