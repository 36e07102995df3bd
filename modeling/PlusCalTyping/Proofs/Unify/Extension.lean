import PlusCalTyping.Proofs.Unify.Solutions

/-! # Extending substitutions by unification

The pairs that are worked off mention no bound variable, and a binding takes
its variable out of the pairs still to come. So every event adds a binding of a
new variable to a type of unbound ones. Unification keeps a substitution
acyclic and all its bindings in place, whatever the types are. Where nothing is
marked as impossible to determine, it succeeds exactly when some model of the
substitution solves the pair, and the models of what it gives are these.
-/

namespace PlusCalTyping

/-- No binding is marked as impossible to determine. -/
def Substitution.Determined (σ : Substitution) : Prop :=
  ∀ v t, σ.lookup v = some t → t.Determined

namespace Substitution

variable {σ : Substitution}

theorem determined_empty : empty.Determined := by
  intro v t h
  rw [lookup_empty] at h
  cases h

theorem Determined.bind (h : σ.Determined) {v : TypeVar} {t : Ty} (ht : t.Determined) :
    (σ.bind v t).Determined := by
  intro w u hw
  rw [lookup_bind] at hw
  split at hw
  · cases hw
    exact ht
  · exact h w u hw

theorem Determined.apply (h : σ.Determined) {t : Ty} (ht : t.Determined) :
    (σ.apply t).Determined := by
  have hexpand : ∀ n (t : Ty), t.Determined → (σ.expand n t).Determined := by
    intro n
    induction n with
    | zero => exact fun _ ht => ht
    | succ n ih =>
      intro t ht
      refine Ty.determined_subst (fun v => ?_) t ht
      cases hv : σ.lookup v with
      | none => exact Ty.determined_var v
      | some u => exact ih u (h v u hv)
  exact hexpand _ t ht

end Substitution

namespace Valuation

variable {θ : Valuation} {σ : Substitution}

/-- A binding that an event made is one that the valuation has to respect. -/
def Obeys (θ : Valuation) : Outcome → Prop
  | .bind v t => (θ v).agrees (t.subst θ)
  | _ => True

theorem models_bind {v : TypeVar} (hv : σ.lookup v = none) {t : Ty} :
    θ.Models (σ.bind v t) ↔ θ.Models σ ∧ (θ v).agrees (t.subst θ) := by
  constructor
  · intro h
    refine ⟨h.mono (Substitution.le_bind hv t), h v t ?_⟩
    rw [Substitution.lookup_bind, if_pos rfl]
  · rintro ⟨h, ht⟩ w u hw
    rw [Substitution.lookup_bind] at hw
    split at hw
    · next he =>
      cases hw
      exact he ▸ ht
    · exact h w u hw

end Valuation

namespace Unify

variable {θ : Valuation} {σ : Substitution}

theorem succeeded_cons (e : UnifyEvent) (events : List UnifyEvent) :
    succeeded (e :: events) = (succeeded [e] && succeeded events) := by
  simp [succeeded]

theorem meets_iff {e : UnifyEvent} : θ.Meets e.outcome ↔ succeeded [e] ∧ θ.Obeys e.outcome := by
  obtain ⟨s, t, o⟩ := e
  cases o <;> simp [succeeded, Valuation.Meets, Valuation.Obeys]

theorem meets_all_iff {events : List UnifyEvent} :
    (∀ e ∈ events, θ.Meets e.outcome) ↔
      succeeded events ∧ ∀ e ∈ events, θ.Obeys e.outcome := by
  induction events with
  | nil => simp [succeeded]
  | cons e events ih =>
    rw [List.forall_mem_cons, List.forall_mem_cons, succeeded_cons, Bool.and_eq_true, ih,
      meets_iff]
    exact and_and_and_comm

/-- The pairs mention no bound variable. -/
def Fresh (σ : Substitution) (pairs : List (Ty × Ty)) : Prop :=
  ∀ w ∈ pairVars pairs, σ.lookup w = none

theorem fresh_apply (h : σ.Acyclic) (s t : Ty) : Fresh σ [(σ.apply s, σ.apply t)] := by
  intro w hw
  obtain ⟨p, hp, hw⟩ := mem_pairVars.mp hw
  rw [List.mem_singleton.mp hp] at hw
  exact hw.elim h.lookup_eq_none_of_mem_apply h.lookup_eq_none_of_mem_apply

theorem Fresh.tail {p : Ty × Ty} {rest : List (Ty × Ty)} (h : Fresh σ (p :: rest)) :
    Fresh σ rest :=
  fun w hw => h w (List.mem_append_right _ hw)

theorem Fresh.head {s t : Ty} {rest : List (Ty × Ty)} (h : Fresh σ ((s, t) :: rest)) :
    ∀ w ∈ s.vars ++ t.vars, σ.lookup w = none :=
  fun w hw => h w (List.mem_append_left _ hw)

/-- After a binding, its variable does not come up again. -/
theorem Fresh.replaceAll {v : TypeVar} {u : Ty} {rest : List (Ty × Ty)} (h : Fresh σ rest)
    (hv : v ∉ u.vars) (hu : ∀ w ∈ u.vars, σ.lookup w = none) :
    Fresh (σ.bind v u) (replaceAll v u rest) := by
  intro w hw
  have hne : w ≠ v := by
    rintro rfl
    exact not_mem_pairVars_replaceAll hv rest hw
  rw [Substitution.lookup_bind, if_neg hne]
  exact (List.mem_append.mp (pairVars_replaceAll_subset v u rest hw)).elim (hu w) (h w)

theorem Fresh.parts {s t : Ty} {pairs rest : List (Ty × Ty)} (h : Fresh σ ((s, t) :: rest))
    (ho : Outcome.ofPair s t = .split pairs) : Fresh σ (pairs ++ rest) := by
  intro w hw
  rw [pairVars_append] at hw
  rcases List.mem_append.mp hw with hw | hw
  · exact h.head w ((split_decreases ho).1 hw)
  · exact h.tail w hw

/-- What working off pairs without bound variables does to a substitution. -/
structure Extends (σ τ : Substitution) (events : List UnifyEvent) : Prop where
  acyclic : σ.Acyclic → τ.Acyclic
  le : σ ≤ τ
  models : ∀ θ : Valuation, θ.Models τ ↔ θ.Models σ ∧ ∀ e ∈ events, θ.Obeys e.outcome

theorem extends_run (pairs : List (Ty × Ty)) : ∀ {σ : Substitution}, Fresh σ pairs →
    Extends σ (extend σ (run pairs)) (run pairs) := by
  induction pairs using run.induct with
  | case1 =>
    intro σ _
    rw [run]
    exact ⟨id, Substitution.le_refl σ, fun θ =>
      (and_iff_left (List.forall_mem_nil _)).symm⟩
  | case2 s t rest o =>
    rename_i ih
    intro σ h
    rw [run]
    cases ho : Outcome.ofPair s t with
    | bind v u =>
      -- The remaining pairs do not mention `v` any more, so they stay without bound variables.
      obtain ⟨hvu, hv, hu⟩ := bind_mem ho
      have hv := h.head v hv
      have hu := fun w hw => h.head w (hu hw)
      simp only [o, ho] at ih
      obtain ⟨hacyclic, hle, hmodels⟩ := ih (h.tail.replaceAll hvu hu)
      refine ⟨fun hσ => hacyclic (hσ.bind hvu hu),
        Substitution.le_trans (Substitution.le_bind hv u) hle, fun θ => ?_⟩
      rw [List.forall_mem_cons, ← and_assoc]
      exact (hmodels θ).trans (and_congr_left' (Valuation.models_bind hv))
    | split pairs =>
      simp only [o, ho] at ih
      obtain ⟨hacyclic, hle, hmodels⟩ := ih (h.parts ho)
      refine ⟨hacyclic, hle, fun θ => (hmodels θ).trans ?_⟩
      rw [List.forall_mem_cons]
      exact and_congr_right fun _ => (and_iff_right trivial).symm
    | identical | infinite | absorbed | clash =>
      simp only [o, ho] at ih
      obtain ⟨hacyclic, hle, hmodels⟩ := ih h.tail
      refine ⟨hacyclic, hle, fun θ => (hmodels θ).trans ?_⟩
      rw [List.forall_mem_cons]
      exact and_congr_right fun _ => (and_iff_right trivial).symm

theorem determined_extend (pairs : List (Ty × Ty)) : ∀ {σ : Substitution},
    AllDetermined pairs → σ.Determined → (extend σ (run pairs)).Determined := by
  induction pairs using run.induct with
  | case1 =>
    intro σ _ hσ
    rw [run]
    exact hσ
  | case2 s t rest o =>
    rename_i ih
    intro σ h hσ
    have hrest := allDetermined_remaining h
    rw [run]
    cases ho : Outcome.ofPair s t with
    | bind v u =>
      have hst := h (s, t) List.mem_cons_self
      rw [ho] at hrest
      simp only [o, ho] at ih
      exact ih hrest (hσ.bind (determined_of_bind hst.1 hst.2 ho))
    | split | identical | infinite | absorbed | clash =>
      rw [ho] at hrest
      simp only [o, ho] at ih
      exact ih hrest hσ

end Unify

namespace Substitution

variable {σ : Substitution} {θ : Valuation}

theorem Acyclic.extends_unify (h : σ.Acyclic) (s t : Ty) :
    Unify.Extends σ (Unify.extend σ (σ.unify s t)) (σ.unify s t) :=
  Unify.extends_run _ (Unify.fresh_apply h s t)

theorem allDetermined_apply (h : σ.Determined) {s t : Ty} (hs : s.Determined)
    (ht : t.Determined) : Unify.AllDetermined [(σ.apply s, σ.apply t)] :=
  List.forall_mem_singleton.mpr ⟨h.apply hs, h.apply ht⟩

/-- Successful unification gives the substitution whose models are those of the
old one that make the types equal. -/
theorem models_unify_iff (hσ : σ.Acyclic) (hdet : σ.Determined) {s t : Ty} (hs : s.Determined)
    (ht : t.Determined) :
    Unify.succeeded (σ.unify s t) ∧ θ.Models (Unify.extend σ (σ.unify s t)) ↔
      θ.Models σ ∧ θ.Unifies (s, t) := by
  have hrun : (∀ p ∈ [(σ.apply s, σ.apply t)], θ.Unifies p) ↔
      ∀ e ∈ σ.unify s t, θ.Meets e.outcome :=
    Unify.unifiesAll_iff (allDetermined_apply hdet hs ht)
  rw [List.forall_mem_singleton, Unify.meets_all_iff] at hrun
  rw [(hσ.extends_unify s t).models, and_left_comm]
  refine and_congr_right fun hθ => ?_
  rw [← hθ.unifies_apply_iff]
  exact hrun.symm

theorem succeeded_unify_iff (hσ : σ.Acyclic) (hdet : σ.Determined) {s t : Ty}
    (hs : s.Determined) (ht : t.Determined) :
    Unify.succeeded (σ.unify s t) ↔ ∃ θ : Valuation, θ.Models σ ∧ θ.Unifies (s, t) := by
  constructor
  · intro h
    have hτ := (hσ.extends_unify s t).acyclic hσ
    exact ⟨_, (models_unify_iff hσ hdet hs ht).mp ⟨h, Valuation.models_value hτ⟩⟩
  · rintro ⟨θ, hθ⟩
    exact ((models_unify_iff hσ hdet hs ht).mpr hθ).1

end Substitution

end PlusCalTyping
