import PlusCalTyping.Proofs.Ty.Acyclicity
import PlusCalTyping.Unify

/-! # Solutions of unification

A valuation solves a list of pairs exactly when it meets every event of working
the list off (`unifiesAll_iff`): no event is a failure, and every variable that
was bound has the type it was bound to. The bindings of the events, put into an
acyclic substitution, leave it acyclic and keep what was bound before. So
unification under a substitution succeeds exactly when the pair has a solution
among the models of the substitution, and then the models of the result are
those solutions (`succeeded_unify_iff`, `models_unify_iff`).
-/

namespace PlusCalTyping

/-- A type for every variable. -/
abbrev Valuation := TypeVar → Ty

namespace Valuation

variable (θ : Valuation)

def Unifies (p : Ty × Ty) : Prop := (p.1.subst θ).agrees (p.2.subst θ)

/-- What an outcome asks of a valuation. -/
def Meets : Outcome → Prop
  | .bind v t => (θ v).agrees (t.subst θ)
  | .infinite _ _ | .clash _ => False
  | .identical | .absorbed | .split _ => True

/-- Every bound variable has the type it is bound to. -/
def Models (σ : Substitution) : Prop := ∀ v t, σ.lookup v = some t → (θ v).agrees (t.subst θ)

variable {θ}

theorem unifies_comm {s t : Ty} : θ.Unifies (s, t) ↔ θ.Unifies (t, s) := Ty.agrees_comm

theorem models_empty : θ.Models .empty := by
  intro v t h
  rw [Substitution.lookup_empty] at h
  cases h

theorem Models.mono {σ τ : Substitution} (h : θ.Models τ) (hle : σ ≤ τ) : θ.Models σ :=
  fun v t hv => h v t (hle v t hv)

/-- Putting bindings in makes no difference to a model. -/
theorem Models.apply_agrees {σ : Substitution} (h : θ.Models σ) (t : Ty) :
    ((σ.apply t).subst θ).agrees (t.subst θ) := by
  have hexpand : ∀ n t, ((σ.expand n t).subst θ).agrees (t.subst θ) := by
    intro n
    induction n with
    | zero => exact fun t => Ty.agrees_refl _
    | succ n ih =>
      intro t
      rw [Substitution.expand, Ty.subst_subst]
      refine Ty.subst_agrees_subst t fun v _ => ?_
      cases hv : σ.lookup v with
      | none => exact Ty.agrees_refl _
      | some u => exact Ty.agrees_trans (ih u) (Ty.agrees_symm (h v u hv))
  exact hexpand _ t

theorem Models.unifies_apply_iff {σ : Substitution} (h : θ.Models σ) {s t : Ty} :
    θ.Unifies (σ.apply s, σ.apply t) ↔ θ.Unifies (s, t) :=
  Ty.agrees_congr (h.apply_agrees s) (h.apply_agrees t)

theorem models_value {σ : Substitution} (h : σ.Acyclic) : Valuation.Models σ.value σ := by
  intro v t hv
  rw [h.value_of_lookup hv, Substitution.apply_eq_subst]
  exact Ty.agrees_refl _

theorem unifies_value {σ : Substitution} {s t : Ty} :
    Valuation.Unifies σ.value (s, t) ↔ (σ.apply s).agrees (σ.apply t) := by
  rw [Unifies, Substitution.apply_eq_subst, Substitution.apply_eq_subst]

theorem agrees_replace {v : TypeVar} {u : Ty} (h : (θ v).agrees (u.subst θ)) (t : Ty) :
    ((t.replace v u).subst θ).agrees (t.subst θ) := by
  rw [Ty.replace, Ty.subst_subst]
  refine Ty.subst_agrees_subst t fun w _ => ?_
  split
  · next hw => exact hw ▸ Ty.agrees_symm h
  · exact Ty.agrees_refl _

end Valuation

namespace Outcome

/-- The pairs that a pair is taken apart into. -/
def parts : Outcome → List (Ty × Ty)
  | split pairs => pairs
  | _ => []

variable {θ : Valuation}

theorem unifies_assign_iff {v : TypeVar} {t : Ty} (h : ¬(Ty.var v).agrees t) :
    θ.Unifies (.var v, t) ↔ θ.Meets (assign v t) := by
  unfold assign
  split
  · next hv =>
    refine iff_of_false (Ty.not_agrees_subst_of_mem hv ?_) id
    cases t with
    | var w =>
      rw [List.mem_singleton.mp hv] at h
      exact absurd (Ty.agrees_refl _) h
    | _ => rfl
  · exact Iff.rfl

theorem parts_assign (v : TypeVar) (t : Ty) : (assign v t).parts = [] := by
  unfold assign
  split <;> rfl

theorem agreesList_subst_iff {ss ts : List Ty} :
    Ty.agreesList (Ty.substList θ ss) (Ty.substList θ ts) ↔
      ss.length = ts.length ∧ ∀ p ∈ ss.zip ts, θ.Unifies p := by
  rw [Ty.agreesList_iff_zip, Ty.substList_eq, Ty.substList_eq, List.length_map, List.length_map,
    List.zip_map]
  refine and_congr_right fun _ => ?_
  simp only [List.forall_mem_map]
  exact Iff.rfl

theorem unifies_zip_iff {ss ts : List Ty} {rest : List (Ty × Ty)} {c : Clash} :
    (Ty.agreesList (Ty.substList θ ss) (Ty.substList θ ts) ∧ ∀ p ∈ rest, θ.Unifies p) ↔
      θ.Meets (if ss.length = ts.length then split (ss.zip ts ++ rest) else clash c) ∧
      ∀ p ∈ (if ss.length = ts.length then split (ss.zip ts ++ rest) else clash c).parts,
        θ.Unifies p := by
  rw [agreesList_subst_iff]
  split
  · next h => simp only [h, true_and, Valuation.Meets, parts, List.forall_mem_append]
  · next h => simp only [h, false_and, Valuation.Meets]

theorem unifies_zip_iff' {ss ts : List Ty} {c : Clash} :
    Ty.agreesList (Ty.substList θ ss) (Ty.substList θ ts) ↔
      θ.Meets (if ss.length = ts.length then split (ss.zip ts) else clash c) ∧
      ∀ p ∈ (if ss.length = ts.length then split (ss.zip ts) else clash c).parts,
        θ.Unifies p := by
  have h : Ty.agreesList (Ty.substList θ ss) (Ty.substList θ ts) ↔ _ :=
    (and_iff_left (List.forall_mem_nil _)).symm.trans (@unifies_zip_iff θ ss ts [] c)
  rwa [List.append_nil] at h

/-- A procedure and an operator do not fit, however many parameters they have. -/
theorem not_meets_clash {P : Prop} [Decidable P] {c d : Clash} :
    ¬θ.Meets (if P then clash c else clash d) := by
  split <;> exact id

/-- A pair is solved by what meets its outcome and solves its parts. -/
theorem unifies_iff {s t : Ty} (hs : s.Determined) (ht : t.Determined) :
    θ.Unifies (s, t) ↔ θ.Meets (ofPair s t) ∧ ∀ p ∈ (ofPair s t).parts, θ.Unifies p := by
  by_cases h : s.agrees t
  · simp only [ofPair, h, if_true]
    exact iff_of_true (Ty.subst_agrees h) ⟨trivial, List.forall_mem_nil _⟩
  have hassign {v : TypeVar} {u : Ty} (hu : ¬(Ty.var v).agrees u) :
      θ.Unifies (.var v, u) ↔
        θ.Meets (assign v u) ∧ ∀ p ∈ (assign v u).parts, θ.Unifies p := by
    rw [parts_assign, unifies_assign_iff hu]
    exact (and_iff_left (List.forall_mem_nil _)).symm
  cases s <;> cases t <;> simp only [ofPair, if_neg h]
  case prim.prim => exact iff_of_false h And.left
  case set.set => simp [Valuation.Unifies, Ty.subst, Ty.agrees, Valuation.Meets, parts]
  case map.map => simp [Valuation.Unifies, Ty.subst, Ty.agrees, Valuation.Meets, parts]
  case tuple.tuple => exact unifies_zip_iff'
  case procedure.procedure => exact unifies_zip_iff'
  case operator.operator ss s _ ts t _ =>
    rw [← unifies_zip_iff, List.forall_mem_singleton]
    simp only [Valuation.Unifies, Ty.subst, Ty.agrees, Bool.and_eq_true]
  case procedure.operator | operator.procedure =>
    exact iff_of_false Bool.false_ne_true fun h => not_meets_clash h.1
  -- A variable is assigned, and types with different heads have no solution.
  all_goals first
  | exact hassign h
  | exact Valuation.unifies_comm.trans (hassign (h ∘ Ty.agrees_symm))
  | exact absurd hs (Ty.not_determined_unresolved _)
  | exact absurd ht (Ty.not_determined_unresolved _)
  | exact iff_of_false Bool.false_ne_true And.left

theorem eq_of_ofPair_eq_bind {s t : Ty} {v : TypeVar} {u : Ty} (h : ofPair s t = bind v u) :
    s = .var v ∧ t = u ∨ t = .var v ∧ s = u := by
  unfold ofPair at h
  split at h
  · cases h
  · split at h
    · obtain ⟨rfl, rfl, _⟩ := Unify.assign_eq_bind h
      exact .inl ⟨rfl, rfl⟩
    · obtain ⟨rfl, rfl, _⟩ := Unify.assign_eq_bind h
      exact .inr ⟨rfl, rfl⟩
    all_goals first | cases h | (split at h <;> cases h)

end Outcome

namespace Unify

variable {θ : Valuation}

/-- Nothing in the pairs is marked as impossible to determine. -/
def AllDetermined (pairs : List (Ty × Ty)) : Prop :=
  ∀ p ∈ pairs, p.1.Determined ∧ p.2.Determined

theorem allDetermined_zip {ss ts : List Ty} (hs : ∀ s ∈ ss, s.Determined)
    (ht : ∀ t ∈ ts, t.Determined) : AllDetermined (ss.zip ts) :=
  fun _ hp => ⟨hs _ (List.of_mem_zip hp).1, ht _ (List.of_mem_zip hp).2⟩

theorem allDetermined_parts {s t : Ty} (hs : s.Determined) (ht : t.Determined) :
    AllDetermined (Outcome.ofPair s t).parts := by
  have hnil : AllDetermined [] := List.forall_mem_nil _
  by_cases h : s.agrees t
  · simp only [Outcome.ofPair, if_pos h]
    exact hnil
  cases s <;> cases t <;> simp only [Outcome.ofPair, if_neg h]
  case set.set => exact List.forall_mem_singleton.mpr ⟨hs, ht⟩
  case map.map =>
    obtain ⟨hk, hv⟩ := Ty.determined_map.mp hs
    obtain ⟨hl, hw⟩ := Ty.determined_map.mp ht
    exact List.forall_mem_cons.mpr ⟨⟨hk, hl⟩, List.forall_mem_singleton.mpr ⟨hv, hw⟩⟩
  case tuple.tuple | procedure.procedure =>
    split
    · exact allDetermined_zip (Ty.determined_list_iff.mp hs) (Ty.determined_list_iff.mp ht)
    · exact hnil
  case operator.operator =>
    obtain ⟨hss, hs⟩ := Ty.determined_operator.mp hs
    obtain ⟨hts, ht⟩ := Ty.determined_operator.mp ht
    split
    · exact List.forall_mem_append.mpr
        ⟨allDetermined_zip hss hts, List.forall_mem_singleton.mpr ⟨hs, ht⟩⟩
    · exact hnil
  -- No other pair is taken apart.
  all_goals first
  | exact hnil
  | (rw [Outcome.parts_assign]; exact hnil)
  | (split <;> exact hnil)

theorem determined_replace {t u : Ty} {v : TypeVar} (ht : t.Determined) (hu : u.Determined) :
    (t.replace v u).Determined := by
  refine Ty.determined_subst (fun w => ?_) t ht
  split
  · exact hu
  · exact Ty.determined_var w

theorem determined_of_bind {s t u : Ty} {v : TypeVar} (hs : s.Determined) (ht : t.Determined)
    (h : Outcome.ofPair s t = .bind v u) : u.Determined := by
  obtain ⟨_, rfl⟩ | ⟨_, rfl⟩ := Outcome.eq_of_ofPair_eq_bind h
  · exact ht
  · exact hs

theorem allDetermined_remaining {s t : Ty} {rest : List (Ty × Ty)}
    (h : AllDetermined ((s, t) :: rest)) :
    AllDetermined (remaining rest (Outcome.ofPair s t)) := by
  obtain ⟨⟨hs, ht⟩, hrest⟩ := List.forall_mem_cons.mp h
  cases ho : Outcome.ofPair s t with
  | bind v u =>
    have hu := determined_of_bind hs ht ho
    intro q hq
    obtain ⟨p, hp, rfl⟩ := List.mem_map.mp hq
    exact ⟨determined_replace (hrest p hp).1 hu, determined_replace (hrest p hp).2 hu⟩
  | split pairs =>
    have hparts := allDetermined_parts hs ht
    rw [ho] at hparts
    exact List.forall_mem_append.mpr ⟨hparts, hrest⟩
  | identical | infinite | absorbed | clash => exact hrest

/-- Putting a binding into the remaining pairs keeps their solutions. -/
theorem unifies_remaining_iff {o : Outcome} (h : θ.Meets o) (rest : List (Ty × Ty)) :
    (∀ p ∈ remaining rest o, θ.Unifies p) ↔
      (∀ p ∈ o.parts, θ.Unifies p) ∧ ∀ p ∈ rest, θ.Unifies p := by
  cases o with
  | bind v u =>
    simp only [remaining, replaceAll, Outcome.parts, List.forall_mem_map, List.not_mem_nil,
      false_imp_iff, implies_true, true_and]
    refine forall₂_congr fun p _ => ?_
    exact Ty.agrees_congr (Valuation.agrees_replace h p.1) (Valuation.agrees_replace h p.2)
  | split pairs => exact List.forall_mem_append
  | identical | infinite | absorbed | clash =>
    exact (and_iff_right (List.forall_mem_nil _)).symm

/-- Pairs are solved by the valuations that meet every event. -/
theorem unifiesAll_iff {pairs : List (Ty × Ty)} (h : AllDetermined pairs) :
    (∀ p ∈ pairs, θ.Unifies p) ↔ ∀ e ∈ run pairs, θ.Meets e.outcome := by
  induction pairs using run.induct with
  | case1 => simp [run]
  | case2 s t rest o ih =>
    obtain ⟨⟨hs, ht⟩, _⟩ := List.forall_mem_cons.mp h
    rw [run, List.forall_mem_cons, List.forall_mem_cons, Outcome.unifies_iff hs ht,
      ← ih (allDetermined_remaining h), and_assoc]
    exact and_congr_right fun hmeets => (unifies_remaining_iff hmeets rest).symm

end Unify

end PlusCalTyping
