import PlusCalTyping.Proofs.Ty.Evaluation
import PlusCalTyping.Proofs.Unify.Extension

/-! # Unification as a recursion

`Unify.run` works off a list of pairs and puts every binding into the pairs
still to come. The same can be done by recursion: a pair is evaluated, an
occurs check searches the evaluated types once more, and then the parts are
made equal one after the other, each under the bindings that all pairs before
it have left, also those that failed. The types of a part can so be larger when
its turn comes than they were when the pair was taken apart. Under an acyclic
substitution this recursion still comes to an end, with the events of the list
(`Acyclic.equates_iff`).
-/

namespace PlusCalTyping

namespace Substitution

variable {σ : Substitution}

/-- A new binding to unbound variables comes last. -/
theorem Acyclic.apply_bind (hσ : σ.Acyclic) {v : TypeVar} {u : Ty} (hu : v ∉ u.vars)
    (hv : σ.lookup v = none) (hfree : ∀ w ∈ u.vars, σ.lookup w = none) (t : Ty) :
    (σ.bind v u).apply t = (σ.apply t).replace v u := by
  have hτ := hσ.bind hu hfree
  have hlookup {w : TypeVar} (hne : w ≠ v) (hw : σ.lookup w = none) :
      (σ.bind v u).lookup w = none := by rwa [lookup_bind, if_neg hne]
  rw [← apply_apply_of_le hτ (le_bind hv u), apply_eq_subst (σ.bind v u), Ty.replace]
  refine Ty.subst_congr _ fun w hw => ?_
  split
  · next he =>
    subst he
    rw [hτ.value_of_lookup (by rw [lookup_bind, if_pos rfl])]
    exact apply_eq_self fun x hx => hlookup (fun e => hu (e ▸ hx)) (hfree x hx)
  · next hne =>
    refine apply_eq_self fun x hx => ?_
    rw [List.mem_singleton.mp hx]
    exact hlookup hne (hσ.lookup_eq_none_of_mem_apply hw)

end Substitution

/-- What an occurs check has to find out for an outcome. -/
def Outcome.Checked (σ : Substitution) : Outcome → Prop
  | .bind v t => σ.Searches v t false
  | .infinite v t => σ.Searches v t true
  | .identical | .absorbed | .split _ | .clash _ => True

namespace Unify

mutual

/-- The events of making two types equal. The types are looked at with all
bindings put in, and their parts follow under the bindings made by then. -/
inductive Equates : Substitution → Ty → Ty → List UnifyEvent → Prop
  | pair {σ : Substitution} {s s' t t' : Ty} {events : List UnifyEvent}
    (hs : σ.Evaluates s s') (ht : σ.Evaluates t t') (hcheck : (Outcome.ofPair s' t').Checked σ)
    (hparts : EquatesAll (extend σ [⟨s', t', .ofPair s' t'⟩]) (Outcome.ofPair s' t').parts
      events) :
    Equates σ s t (⟨s', t', .ofPair s' t'⟩ :: events)

inductive EquatesAll : Substitution → List (Ty × Ty) → List UnifyEvent → Prop
  | nil {σ : Substitution} : EquatesAll σ [] []
  | cons {σ : Substitution} {s t : Ty} {rest : List (Ty × Ty)} {events later : List UnifyEvent}
    (h : Equates σ s t events) (hrest : EquatesAll (extend σ events) rest later) :
    EquatesAll σ ((s, t) :: rest) (events ++ later)

end

theorem extend_append (σ : Substitution) (es fs : List UnifyEvent) :
    extend σ (es ++ fs) = extend (extend σ es) fs := List.foldl_append

theorem EquatesAll.exists_of_append {σ : Substitution} {ps qs : List (Ty × Ty)}
    {events : List UnifyEvent} (h : EquatesAll σ (ps ++ qs) events) :
    ∃ es fs, events = es ++ fs ∧ EquatesAll σ ps es ∧ EquatesAll (extend σ es) qs fs := by
  induction ps generalizing σ events with
  | nil => exact ⟨[], events, rfl, .nil, h⟩
  | cons p ps ih =>
    obtain _ | ⟨hp, hrest⟩ := h
    obtain ⟨es, fs, rfl, hps, hqs⟩ := ih hrest
    refine ⟨_, fs, (List.append_assoc _ es fs).symm, .cons hp hps, ?_⟩
    rwa [extend_append]

/-! ## Pairs with bindings put in -/

/-- Pairs of types with all bindings put in. -/
def applied (σ : Substitution) (pairs : List (Ty × Ty)) : List (Ty × Ty) :=
  pairs.map fun p => (σ.apply p.1, σ.apply p.2)

variable {σ : Substitution}

theorem applied_append (σ : Substitution) (ps qs : List (Ty × Ty)) :
    applied σ (ps ++ qs) = applied σ ps ++ applied σ qs := List.map_append

theorem applied_eq_self {pairs : List (Ty × Ty)} (h : Fresh σ pairs) : applied σ pairs = pairs := by
  induction pairs with
  | nil => rfl
  | cons p pairs ih =>
    have hleft := Substitution.apply_eq_self fun w hw => h.head w (List.mem_append_left _ hw)
    have hright := Substitution.apply_eq_self fun w hw => h.head w (List.mem_append_right _ hw)
    rw [applied, List.map_cons, hleft, hright]
    exact congrArg (p :: ·) (ih h.tail)

theorem infinite_mem {s t : Ty} {v : TypeVar} {u : Ty} (h : Outcome.ofPair s t = .infinite v u) :
    v ∈ u.vars ∧ u.vars ⊆ s.vars ++ t.vars := by
  have hassign {w : TypeVar} {x : Ty} (h : Outcome.assign w x = .infinite v u) :
      v ∈ u.vars ∧ x = u := by
    unfold Outcome.assign at h
    split at h <;> cases h
    exact ⟨‹_›, rfl⟩
  unfold Outcome.ofPair at h
  split at h
  · cases h
  · split at h
    · obtain ⟨hv, rfl⟩ := hassign h
      exact ⟨hv, List.subset_append_right _ _⟩
    · obtain ⟨hv, rfl⟩ := hassign h
      exact ⟨hv, List.subset_append_left _ _⟩
    all_goals first | cases h | (split at h <;> cases h)

section

variable (hσ : σ.Acyclic) (s t : Ty)
include hσ

theorem lookup_eq_none_of_mem_pair :
    ∀ w ∈ (σ.apply s).vars ++ (σ.apply t).vars, σ.lookup w = none :=
  (fresh_apply hσ s t).head

/-- The occurs check finds out what the outcome of an evaluated pair says. -/
theorem checked_ofPair : (Outcome.ofPair (σ.apply s) (σ.apply t)).Checked σ := by
  have hfree := lookup_eq_none_of_mem_pair hσ s t
  cases ho : Outcome.ofPair (σ.apply s) (σ.apply t) with
  | bind v u =>
    obtain ⟨hv, _, hu⟩ := bind_mem ho
    rw [Outcome.Checked, hσ.searches_iff,
      Substitution.apply_eq_self fun w hw => hfree w (hu hw)]
    exact (decide_eq_false hv).symm
  | infinite v u =>
    obtain ⟨hv, hu⟩ := infinite_mem ho
    rw [Outcome.Checked, hσ.searches_iff,
      Substitution.apply_eq_self fun w hw => hfree w (hu hw)]
    exact (decide_eq_true hv).symm
  | identical | absorbed | split | clash => trivial

theorem acyclic_extend_pair :
    (extend σ [⟨σ.apply s, σ.apply t, .ofPair (σ.apply s) (σ.apply t)⟩]).Acyclic := by
  have hfree := lookup_eq_none_of_mem_pair hσ s t
  cases ho : Outcome.ofPair (σ.apply s) (σ.apply t) with
  | bind v u =>
    obtain ⟨hv, _, hu⟩ := bind_mem ho
    exact hσ.bind hv fun w hw => hfree w (hu hw)
  | identical | infinite | absorbed | split | clash => exact hσ

/-- After a pair, its parts and the pairs that follow remain, with its binding
put in. -/
theorem remaining_applied (rest : List (Ty × Ty)) :
    remaining (applied σ rest) (.ofPair (σ.apply s) (σ.apply t)) =
      applied (extend σ [⟨σ.apply s, σ.apply t, .ofPair (σ.apply s) (σ.apply t)⟩])
        ((Outcome.ofPair (σ.apply s) (σ.apply t)).parts ++ rest) := by
  have hfree := lookup_eq_none_of_mem_pair hσ s t
  cases ho : Outcome.ofPair (σ.apply s) (σ.apply t) with
  | bind v u =>
    obtain ⟨hv, hmem, hu⟩ := bind_mem ho
    have hbind := hσ.apply_bind hv (hfree v hmem) fun w hw => hfree w (hu hw)
    simp [remaining, replaceAll, applied, extend, Outcome.parts, hbind]
  | split pairs =>
    have hparts : Fresh σ pairs := fun w hw => hfree w ((split_decreases ho).1 hw)
    change pairs ++ applied σ rest = applied σ (pairs ++ rest)
    rw [applied_append, applied_eq_self hparts]
  | identical | infinite | absorbed | clash => rfl

theorem run_applied_cons (rest : List (Ty × Ty)) :
    run (applied σ ((s, t) :: rest)) =
      ⟨σ.apply s, σ.apply t, .ofPair (σ.apply s) (σ.apply t)⟩ ::
        run (applied (extend σ [⟨σ.apply s, σ.apply t, .ofPair (σ.apply s) (σ.apply t)⟩])
          ((Outcome.ofPair (σ.apply s) (σ.apply t)).parts ++ rest)) := by
  rw [← remaining_applied hσ, applied, List.map_cons, run]
  rfl

end

/-! ## Agreement of the recursion with the list -/

/-- Working off pairs starts with these events and goes on with the rest. -/
structure Leads (σ : Substitution) (pairs : List (Ty × Ty)) (events : List UnifyEvent) : Prop where
  acyclic : (extend σ events).Acyclic
  run_append : ∀ rest,
    run (applied σ (pairs ++ rest)) = events ++ run (applied (extend σ events) rest)

mutual

theorem Equates.leads {s t : Ty} {events : List UnifyEvent} {σ : Substitution}
    (hσ : σ.Acyclic) : Equates σ s t events → Leads σ [(s, t)] events
  | .pair hs ht _ hparts => by
    have hs := hσ.evaluates_iff.mp hs
    have ht := hσ.evaluates_iff.mp ht
    have hpair := acyclic_extend_pair hσ s t
    rw [← hs, ← ht] at hpair
    obtain ⟨hacyclic, hrun⟩ := hparts.leads hpair
    subst hs ht
    refine ⟨hacyclic, fun rest => ?_⟩
    change run (applied σ ((s, t) :: rest)) = _
    rw [run_applied_cons hσ, hrun]
    rfl

theorem EquatesAll.leads {pairs : List (Ty × Ty)} {events : List UnifyEvent} {σ : Substitution}
    (hσ : σ.Acyclic) : EquatesAll σ pairs events → Leads σ pairs events
  | .nil => ⟨hσ, fun _ => rfl⟩
  | @EquatesAll.cons _ s t pairs es fs h hrest => by
    obtain ⟨hacyclic, hfirst⟩ := h.leads hσ
    obtain ⟨hacyclic', hlater⟩ := hrest.leads hacyclic
    rw [← extend_append] at hacyclic' hlater
    refine ⟨hacyclic', fun rest => ?_⟩
    calc
      run (applied σ ((s, t) :: pairs ++ rest))
        = es ++ run (applied (extend σ es) (pairs ++ rest)) := hfirst (pairs ++ rest)
      _ = es ++ fs ++ run (applied (extend σ (es ++ fs)) rest) := by
          rw [hlater, List.append_assoc]

end

/-- The recursion comes to an end: what it has still to do is the list that is
worked off, whatever its own pairs have grown to. -/
theorem equatesAll_run {pairs : List (Ty × Ty)} (hσ : σ.Acyclic) :
    EquatesAll σ pairs (run (applied σ pairs)) := by
  induction hq : applied σ pairs using run.induct generalizing σ pairs with
  | case1 =>
    rw [applied, List.map_eq_nil_iff] at hq
    rw [hq, run]
    exact .nil
  | case2 s' t' rest' o =>
    rename_i ih
    cases pairs with
    | nil => cases hq
    | cons p rest =>
      obtain ⟨s, t⟩ := p
      rw [← hq, run_applied_cons hσ]
      cases hq
      have hremaining := remaining_applied hσ s t rest
      have hnext := ih (acyclic_extend_pair hσ s t) hremaining.symm
      obtain ⟨es, fs, heq, hparts, hrest⟩ := hnext.exists_of_append
      have hfirst := Equates.pair (hσ.evaluates_iff.mpr rfl) (hσ.evaluates_iff.mpr rfl)
        (checked_ofPair hσ s t) hparts
      rw [← hremaining]
      exact heq ▸ EquatesAll.cons hfirst hrest

theorem equatesAll_singleton {s t : Ty} {events : List UnifyEvent} :
    EquatesAll σ [(s, t)] events ↔ Equates σ s t events := by
  constructor
  · intro h
    obtain _ | ⟨h, hrest⟩ := h
    cases hrest
    rwa [List.append_nil]
  · intro h
    have := EquatesAll.cons h .nil
    rwa [List.append_nil] at this

end Unify

/-- Unification by recursion ends in the events of the list, and in no others. -/
theorem Substitution.Acyclic.equates_iff {σ : Substitution} (hσ : σ.Acyclic) {s t : Ty}
    {events : List UnifyEvent} : Unify.Equates σ s t events ↔ events = σ.unify s t := by
  constructor
  · intro h
    have hrun := (h.leads hσ).run_append []
    rw [List.append_nil, Unify.applied, Unify.applied, List.map_nil, Unify.run,
      List.append_nil] at hrun
    exact hrun.symm
  · rintro rfl
    exact Unify.equatesAll_singleton.mp (Unify.equatesAll_run hσ)

end PlusCalTyping
