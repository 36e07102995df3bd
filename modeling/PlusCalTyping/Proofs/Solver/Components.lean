import PlusCalTyping.Proofs.Solver.Bindings
import PlusCalTyping.Proofs.Solver.Unbudgeted

/-! # Independent components

Two lists of constraints without a common variable can be solved as one list,
in which each keeps its own order. A session on the whole then stands next to a
session on each part (`Session.Joins`): it has the bindings of both and, if the
nodes are different too, the failures of both, in an order that keeps theirs.
Every step on a constraint of one part moves the whole and that part alike and
leaves the other part as it is. While only the other part makes progress, a
part that is stuck is not changed, so it does not matter how long its default
has to wait (`Joins.settle`).
-/

namespace PlusCalTyping

/-! ## Merging lists -/

/-- The third list is made of the first two, each in its own order. -/
inductive Interleaves {α : Type} : List α → List α → List α → Prop
  | nil : Interleaves [] [] []
  | left {xs ys zs : List α} (x : α) (h : Interleaves xs ys zs) : Interleaves (x :: xs) ys (x :: zs)
  | right {xs ys zs : List α} (y : α) (h : Interleaves xs ys zs) :
    Interleaves xs (y :: ys) (y :: zs)

namespace Interleaves

variable {α β : Type} {xs ys zs : List α}

theorem symm (h : Interleaves xs ys zs) : Interleaves ys xs zs := by
  induction h with
  | nil => exact .nil
  | left x _ ih => exact .right x ih
  | right y _ ih => exact .left y ih

theorem mem_iff (h : Interleaves xs ys zs) {x : α} : x ∈ zs ↔ x ∈ xs ∨ x ∈ ys := by
  induction h with
  | nil => simp
  | left _ _ ih => rw [List.mem_cons, ih, List.mem_cons, or_assoc]
  | right _ _ ih => rw [List.mem_cons, ih, List.mem_cons, or_left_comm]

theorem length_eq (h : Interleaves xs ys zs) : zs.length = xs.length + ys.length := by
  induction h with
  | nil => rfl
  | left _ _ ih | right _ _ ih =>
    simp only [List.length_cons, ih]
    omega

theorem append_left (h : Interleaves xs ys zs) (ws : List α) :
    Interleaves (xs ++ ws) ys (zs ++ ws) := by
  induction h with
  | nil =>
    induction ws with
    | nil => exact .nil
    | cons w ws ih => exact .left w ih
  | left x _ ih => exact .left x ih
  | right y _ ih => exact .right y ih

theorem filterMap (h : Interleaves xs ys zs) (f : α → Option β) :
    Interleaves (xs.filterMap f) (ys.filterMap f) (zs.filterMap f) := by
  induction h with
  | nil => exact .nil
  | left x _ ih =>
    cases hx : f x with
    | none => simpa only [List.filterMap_cons_none hx] using ih
    | some b => simpa only [List.filterMap_cons_some hx] using ih.left b
  | right y _ ih =>
    cases hy : f y with
    | none => simpa only [List.filterMap_cons_none hy] using ih
    | some b => simpa only [List.filterMap_cons_some hy] using ih.right b

theorem map (h : Interleaves xs ys zs) (f : α → β) :
    Interleaves (xs.map f) (ys.map f) (zs.map f) := by
  induction h with
  | nil => exact .nil
  | left x _ ih => exact .left (f x) ih
  | right y _ ih => exact .right (f y) ih

theorem filter_eq_left (h : Interleaves xs ys zs) {p : α → Bool} (hxs : ∀ x ∈ xs, p x)
    (hys : ∀ y ∈ ys, ¬p y) : zs.filter p = xs := by
  induction h with
  | nil => rfl
  | left x _ ih =>
    obtain ⟨hx, hxs⟩ := List.forall_mem_cons.mp hxs
    rw [List.filter_cons_of_pos hx, ih hxs hys]
  | right y _ ih =>
    obtain ⟨hy, hys⟩ := List.forall_mem_cons.mp hys
    rw [List.filter_cons_of_neg hy, ih hxs hys]

end Interleaves

/-! ## The variables of a part -/

namespace Unify

theorem lookup_extend (σ : Substitution) (events : List UnifyEvent) (v : TypeVar) :
    (extend σ events).lookup v = ((extend .empty events).lookup v).or (σ.lookup v) := by
  induction events generalizing σ with
  | nil => simp only [extend, List.foldl_nil, Substitution.lookup_empty, Option.none_or]
  | cons e events ih =>
    obtain ⟨s, t, o⟩ := e
    cases o with
    | bind w u =>
      change (extend (σ.bind w u) events).lookup v =
        ((extend (Substitution.empty.bind w u) events).lookup v).or (σ.lookup v)
      rw [ih, ih (.bind .empty w u), Option.or_assoc, Substitution.lookup_bind,
        Substitution.lookup_bind, Substitution.lookup_empty]
      split <;> simp
    | _ => exact ih σ

end Unify

namespace Substitution

variable {P Q : TypeVar → Prop} {σ τ ρ : Substitution} {s t : Ty}

/-- Of the variables of a kind, and of no others, the second substitution binds
what the first one binds. -/
structure Restricts (P : TypeVar → Prop) (σ τ : Substitution) : Prop where
  acyclic : τ.Acyclic
  within : τ.Within P
  lookup : ∀ v, P v → σ.lookup v = τ.lookup v

theorem Restricts.le (h : σ.Restricts P τ) : τ ≤ σ := by
  intro v t hv
  rw [h.lookup v (h.within v t hv).1]
  exact hv

theorem Restricts.apply_eq (h : σ.Restricts P τ) (hσ : σ.Acyclic) (ht : ∀ v ∈ t.vars, P v) :
    σ.apply t = τ.apply t := by
  rw [← apply_apply_of_le hσ h.le]
  refine apply_eq_self fun v hv => ?_
  rw [h.lookup v (h.within.apply ht v hv)]
  exact h.acyclic.lookup_eq_none_of_mem_apply hv

theorem Restricts.unify_eq (h : σ.Restricts P τ) (hσ : σ.Acyclic) (hs : ∀ v ∈ s.vars, P v)
    (ht : ∀ v ∈ t.vars, P v) : σ.unify s t = τ.unify s t := by
  rw [unify, unify, h.apply_eq hσ hs, h.apply_eq hσ ht]

/-- Making types of these variables equal changes both alike. -/
theorem Restricts.extend (h : σ.Restricts P τ) (hσ : σ.Acyclic) (hs : ∀ v ∈ s.vars, P v)
    (ht : ∀ v ∈ t.vars, P v) :
    (Unify.extend σ (σ.unify s t)).Restricts P (Unify.extend τ (τ.unify s t)) := by
  refine ⟨(h.acyclic.extends_unify s t).acyclic h.acyclic, h.within.unify hs ht, fun v hv => ?_⟩
  rw [h.unify_eq hσ hs ht, Unify.lookup_extend, h.lookup v hv, ← Unify.lookup_extend]

/-- Making types of other variables equal makes no difference. -/
theorem Restricts.extend_other (h : σ.Restricts P τ) (hQ : ∀ v, P v → ¬Q v)
    (hσQ : σ.Restricts Q ρ) (hσ : σ.Acyclic) (hs : ∀ v ∈ s.vars, Q v) (ht : ∀ v ∈ t.vars, Q v) :
    (Unify.extend σ (σ.unify s t)).Restricts P τ := by
  refine ⟨h.acyclic, h.within, fun v hv => ?_⟩
  have hnew : (Unify.extend .empty (σ.unify s t)).Within Q := by
    refine Unify.within_extend_run _ (fun w hw => ?_) within_empty
    obtain ⟨p, hp, hw⟩ := Unify.mem_pairVars.mp hw
    rw [List.mem_singleton.mp hp, hσQ.apply_eq hσ hs, hσQ.apply_eq hσ ht] at hw
    exact hw.elim (hσQ.within.apply hs w) (hσQ.within.apply ht w)
  have hnone : (Unify.extend .empty (σ.unify s t)).lookup v = none := by
    cases hlookup : (Unify.extend .empty (σ.unify s t)).lookup v with
    | none => rfl
    | some u => exact absurd (hnew v u hlookup).1 (hQ v hv)
  rw [Unify.lookup_extend, hnone, Option.none_or]
  exact h.lookup v hv

variable {es : List Equation}

theorem Restricts.fits_eq (h : σ.Restricts P τ) (hσ : σ.Acyclic)
    (hes : ∀ e ∈ es, ∀ v ∈ e.vars, P v) : σ.fits es = τ.fits es := by
  induction es generalizing σ τ with
  | nil => rfl
  | cons e es ih =>
    obtain ⟨he, hes⟩ := List.forall_mem_cons.mp hes
    have hs : ∀ v ∈ e.expected.vars, P v := fun v hv => he v (List.mem_append_left _ hv)
    have ht : ∀ v ∈ e.actual.vars, P v := fun v hv => he v (List.mem_append_right _ hv)
    have hσ' := (hσ.extends_unify e.expected e.actual).acyclic hσ
    simp only [fits]
    rw [ih (h.extend hσ hs ht) hσ' hes, h.unify_eq hσ hs ht]

theorem Restricts.viable_eq (h : σ.Restricts P τ) (hσ : σ.Acyclic)
    {candidates : List (List Equation)} (hc : ∀ es ∈ candidates, ∀ e ∈ es, ∀ v ∈ e.vars, P v)
    (i : Nat) : σ.viable i candidates = τ.viable i candidates := by
  induction candidates generalizing i with
  | nil => rfl
  | cons es rest ih =>
    obtain ⟨hes, hrest⟩ := List.forall_mem_cons.mp hc
    simp only [viable, h.fits_eq hσ hes, ih hrest]

end Substitution

/-! ## Sessions side by side -/

namespace Constraint

/-- The nodes that a constraint and the equations in it are demanded at. -/
def nodes (k : Constraint) : List NodeId :=
  k.provenance.node :: k.equations.map fun e => e.provenance.node

def allVars (cs : List Constraint) : List TypeVar := cs.flatMap vars

def allNodes (cs : List Constraint) : List NodeId := cs.flatMap nodes

variable {cs : List Constraint} {k : Constraint} {e : Equation}

theorem mem_allVars_of_equation (hk : k ∈ cs) (he : e ∈ k.equations) {v : TypeVar}
    (hv : v ∈ e.vars) : v ∈ allVars cs := by
  refine List.mem_flatMap.mpr ⟨k, hk, ?_⟩
  rw [k.vars_eq_flatMap_equations]
  exact List.mem_flatMap.mpr ⟨e, he, hv⟩

theorem mem_allNodes (hk : k ∈ cs) : k.provenance.node ∈ allNodes cs :=
  List.mem_flatMap.mpr ⟨k, hk, List.mem_cons_self⟩

theorem mem_allNodes_of_equation (hk : k ∈ cs) (he : e ∈ k.equations) :
    e.provenance.node ∈ allNodes cs :=
  List.mem_flatMap.mpr ⟨k, hk, List.mem_cons_of_mem _ (List.mem_map_of_mem he)⟩

end Constraint

open Constraint

theorem Failure.provenance_of_event {p : Provenance} {e : UnifyEvent} {f : Failure}
    (h : Failure.ofEvent? p e = some f) : f.provenance = p := by
  unfold Failure.ofEvent? at h
  split at h <;> cases h <;> rfl

namespace Session

/-- A session that knows of the variables of some constraints what another
knows, and of nothing else. -/
structure Part (cs : List Constraint) (s t : Session) : Prop where
  restricts : s.substitution.Restricts (· ∈ allVars cs) t.substitution
  nodes : ∀ f ∈ t.failures, f.node ∈ allNodes cs

/-- A session on two lists of constraints at once, next to one on each. -/
structure Joins (cs₁ cs₂ : List Constraint) (s s₁ s₂ : Session) : Prop where
  apart : (allVars cs₁).Disjoint (allVars cs₂)
  acyclic : s.substitution.Acyclic
  first : Part cs₁ s s₁
  second : Part cs₂ s s₂
  clean : s.failures = #[] ↔ s₁.failures = #[] ∧ s₂.failures = #[]
  failures : (allNodes cs₁).Disjoint (allNodes cs₂) →
    Interleaves s₁.failures.toList s₂.failures.toList s.failures.toList

namespace Joins

variable {cs₁ cs₂ : List Constraint} {s s₁ s₂ : Session}

theorem symm (h : Joins cs₁ cs₂ s s₁ s₂) : Joins cs₂ cs₁ s s₂ s₁ :=
  ⟨h.apart.symm, h.acyclic, h.second, h.first, h.clean.trans and_comm,
    fun hn => (h.failures hn.symm).symm⟩

/-- Traces make no difference. -/
theorem of_eq {t t₁ : Session} (h : Joins cs₁ cs₂ s s₁ s₂) (hsub : t.substitution = s.substitution)
    (hfail : t.failures = s.failures) (hsub₁ : t₁.substitution = s₁.substitution)
    (hfail₁ : t₁.failures = s₁.failures) : Joins cs₁ cs₂ t t₁ s₂ := by
  obtain ⟨hapart, hacyclic, ⟨hrestricts, hnodes⟩, ⟨hother, hnodes'⟩, hclean, hfailures⟩ := h
  rw [← hsub] at hacyclic hother
  rw [← hsub, ← hsub₁] at hrestricts
  rw [← hfail₁] at hnodes
  rw [← hfail, ← hfail₁] at hclean hfailures
  exact ⟨hapart, hacyclic, ⟨hrestricts, hnodes⟩, ⟨hother, hnodes'⟩, hclean, hfailures⟩

theorem unify {k : Constraint} {e : Equation} (h : Joins cs₁ cs₂ s s₁ s₂) (hk : k ∈ cs₁)
    (he : e ∈ k.equations) : Joins cs₁ cs₂ (s.unify e) (s₁.unify e) s₂ := by
  have hs : ∀ v ∈ e.expected.vars, v ∈ allVars cs₁ :=
    fun v hv => mem_allVars_of_equation hk he (List.mem_append_left _ hv)
  have ht : ∀ v ∈ e.actual.vars, v ∈ allVars cs₁ :=
    fun v hv => mem_allVars_of_equation hk he (List.mem_append_right _ hv)
  have hevents := h.first.restricts.unify_eq h.acyclic hs ht
  refine ⟨h.apart, (h.acyclic.extends_unify _ _).acyclic h.acyclic,
    ⟨h.first.restricts.extend h.acyclic hs ht, ?_⟩, ⟨?_, h.second.nodes⟩, ?_, fun hn => ?_⟩
  · intro f hf
    rcases Array.mem_append.mp hf with hf | hf
    · exact h.first.nodes f hf
    · obtain ⟨event, _, hf⟩ := List.mem_filterMap.mp (List.mem_toArray.mp hf)
      rw [Failure.node, Failure.provenance_of_event hf]
      exact mem_allNodes_of_equation hk he
  · exact h.second.restricts.extend_other (fun _ hv hv' => h.apart hv' hv) h.first.restricts
      h.acyclic hs ht
  · rw [failures_unify_eq_empty_iff, failures_unify_eq_empty_iff, h.clean, hevents]
    exact and_right_comm
  · simp only [Session.unify, absorb, hevents, Array.toList_append]
    exact (h.failures hn).append_left _

/-- Whether something has failed at a node of a part is known to that part. -/
theorem any_failures_eq (h : Joins cs₁ cs₂ s s₁ s₂)
    (hn : (allNodes cs₁).Disjoint (allNodes cs₂)) {n : NodeId} (hmem : n ∈ allNodes cs₁) :
    s.failures.any (·.node = n) = s₁.failures.any (·.node = n) := by
  have hfailures (f : Failure) : f ∈ s.failures ↔ f ∈ s₁.failures ∨ f ∈ s₂.failures := by
    simpa only [Array.mem_toList_iff] using (h.failures hn).mem_iff (x := f)
  rw [Bool.eq_iff_iff]
  simp only [Array.any_eq_true', decide_eq_true_eq, hfailures]
  constructor
  · rintro ⟨f, hf | hf, rfl⟩
    · exact ⟨f, hf, rfl⟩
    · exact absurd (h.second.nodes f hf) (hn hmem)
  · rintro ⟨f, hf, rfl⟩
    exact ⟨f, .inl hf, rfl⟩

theorem current_eq {c : Choice} (h : Joins cs₁ cs₂ s s₁ s₂) (hc : .oneOf c ∈ cs₁) :
    s.current c = s₁.current c := by
  unfold current
  congr 1
  refine List.map_congr_left fun es hes => List.map_congr_left fun e he => ?_
  have hmem : e ∈ (Constraint.oneOf c).equations := List.mem_flatten.mpr ⟨es, hes, he⟩
  rw [h.first.restricts.apply_eq h.acyclic fun v hv =>
    mem_allVars_of_equation hc hmem (List.mem_append_left _ hv)]

theorem reportExhausted {c : Choice} (h : Joins cs₁ cs₂ s s₁ s₂) (hc : .oneOf c ∈ cs₁) :
    Joins cs₁ cs₂ (s.reportExhausted c) (s₁.reportExhausted c) s₂ := by
  refine ⟨h.apart, ?_, ⟨?_, ?_⟩, ⟨?_, h.second.nodes⟩, ?_, fun hn => ?_⟩
  · rw [substitution_reportExhausted]
    exact h.acyclic
  · rw [substitution_reportExhausted, substitution_reportExhausted]
    exact h.first.restricts
  · intro f hf
    unfold Session.reportExhausted at hf
    split at hf
    · exact h.first.nodes f hf
    · rcases Array.mem_push.mp hf with hf | rfl
      · exact h.first.nodes f hf
      · exact mem_allNodes hc
  · rw [substitution_reportExhausted]
    exact h.second.restricts
  · simp [failures_reportExhausted_ne]
  · have hany : s.failures.any (·.node = c.provenance.node) =
        s₁.failures.any (·.node = c.provenance.node) := h.any_failures_eq hn (mem_allNodes hc)
    unfold Session.reportExhausted
    rw [hany, h.current_eq hc]
    split
    · exact h.failures hn
    · simp only [fail, Array.toList_push]
      exact (h.failures hn).append_left _

theorem commit {c : Choice} (h : Joins cs₁ cs₂ s s₁ s₂) (hc : .oneOf c ∈ cs₁)
    (action : UnifyAction) (i : Nat) :
    Joins cs₁ cs₂ (s.commit action c i) (s₁.commit action c i) s₂ := by
  unfold Session.commit
  cases hi : c.candidates[i]? with
  | none => exact h
  | some candidate =>
    have hes : ∀ e ∈ candidate, e ∈ (Constraint.oneOf c).equations :=
      fun e he => List.mem_flatten.mpr ⟨candidate, List.mem_of_getElem? hi, he⟩
    have hlog := h.of_eq (substitution_log s fun _ => [c.commitLine action i candidate])
      (failures_log s _) (substitution_log s₁ fun _ => [c.commitLine action i candidate])
      (failures_log s₁ _)
    clear hi
    dsimp only
    generalize s.log _ = t at hlog ⊢
    generalize s₁.log _ = t₁ at hlog ⊢
    induction candidate generalizing t t₁ with
    | nil => exact hlog
    | cons e es ih =>
      obtain ⟨he, hes⟩ := List.forall_mem_cons.mp hes
      exact ih hes _ _ (hlog.unify hc he)

theorem viable_eq {c : Choice} (h : Joins cs₁ cs₂ s s₁ s₂) (hc : .oneOf c ∈ cs₁) :
    s.viable c = s₁.viable c := by
  refine h.first.restricts.viable_eq h.acyclic (fun es hes e he v hv => ?_) 0
  exact mem_allVars_of_equation hc (List.mem_flatten.mpr ⟨es, hes, he⟩) hv

theorem decideFirst {c : Choice} (h : Joins cs₁ cs₂ s s₁ s₂) (hc : .oneOf c ∈ cs₁) :
    Joins cs₁ cs₂ (s.decideFirst c) (s₁.decideFirst c) s₂ := by
  unfold Session.decideFirst
  rw [h.viable_eq hc]
  cases s₁.viable c with
  | nil => exact h.reportExhausted hc
  | cons i more => exact h.commit hc _ i

end Joins

/-! ## Merged runs -/

section

variable (cs₁ cs₂ : List Constraint)

/-- Wherever sessions stand side by side, a pass through the merged choices
leaves the choices merged and the sessions side by side. -/
def PassesSideBySide (ps₁ ps₂ ps : List Choice) : Prop :=
  ∀ s s₁ s₂, Joins cs₁ cs₂ s s₁ s₂ →
    Interleaves (s₁.pass ps₁).1 (s₂.pass ps₂).1 (s.pass ps).1 ∧
    Joins cs₁ cs₂ (s.pass ps).2 (s₁.pass ps₁).2 (s₂.pass ps₂).2

end

variable {cs₁ cs₂ : List Constraint} {s s₁ s₂ : Session} {c : Choice} {ps₁ ps₂ ps : List Choice}

theorem PassesSideBySide.symm (h : PassesSideBySide cs₁ cs₂ ps₁ ps₂ ps) :
    PassesSideBySide cs₂ cs₁ ps₂ ps₁ ps := by
  intro s s₁ s₂ hs
  obtain ⟨hwaiting, hpass⟩ := h s s₂ s₁ hs.symm
  exact ⟨hwaiting.symm, hpass.symm⟩

theorem PassesSideBySide.left (h : PassesSideBySide cs₁ cs₂ ps₁ ps₂ ps) (hc : .oneOf c ∈ cs₁) :
    PassesSideBySide cs₁ cs₂ (c :: ps₁) ps₂ (c :: ps) := by
  intro s s₁ s₂ hs
  have hviable := hs.viable_eq hc
  match hfound : s₁.viable c with
  | [] =>
    rw [pass_of_exhausted hfound, pass_of_exhausted (hviable.trans hfound)]
    exact h _ _ _ (hs.reportExhausted hc)
  | [i] =>
    rw [pass_of_forced hfound, pass_of_forced (hviable.trans hfound)]
    exact h _ _ _ (hs.commit hc _ i)
  | i :: j :: more =>
    rw [pass_of_open hfound, pass_of_open (hviable.trans hfound)]
    obtain ⟨hwaiting, hpass⟩ := h s s₁ s₂ hs
    exact ⟨hwaiting.left c, hpass⟩

theorem passesSideBySide (h : Interleaves ps₁ ps₂ ps) (h₁ : ∀ c ∈ ps₁, .oneOf c ∈ cs₁)
    (h₂ : ∀ c ∈ ps₂, .oneOf c ∈ cs₂) : PassesSideBySide cs₁ cs₂ ps₁ ps₂ ps := by
  induction h with
  | nil => exact fun s s₁ s₂ hs => ⟨.nil, hs⟩
  | left c _ ih =>
    obtain ⟨hc, h₁⟩ := List.forall_mem_cons.mp h₁
    exact (ih h₁ h₂).left hc
  | right c _ ih =>
    obtain ⟨hc, h₂⟩ := List.forall_mem_cons.mp h₂
    exact ((ih h₁ h₂).symm.left hc).symm

/-- Sessions that stand side by side still do when all choices are settled. -/
theorem Joins.settle (hs : Joins cs₁ cs₂ s s₁ s₂) (h : Interleaves ps₁ ps₂ ps)
    (h₁ : ∀ c ∈ ps₁, .oneOf c ∈ cs₁) (h₂ : ∀ c ∈ ps₂, .oneOf c ∈ cs₂) :
    Joins cs₁ cs₂ (s.settle ps) (s₁.settle ps₁) (s₂.settle ps₂) := by
  induction hn : ps.length using Nat.strong_induction_on generalizing ps₁ ps₂ ps s s₁ s₂ with
  | _ n ih =>
    subst hn
    obtain ⟨hwaiting, hpass⟩ := passesSideBySide h h₁ h₂ s s₁ s₂ hs
    by_cases hlt : (s.pass ps).1.length < ps.length
    · rw [← settle_pass s, ← settle_pass s₁, ← settle_pass s₂]
      refine ih _ hlt hpass hwaiting (fun c hc => h₁ c ?_) (fun c hc => h₂ c ?_) rfl
      · exact (s₁.sublist_pass ps₁).subset hc
      · exact (s₂.sublist_pass ps₂).subset hc
    · -- All choices wait, so the pass has changed nothing in either part.
      have hlen := h.length_eq
      have hlen' := hwaiting.length_eq
      have hle₁ := s₁.length_pass_le ps₁
      have hle₂ := s₂.length_pass_le ps₂
      have hidle : s.pass ps = (ps, s) := pass_eq_self (Nat.not_lt.mp hlt)
      have hidle₁ : s₁.pass ps₁ = (ps₁, s₁) := pass_eq_self (by omega)
      have hidle₂ : s₂.pass ps₂ = (ps₂, s₂) := pass_eq_self (by omega)
      cases h with
      | nil =>
        simp only [settle_nil]
        exact hs
      | left c h =>
        obtain ⟨hc, h₁⟩ := List.forall_mem_cons.mp h₁
        rw [settle_of_idle hidle, settle_of_idle hidle₁]
        exact ih _ (Nat.lt_succ_self _) (hs.decideFirst hc) h h₁ h₂ rfl
      | right c h =>
        obtain ⟨hc, h₂⟩ := List.forall_mem_cons.mp h₂
        rw [settle_of_idle hidle, settle_of_idle hidle₂]
        exact ih _ (Nat.lt_succ_self _) (hs.symm.decideFirst hc).symm h h₁ h₂ rfl

theorem Joins.foldl_unify {es₁ es₂ es : List Equation} (hs : Joins cs₁ cs₂ s s₁ s₂)
    (h : Interleaves es₁ es₂ es) (h₁ : ∀ e ∈ es₁, .equal e ∈ cs₁) (h₂ : ∀ e ∈ es₂, .equal e ∈ cs₂) :
    Joins cs₁ cs₂ (es.foldl Session.unify s) (es₁.foldl Session.unify s₁)
      (es₂.foldl Session.unify s₂) := by
  induction h generalizing s s₁ s₂ with
  | nil => exact hs
  | left e _ ih =>
    obtain ⟨he, h₁⟩ := List.forall_mem_cons.mp h₁
    exact ih (hs.unify he (List.mem_singleton_self e)) h₁ h₂
  | right e _ ih =>
    obtain ⟨he, h₂⟩ := List.forall_mem_cons.mp h₂
    exact ih (hs.symm.unify he (List.mem_singleton_self e)).symm h₁ h₂

theorem joins_completed {cs : List Constraint} (o : Options)
    (hvars : (allVars cs₁).Disjoint (allVars cs₂)) (h : Interleaves cs₁ cs₂ cs) :
    Joins cs₁ cs₂ ((ofOptions o).completed cs) ((ofOptions o).completed cs₁)
      ((ofOptions o).completed cs₂) := by
  have hempty (ks : List Constraint) :
      Part ks ((ofOptions o).constrain cs) ((ofOptions o).constrain ks) :=
    ⟨⟨Substitution.acyclic_empty, Substitution.within_empty, fun _ _ => rfl⟩, nofun⟩
  have hstart : Joins cs₁ cs₂ ((ofOptions o).constrain cs) ((ofOptions o).constrain cs₁)
      ((ofOptions o).constrain cs₂) := by
    refine ⟨hvars, Substitution.acyclic_empty, hempty cs₁, hempty cs₂, ?_, fun _ => .nil⟩
    exact iff_of_true rfl ⟨rfl, rfl⟩
  have hequations := hstart.foldl_unify (h.filterMap _)
    (fun e he => Solving.mem_equations_iff.mp he) fun e he => Solving.mem_equations_iff.mp he
  exact hequations.settle (h.filterMap _) (fun c hc => Solving.mem_choices_iff.mp hc)
    fun c hc => Solving.mem_choices_iff.mp hc

/-- The failures at the nodes of a part are those of the part. -/
theorem Joins.filter_diagnostics (hs : Joins cs₁ cs₂ s s₁ s₂)
    (hn : (allNodes cs₁).Disjoint (allNodes cs₂)) :
    (Solution.ofSession s).diagnostics.filter (·.location.any (· ∈ allNodes cs₁)) =
      (Solution.ofSession s₁).diagnostics := by
  refine ((hs.failures hn).map Failure.toDiagnostic).filter_eq_left ?_ ?_
  · refine List.forall_mem_map.mpr fun f hf => ?_
    exact decide_eq_true (hs.first.nodes f (Array.mem_toList_iff.mp hf))
  · refine List.forall_mem_map.mpr fun f hf hmem => ?_
    exact hn (of_decide_eq_true hmem) (hs.second.nodes f (Array.mem_toList_iff.mp hf))

/-- Two lists without a common variable, merged in any way, are solved as each
is alone: the variables of each get the bindings they get alone, also if the
other fails, and it fails exactly if one of them does. Where the nodes are
different too, each has its own diagnostics, in their order. -/
theorem ofOptions_solve_interleaved (o o' : Options) {cs₁ cs₂ cs : List Constraint}
    (hvars : (allVars cs₁).Disjoint (allVars cs₂)) (h : Interleaves cs₁ cs₂ cs)
    (hstop : ∀ ks ∈ [cs₁, cs₂, cs], ((ofOptions o).solve o' ks).Unstopped) :
    let x := (ofOptions o).solve o' cs
    let x₁ := (ofOptions o).solve o' cs₁
    let x₂ := (ofOptions o).solve o' cs₂
    (∀ v ∈ allVars cs₁, x.session.substitution.lookup v = x₁.session.substitution.lookup v) ∧
    (∀ v ∈ allVars cs₂, x.session.substitution.lookup v = x₂.session.substitution.lookup v) ∧
    (x.hasErrors ↔ x₁.hasErrors ∨ x₂.hasErrors) ∧
    ((allNodes cs₁).Disjoint (allNodes cs₂) →
      x.diagnostics.filter (·.location.any (· ∈ allNodes cs₁)) = x₁.diagnostics ∧
      x.diagnostics.filter (·.location.any (· ∈ allNodes cs₂)) = x₂.diagnostics) := by
  obtain ⟨h₁, h₂, hall⟩ : ((ofOptions o).solve o' cs₁).Unstopped ∧
      ((ofOptions o).solve o' cs₂).Unstopped ∧ ((ofOptions o).solve o' cs).Unstopped := by
    simpa using hstop
  have hs := joins_completed o hvars h
  intro x x₁ x₂
  simp only [x, x₁, x₂, solve_eq_of_unstopped h₁, solve_eq_of_unstopped h₂,
    solve_eq_of_unstopped hall]
  refine ⟨hs.first.restricts.lookup, hs.second.restricts.lookup, ?_,
    fun hn => ⟨hs.filter_diagnostics hn, hs.symm.filter_diagnostics hn.symm⟩⟩
  have hclean := hs.clean
  simp only [← Array.toList_eq_nil_iff] at hclean
  simp only [Solution.hasErrors, Solution.ofSession, Bool.not_eq_true', List.isEmpty_eq_false_iff,
    ne_eq, hclean]
  tauto

/-- An identity is decided by default while the choice of a number between sets
of strings fails. -/
theorem ofOptions_solve_interleaved_identity :
    let eqn (n : NodeId) (s t : Ty) : Equation := ⟨s, t, n, .exprType⟩
    let set : Constraint := .equal (eqn ⟨0⟩ (.set (.string ⟨0⟩) .none) (.var ⟨0⟩))
    let number : Constraint :=
      .oneOf ⟨[[eqn ⟨1⟩ (.var ⟨0⟩) (.int ⟨1⟩)], [eqn ⟨1⟩ (.var ⟨0⟩) (.real ⟨1⟩)]], ⟨1⟩, .exprType⟩
    let identity : Constraint :=
      .oneOf ⟨[[eqn ⟨2⟩ (.var ⟨1⟩) (.int ⟨2⟩)], [eqn ⟨2⟩ (.var ⟨1⟩) (.string ⟨2⟩)]], ⟨2⟩, .identity⟩
    let x := (ofOptions {}).solve {} [set, identity, number]
    (∀ ks ∈ [[set, number], [identity], [set, identity, number]],
      ((ofOptions {}).solve {} ks).Unstopped) ∧
    x.hasErrors ∧ x.session.substitution.lookup ⟨1⟩ = some (.int ⟨2⟩) ∧
    x.diagnostics.filter (·.location.any (· ∈ allNodes [identity])) = [] := by
  intro eqn set number identity x
  have hstop : ∀ ks ∈ [[set, number], [identity], [set, identity, number]],
      ((ofOptions {}).solve {} ks).Unstopped := of_decide_eq_true (by cbv)
  obtain ⟨_, hlookup, herrors, hdiagnostics⟩ := ofOptions_solve_interleaved {} {}
    (List.disjoint_left.mpr (by decide)) (.left set (.right identity (.left number .nil))) hstop
  refine ⟨hstop, herrors.mpr (.inl (by cbv)), (hlookup ⟨1⟩ (by decide)).trans (by cbv), ?_⟩
  exact (hdiagnostics (List.disjoint_left.mpr (by decide))).2.trans (by cbv)

end Session

end PlusCalTyping
