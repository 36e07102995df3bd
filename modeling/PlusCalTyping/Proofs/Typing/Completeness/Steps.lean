import PlusCalTyping.Proofs.Typing.Completeness.Filling

/-! # Steps that keep a draft filled in

A part of an algorithm reaches a later filling from one of the draft before it.
A new variable may stand for any type; a constraint may be demanded where the
types of both sides stand for one type. Parts are put together by `Reaches.bind`,
which moves what was known of the earlier filling on to the later one.
-/

namespace PlusCalTyping.Drafting

open Filling

variable {α β : Type} {τ : Typing} {p : Filling τ}

/-- From a filling the part goes on to a later one, of which the predicate holds
with the result of the part. -/
def Reaches (m : Drafting α) (p : Filling τ) (Q : Filling τ → α → Prop) : Prop :=
  ∃ q : Filling τ, p ≤ q ∧ q.draft = (m p.draft).2 ∧ Q q (m p.draft).1

variable {m : Drafting α} {f : α → Drafting β} {Q Q' : Filling τ → α → Prop}

theorem reaches_pure {x : α} (h : Q p x) : Reaches (pure x) p Q := ⟨p, le_refl p, rfl, h⟩

theorem Reaches.bind {R : Filling τ → β → Prop} (h : Reaches m p Q)
    (hf : ∀ q x, p ≤ q → Q q x → Reaches (f x) q R) : Reaches (m >>= f) p R := by
  obtain ⟨q, hpq, hq, hx⟩ := h
  obtain ⟨s, hqs, hs, hy⟩ := hf q _ hpq hx
  rw [hq] at hs hy
  exact ⟨s, hpq.trans hqs, hs, hy⟩

theorem Reaches.mono (h : Reaches m p Q) (hQ : ∀ q x, p ≤ q → Q q x → Q' q x) :
    Reaches m p Q' := by
  obtain ⟨q, hpq, hq, hx⟩ := h
  exact ⟨q, hpq, hq, hQ q _ hpq hx⟩

theorem reaches_get : Reaches get p fun q d => q = p ∧ d = p.draft :=
  ⟨p, le_refl p, rfl, rfl, rfl⟩

theorem reaches_forM {γ : Type} {g : γ → Drafting Unit} {xs : List γ}
    (h : ∀ x ∈ xs, ∀ q : Filling τ, Reaches (g x) q fun _ _ => True) (p : Filling τ) :
    Reaches (xs.forM g) p fun _ _ => True := by
  induction xs generalizing p with
  | nil => exact reaches_pure trivial
  | cons x xs ih =>
    obtain ⟨hx, hxs⟩ := List.forall_mem_cons.mp h
    exact (hx p).bind fun q _ _ _ => ih hxs q

/-! ## New variables -/

theorem reaches_fresh (p : Filling τ) (t : Ty) : Reaches fresh p fun q u => q.Denotes u t := by
  refine ⟨_, p.le_grow (fresh p.draft).2 t rfl (Nat.le_succ _) (fun _ _ => .inl) fun _ _ => .inl,
    rfl, ?_, ?_, ?_⟩
  · intro v hv
    rw [List.mem_singleton.mp hv]
    exact Nat.lt_succ_self _
  · change (p.assign t ⟨p.next⟩).agrees t
    rw [assign_of_le (le_refl p.next)]
    exact Ty.agrees_refl t
  · intro v hv n hn
    cases List.mem_singleton.mp hv
    exact absurd hn (p.vars_ne_of_le (le_refl p.next))

theorem reaches_varOf (p : Filling τ) (n : NodeId) :
    Reaches (varOf n) p fun q v => q.Suits n (.var v) := by
  unfold Reaches varOf
  cases h : p.draft.vars[n]? with
  | some v => exact ⟨p, le_refl p, rfl, p.vars n v h⟩
  | none =>
    let d : Draft := { p.draft with
      collection := p.draft.collection.fresh.2
      vars := p.draft.vars.insert n p.draft.collection.fresh.1 }
    have hopens : p.Opens d (τ.typeAt n) n ⟨p.next⟩ := by
      refine ⟨le_refl p.next, Nat.lt_succ_self _, rfl, fun m hm => ?_⟩
      rw [Std.TreeMap.getElem?_insert] at hm
      split at hm
      · next heq => exact (Std.LawfulEqCmp.compare_eq_iff_eq.mp heq).symm
      · exact absurd hm (p.vars_ne_of_le (le_refl p.next))
    have hvars (n' : NodeId) (v : TypeVar) (hv : d.vars[n']? = some v) :
        p.draft.vars[n']? = some v ∨ p.Opens d (τ.typeAt n) n' v := by
      rw [Std.TreeMap.getElem?_insert] at hv
      split at hv
      · next heq =>
        cases hv
        rw [← Std.LawfulEqCmp.compare_eq_iff_eq.mp heq]
        exact .inr hopens
      · exact .inl hv
    exact ⟨_, p.le_grow d (τ.typeAt n) rfl (Nat.le_succ _) hvars fun _ _ => .inl, rfl,
      hopens.suits⟩

theorem reaches_addSlots (x : Param) (p : Filling τ) :
    Reaches (addSlots x) p fun _ _ => True := by
  let d : Draft := (addSlots x p.draft).2
  have honly (v : TypeVar) (hv : p.next ≤ v.index) (m : NodeId) (hm : d.vars[m]? = some v) :
      m = x.decl.id := absurd hm (p.vars_ne_of_le hv)
  have hslots (n : NodeId) (s : Slots) (hs : d.slots[n]? = some s) :
      p.draft.slots[n]? = some s ∨
        p.Opens d (τ.typeAt x.decl.id) n s.read ∧ p.Opens d (τ.typeAt x.decl.id) n s.written := by
    have hs := Std.TreeMap.getElem?_insert.symm.trans hs
    split at hs
    · next heq =>
      cases hs
      rw [← Std.LawfulEqCmp.compare_eq_iff_eq.mp heq]
      refine .inr ⟨⟨le_refl p.next, ?_, rfl, honly _ (le_refl p.next)⟩,
        ⟨Nat.le_succ p.next, ?_, rfl, honly _ (Nat.le_succ p.next)⟩⟩
      · exact Nat.lt_add_of_pos_right Nat.two_pos
      · exact Nat.lt_succ_self _
    · exact .inl hs
  have hnext : p.next ≤ d.next := Nat.le_add_right p.next 2
  exact ⟨_, p.le_grow d (τ.typeAt x.decl.id) rfl hnext (fun _ _ => .inl) hslots, rfl, trivial⟩

theorem reaches_typeOf (p : Filling τ) (n : NodeId) :
    Reaches (typeOf n) p fun q t => q.Suits n t :=
  (reaches_varOf p n).bind fun _ _ _ hv => reaches_pure hv

/-! ## Constraints -/

theorem reaches_record (p : Filling τ) (n : NodeId) (rule : TypingRule) (t : Ty)
    (detail : String) : Reaches (record n rule t detail) p fun _ _ => True := by
  let d : Draft := { p.draft with collection := p.draft.collection.record n rule t detail }
  have hnext : p.next ≤ d.next := by
    simp only [d, Draft.next, Collection.supply_record]
    exact le_refl p.next
  have hconstraints := p.draft.collection.constraints_record n rule t detail
  exact ⟨_, p.le_grow d t hconstraints hnext (fun _ _ => .inl) fun _ _ => .inl, rfl, trivial⟩

theorem reaches_add {k : Constraint} (hbounded : ∀ v ∈ k.vars, v.index < p.next)
    (h : p.valuation.Satisfies k) (hgrants : τ.Grants p.draft k.vars) :
    Reaches (add k) p fun _ _ => True := by
  have hkeep {n : NodeId} {t : Ty} (h : τ.Suits p.draft p.valuation n t) :
      τ.Suits (add k p.draft).2 p.valuation n t := ⟨h.below, h.agrees, h.grants⟩
  let q : Filling τ := {
    draft := (add k p.draft).2
    valuation := p.valuation
    bounded := fun k' hk' => (Array.mem_push.mp hk').elim (p.bounded k') fun heq => heq ▸ hbounded
    satisfies := fun k' hk' => (Array.mem_push.mp hk').elim (p.satisfies k') fun heq => heq ▸ h
    grants := fun k' hk' => (Array.mem_push.mp hk').elim (p.grants k') fun heq => heq ▸ hgrants
    vars := fun n v hv => hkeep (p.vars n v hv)
    slots := fun n s hs v hv => hkeep (p.slots n s hs v hv) }
  exact ⟨q, ⟨le_refl p.next, fun _ _ => rfl, fun _ _ _ => id⟩, rfl, trivial⟩

/-- Types that stand for one type may be demanded to be equal. -/
theorem reaches_demand {s t u : Ty} (hs : p.Denotes s u) (ht : p.Denotes t u) (n : NodeId)
    (reason : Reason) : Reaches (demand s t n reason) p fun _ _ => True := by
  refine reaches_add (fun v hv => ?_) (Ty.agrees_trans hs.agrees (Ty.agrees_symm ht.agrees))
    fun v hv => ?_
  · exact (List.mem_append.mp hv).elim (hs.below v) (ht.below v)
  · exact (List.mem_append.mp hv).elim (hs.grants v) (ht.grants v)

theorem reaches_demandEither {t : Ty} {r r' : Prim}
    (h : p.Denotes t (.prim r .none) ∨ p.Denotes t (.prim r' .none)) (o o' : Origins)
    (n : NodeId) (reason : Reason) :
    Reaches (demandEither t (.prim r o) (.prim r' o') n reason) p fun _ _ => True := by
  have ht : t.Below p.next := h.elim (·.below) (·.below)
  have hgrants : τ.Grants p.draft t.vars := h.elim (·.grants) (·.grants)
  have hvars {v : TypeVar} (hv : v ∈ Constraint.vars (.oneOf
      ⟨[[⟨t, .prim r o, n, reason⟩], [⟨t, .prim r' o', n, reason⟩]], n, reason⟩)) : v ∈ t.vars := by
    simpa [Constraint.vars, Equation.vars, Ty.vars] using hv
  refine reaches_add (fun v hv => ht v (hvars hv)) ?_ fun v hv => hgrants v (hvars hv)
  · have hprim (x : Prim) (o'' : Origins) : (Ty.prim x .none).agrees (.prim x o'') :=
      decide_eq_true rfl
    rcases h with h | h
    · exact ⟨_, List.mem_cons_self, List.forall_mem_singleton.mpr (h.congr (hprim r o)).agrees⟩
    · refine ⟨_, List.mem_cons_of_mem _ List.mem_cons_self, List.forall_mem_singleton.mpr ?_⟩
      exact (h.congr (hprim r' o')).agrees

theorem reaches_demandBool {t : Ty} (ht : p.Denotes t (.prim .bool .none)) (n : NodeId) :
    Reaches (demandBool n t) p fun _ _ => True :=
  reaches_demand (denotes_prim .bool _ .none) ht n .condition

theorem reaches_forM_demand {s u : Ty} {ts : List Ty} (hs : p.Denotes s u)
    (hts : ∀ t ∈ ts, p.Denotes t u) (n : NodeId) (reason : Reason) :
    Reaches (ts.forM fun t => demand s t n reason) p fun _ _ => True := by
  induction ts generalizing p with
  | nil => exact reaches_pure trivial
  | cons t ts ih =>
    obtain ⟨ht, hts⟩ := List.forall_mem_cons.mp hts
    exact (reaches_demand hs ht n reason).bind fun q _ hq _ =>
      ih (hs.mono hq) fun t' ht' => (hts t' ht').mono hq

theorem reaches_demandNumeric {r : Prim} (hr : r.Numeric) {s : Ty} {ts : List Ty}
    (hs : p.Denotes s (.prim r .none)) (hts : ∀ t ∈ ts, p.Denotes t (.prim r .none)) (n : NodeId)
    (reason : Reason) : Reaches (demandNumeric s ts n reason) p fun _ _ => True := by
  apply (reaches_forM_demand hs hts n reason).bind
  intro q _ hq _
  have hs := hs.mono hq
  obtain rfl | rfl := hr
  · exact reaches_demandEither (.inl hs) _ _ n reason
  · exact reaches_demandEither (.inr hs) _ _ n reason

theorem reaches_demandIdentity (p : Filling τ) {n : NodeId} (h : τ.HasIdentity n) :
    Reaches (demandIdentity n) p fun _ _ => True := by
  apply (reaches_typeOf p n).bind
  intro q t _ ht
  have hchoice : Reaches (demandEither t (.int n) (.string n) n .identity) q fun _ _ => True :=
    reaches_demandEither (h.imp ht.denotes ht.denotes) _ _ n .identity
  exact hchoice.bind fun s _ _ _ => reaches_record s n .alternative t "Int | String"

end PlusCalTyping.Drafting
