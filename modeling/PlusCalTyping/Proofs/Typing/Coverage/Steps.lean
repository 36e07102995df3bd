import PlusCalTyping.Proofs.Typing.Completeness.Filling

/-! # Steps that give nodes their variables

Going through a part of an algorithm gives variables to some nodes and settles
the types of some expressions. A part visits nodes if afterwards all of them have
variables, and settles nodes as often as a list says (`Drafting.Visits`). On the
way the draft stays proper: only nodes of which a predicate holds have variables,
each has one of its own, and none of them is that of a slot.
-/

namespace PlusCalTyping

namespace Draft

/-- How often the type of an expression at the node was settled. -/
def settlings (d : Draft) (n : NodeId) : Nat :=
  d.collection.constraints.countP (·.provenance = ⟨n, .exprType⟩)

/-- A draft in which nodes with the predicate have variables of their own. -/
structure Proper (P : NodeId → Prop) (d : Draft) : Prop where
  within : ∀ (n : NodeId) (v : TypeVar), d.vars[n]? = some v → P n
  below : ∀ (n : NodeId) (v : TypeVar), d.vars[n]? = some v → v.index < d.next
  injective : ∀ (m n : NodeId) (v : TypeVar), d.vars[m]? = some v → d.vars[n]? = some v → m = n
  slots : ∀ (x : NodeId) (s : Slots), d.slots[x]? = some s → ∀ v, v = s.read ∨ v = s.written →
    v.index < d.next ∧ ∀ n : NodeId, d.vars[n]? ≠ some v
  settled : ∀ k ∈ d.collection.constraints, k.provenance.reason = .exprType →
    ∃ v t, d.vars[k.provenance.node]? = some v ∧ k = .equal ⟨.var v, t, k.provenance⟩

/-- The second draft has variables for all nodes that the first has some for, and
for more; settlings are added. -/
structure Covers (d d' : Draft) (ns es : List NodeId) : Prop where
  kept : ∀ n ∈ d.vars, n ∈ d'.vars
  named : ∀ n ∈ ns, n ∈ d'.vars
  settlings : ∀ n, d'.settlings n = d.settlings n + es.count n

variable {d d' d'' : Draft} {ns ns' es es' : List NodeId}

theorem Covers.refl (d : Draft) : d.Covers d [] [] :=
  ⟨fun _ => id, List.forall_mem_nil _, fun _ => rfl⟩

theorem Covers.trans (h : d.Covers d' ns es) (h' : d'.Covers d'' ns' es') :
    d.Covers d'' (ns ++ ns') (es ++ es') where
  kept n hn := h'.kept n (h.kept n hn)
  named n hn := (List.mem_append.mp hn).elim (fun hn => h'.kept n (h.named n hn)) (h'.named n)
  settlings n := by
    rw [h'.settlings, h.settlings, List.count_append, Nat.add_assoc]

end Draft

namespace Drafting

variable {α β : Type} {P : NodeId → Prop} {m : Drafting α} {f : α → Drafting β}
variable {ns ns' es es' : List NodeId}

/-- A proper draft stays proper, the nodes have variables afterwards, and the types
of the expressions at the other nodes were settled. -/
def Visits (P : NodeId → Prop) (m : Drafting α) (ns es : List NodeId) : Prop :=
  ∀ d : Draft, d.Proper P → (m d).2.Proper P ∧ d.Covers (m d).2 ns es

theorem visits_pure (x : α) : Visits P (pure x) [] [] := fun d hd => ⟨hd, .refl d⟩

theorem Visits.bind (h : Visits P m ns es) (hf : ∀ x, Visits P (f x) ns' es') :
    Visits P (m >>= f) (ns ++ ns') (es ++ es') := by
  intro d hd
  obtain ⟨hd', hcovers⟩ := h d hd
  obtain ⟨hd'', hcovers'⟩ := hf _ _ hd'
  exact ⟨hd'', hcovers.trans hcovers'⟩

theorem Visits.congr (h : Visits P m ns es) (hns : ∀ n, n ∈ ns' → n ∈ ns)
    (hes : ∀ n, es'.count n = es.count n) : Visits P m ns' es' := by
  intro d hd
  obtain ⟨hd', hcovers⟩ := h d hd
  refine ⟨hd', hcovers.kept, fun n hn => hcovers.named n (hns n hn), fun n => ?_⟩
  rw [hcovers.settlings, hes]

theorem visits_forM {γ : Type} {g : γ → Drafting Unit} {N E : γ → List NodeId} {xs : List γ}
    (h : ∀ x ∈ xs, Visits P (g x) (N x) (E x)) :
    Visits P (xs.forM g) (xs.flatMap N) (xs.flatMap E) := by
  induction xs with
  | nil => exact visits_pure ()
  | cons x xs ih =>
    obtain ⟨hx, hxs⟩ := List.forall_mem_cons.mp h
    exact hx.bind fun _ => ih hxs

theorem visits_mapM {γ : Type} {g : γ → Drafting α} {N E : γ → List NodeId} {xs : List γ}
    (h : ∀ x ∈ xs, Visits P (g x) (N x) (E x)) :
    Visits P (xs.mapM g) (xs.flatMap N) (xs.flatMap E) := by
  induction xs with
  | nil => exact visits_pure []
  | cons x xs ih =>
    obtain ⟨hx, hxs⟩ := List.forall_mem_cons.mp h
    rw [List.mapM_cons]
    refine (hx.bind fun _ => (ih hxs).bind fun _ => visits_pure _).congr ?_ ?_
    all_goals simp

/-! ## New variables -/

theorem visits_fresh : Visits P fresh [] [] := by
  intro d hd
  have hnext : (fresh d).2.next = d.next + 1 := rfl
  refine ⟨⟨hd.within, fun n v hv => ?_, hd.injective, fun x s hs v hv => ?_, hd.settled⟩,
    fun _ => id, List.forall_mem_nil _, fun _ => rfl⟩
  · have := hd.below n v hv
    omega
  · obtain ⟨hbelow, hvars⟩ := hd.slots x s hs v hv
    exact ⟨by omega, hvars⟩

end Drafting

namespace Draft

/-- The draft with the next variable for a node. -/
def name (d : Draft) (n : NodeId) : Draft :=
  { d with
    collection := d.collection.fresh.2
    vars := d.vars.insert n d.collection.fresh.1 }

variable {d : Draft} {n : NodeId}

theorem next_name (d : Draft) (n : NodeId) : (d.name n).next = d.next + 1 := rfl

theorem getElem?_vars_name (d : Draft) (m n : NodeId) :
    (d.name n).vars[m]? = if n = m then some ⟨d.next⟩ else d.vars[m]? := by
  refine Std.TreeMap.getElem?_insert.trans (if_congr ?_ rfl rfl)
  exact Std.LawfulEqCmp.compare_eq_iff_eq

theorem Proper.name {P : NodeId → Prop} (h : d.Proper P) (hn : P n) (hnew : d.vars[n]? = none) :
    (d.name n).Proper P := by
  -- Old variables are below the next, so the new one is none of them.
  have hold {m : NodeId} {v : TypeVar} (hv : (d.name n).vars[m]? = some v) :
      m = n ∧ v = ⟨d.next⟩ ∨ d.vars[m]? = some v ∧ v.index < d.next := by
    rw [getElem?_vars_name] at hv
    split at hv
    · next heq =>
      cases hv
      exact .inl ⟨heq.symm, rfl⟩
    · exact .inr ⟨hv, h.below m v hv⟩
  have hkeep {m : NodeId} {v : TypeVar} (hv : d.vars[m]? = some v) :
      (d.name n).vars[m]? = some v := by
    rw [getElem?_vars_name, if_neg, hv]
    rintro rfl
    simp [hnew] at hv
  have hnext := next_name d n
  constructor
  case within =>
    intro m v hv
    rcases hold hv with ⟨rfl, _⟩ | ⟨hv, _⟩
    · exact hn
    · exact h.within m v hv
  case below =>
    intro m v hv
    rcases hold hv with ⟨_, rfl⟩ | ⟨_, hlt⟩
    · exact hnext ▸ Nat.lt_succ_self _
    · omega
  case injective =>
    intro l m v hl hm
    rcases hold hl with ⟨rfl, rfl⟩ | ⟨hl, hlt⟩ <;> rcases hold hm with ⟨rfl, hv⟩ | ⟨hm, hlt'⟩
    · rfl
    · exact absurd hlt' (Nat.lt_irrefl _)
    · cases hv
      exact absurd hlt (Nat.lt_irrefl _)
    · exact h.injective l m v hl hm
  case slots =>
    intro x s hs v hv
    obtain ⟨hbelow, hvars⟩ := h.slots x s hs v hv
    refine ⟨by omega, fun m hm => ?_⟩
    rcases hold hm with ⟨_, rfl⟩ | ⟨hm, _⟩
    · exact absurd hbelow (Nat.lt_irrefl _)
    · exact hvars m hm
  case settled =>
    intro k hk hreason
    obtain ⟨v, t, hv, heq⟩ := h.settled k hk hreason
    exact ⟨v, t, hkeep hv, heq⟩

theorem covers_name (d : Draft) (n : NodeId) : d.Covers (d.name n) [n] [] where
  kept _ hm := Std.TreeMap.mem_insert.mpr (.inr hm)
  named := List.forall_mem_singleton.mpr Std.TreeMap.mem_insert_self
  settlings _ := rfl

end Draft

namespace Drafting

variable {α : Type} {P : NodeId → Prop} {n : NodeId}

theorem varOf_eq (n : NodeId) (d : Draft) :
    varOf n d = match d.vars[n]? with
      | some v => (v, d)
      | none => (⟨d.next⟩, d.name n) := by
  unfold varOf
  cases d.vars[n]? <;> rfl

theorem visits_varOf (hn : P n) : Visits P (varOf n) [n] [] := by
  intro d hd
  rw [varOf_eq]
  cases h : d.vars[n]? with
  | none => exact ⟨hd.name hn h, d.covers_name n⟩
  | some v =>
    have hmem : n ∈ d.vars := Std.TreeMap.mem_iff_isSome_getElem?.mpr (by rw [h]; rfl)
    exact ⟨hd, fun _ => id, List.forall_mem_singleton.mpr hmem, fun _ => rfl⟩

theorem vars_varOf (n : NodeId) (d : Draft) : (varOf n d).2.vars[n]? = some (varOf n d).1 := by
  rw [varOf_eq]
  cases h : d.vars[n]? with
  | none => exact (d.getElem?_vars_name n n).trans (if_pos rfl)
  | some v => exact h

theorem visits_typeOf (hn : P n) : Visits P (typeOf n) [n] [] :=
  (visits_varOf hn).bind fun _ => visits_pure _

/-! ## Constraints -/

theorem visits_record (n : NodeId) (rule : TypingRule) (t : Ty) (detail : String) :
    Visits P (record n rule t detail) [] [] := by
  intro d hd
  have hconstraints := d.collection.constraints_record n rule t detail
  have hsupply := d.collection.supply_record n rule t detail
  let d' : Draft := { d with collection := d.collection.record n rule t detail }
  have hnext : d'.next = d.next := congrArg VarSupply.next hsupply
  refine ⟨⟨hd.within, fun m v hv => ?_, hd.injective, fun x s hs v hv => ?_, fun k hk => ?_⟩,
    fun _ => id, List.forall_mem_nil _, fun m => ?_⟩
  · exact hnext ▸ hd.below m v hv
  · exact hnext ▸ hd.slots x s hs v hv
  · exact hd.settled k (hconstraints ▸ hk)
  · exact congrArg (Array.countP _) hconstraints

theorem settlings_add (d : Draft) (k : Constraint) (n : NodeId) :
    (add k d).2.settlings n =
      d.settlings n + if k.provenance = ⟨n, .exprType⟩ then 1 else 0 := by
  refine Array.countP_push.trans ?_
  simp [Draft.settlings]

theorem visits_add {k : Constraint} (hk : k.provenance.reason ≠ .exprType) :
    Visits P (add k) [] [] := by
  intro d hd
  refine ⟨⟨hd.within, hd.below, hd.injective, hd.slots, fun c hc hreason => ?_⟩, fun _ => id,
    List.forall_mem_nil _, fun n => ?_⟩
  · rcases Array.mem_push.mp hc with hc | rfl
    · exact hd.settled c hc hreason
    · exact absurd hreason hk
  · rw [settlings_add, if_neg fun heq => hk (congrArg Provenance.reason heq)]
    rfl

theorem visits_demand {reason : Reason} (h : reason ≠ .exprType) (t u : Ty) (n : NodeId) :
    Visits P (demand t u n reason) [] [] := visits_add h

theorem visits_demandEither {reason : Reason} (h : reason ≠ .exprType) (t u w : Ty)
    (n : NodeId) : Visits P (demandEither t u w n reason) [] [] := visits_add h

/-- An expression is settled for its own variable. -/
theorem visits_settle (hn : P n) (t : Ty) : Visits P (settle n t) [n] [n] := by
  intro d hd
  obtain ⟨hd', hcovers⟩ := visits_varOf hn d hd
  have hv := vars_varOf n d
  let k : Constraint := .equal ⟨.var (varOf n d).1, t, n, .exprType⟩
  change (add k (varOf n d).2).2.Proper P ∧ d.Covers (add k (varOf n d).2).2 [n] [n]
  refine ⟨⟨hd'.within, hd'.below, hd'.injective, hd'.slots, fun c hc hreason => ?_⟩,
    hcovers.kept, hcovers.named, fun m => ?_⟩
  · rcases Array.mem_push.mp hc with hc | rfl
    · exact hd'.settled c hc hreason
    · exact ⟨_, t, hv, rfl⟩
  · rw [settlings_add, hcovers.settlings]
    simp [k, Constraint.provenance, List.count_cons]

theorem visits_conclude (hn : P n) (rule : TypingRule) (t : Ty) :
    Visits P (conclude n rule t) [n] [n] :=
  (visits_record n rule t "").bind fun _ => visits_settle hn t

end Drafting

end PlusCalTyping
