import PlusCalTyping.Proofs.Solver.Defaults
import PlusCalTyping.Proofs.Typing.Rules

/-! # Readings of drafts

A reading values the variables that constraints mention and gives types to
nodes. It reads a draft if it satisfies all constraints and every node whose
variable is mentioned has the type of that variable. Going through a part of an
algorithm only adds to a draft, so what reads the draft afterwards reads the
draft before; what it then says about the part is put together step by step
(`Sound.bind`). On the way all constraints are seen to be regular: nothing in
them is marked as undetermined, and every choice is of integers or of strings
or reals for one variable.
-/

namespace PlusCalTyping

theorem Typing.Has.congr {τ : Typing} {n : NodeId} {t u : Ty} (h : τ.Has n t)
    (ht : t.agrees u) : τ.Has n u := by
  obtain ⟨s, hs, hst⟩ := h
  exact ⟨s, hs, Ty.agrees_trans hst ht⟩

theorem Typing.Has.share {τ : Typing} {m n : NodeId} {t u : Ty} (hm : τ.Has m t)
    (hn : τ.Has n u) (h : t.agrees u) : τ.Share m n := ⟨u, hm.congr h, hn⟩

namespace Constraint

/-- Nothing is marked as undetermined, and a choice is of integers or of strings
or reals. -/
structure Regular (k : Constraint) : Prop where
  determined : k.Determined
  isIntOr : ∀ c, k = .oneOf c → ∃ v q, c.IsIntOr v q
  stringOrReal : ∀ c, k = .oneOf c → ∀ v q, c.IsIntOr v q → q = .string ∨ q = .real

theorem regular_equal {e : Equation} (h : e.Determined) : (equal e).Regular := ⟨h, nofun, nofun⟩

theorem regular_oneOf {c : Choice} {v : TypeVar} {q : Prim} (h : c.IsIntOr v q)
    (hq : q = .string ∨ q = .real) : (oneOf c).Regular := by
  refine ⟨h.determined, ?_, ?_⟩
  · rintro _ ⟨⟩
    exact ⟨v, q, h⟩
  · rintro _ ⟨⟩ w r hr
    obtain ⟨_, rfl⟩ := h.unique hr
    exact hq

end Constraint

namespace Draft

def Regular (d : Draft) : Prop := ∀ k ∈ d.collection.constraints, k.Regular

/-- Constraints and variables of nodes are kept. -/
structure Grows (d d' : Draft) : Prop where
  constraints : ∀ k ∈ d.collection.constraints, k ∈ d'.collection.constraints
  vars : ∀ (n : NodeId) (v : TypeVar), d.vars[n]? = some v → d'.vars[n]? = some v

variable {d d' d'' : Draft}

theorem Grows.refl (d : Draft) : d.Grows d := ⟨fun _ => id, fun _ _ => id⟩

theorem Grows.trans (h : d.Grows d') (h' : d'.Grows d'') : d.Grows d'' :=
  ⟨fun k hk => h'.constraints k (h.constraints k hk), fun n v hv => h'.vars n v (h.vars n v hv)⟩

end Draft

/-- Types for variables and nodes. Only the variables that constraints mention
need to have the types of their nodes. -/
structure Reading where
  valuation : Valuation
  used : TypeVar → Prop
  types : Typing

namespace Reading

variable (ρ : Reading)

def value (t : Ty) : Ty := t.subst ρ.valuation

def Uses (t : Ty) : Prop := ∀ v ∈ t.vars, ρ.used v

/-- The node has the type, if the type is used at all. -/
def Knows (n : NodeId) (t : Ty) : Prop := ρ.Uses t → ρ.types.Has n (ρ.value t)

structure Reads (d : Draft) : Prop where
  satisfies : ∀ k ∈ d.collection.constraints, ρ.valuation.Satisfies k
  uses : ∀ k ∈ d.collection.constraints, ∀ v ∈ k.vars, ρ.used v
  knows : ∀ (n : NodeId) (v : TypeVar), d.vars[n]? = some v → ρ.Knows n (.var v)

variable {ρ} {d d' : Draft}

theorem Reads.mono (h : ρ.Reads d') (hd : d.Grows d') : ρ.Reads d :=
  ⟨fun k hk => h.satisfies k (hd.constraints k hk), fun k hk => h.uses k (hd.constraints k hk),
    fun n v hv => h.knows n v (hd.vars n v hv)⟩

end Reading

namespace Drafting

variable (ρ : Reading) {α β : Type}

/-- A part that keeps the slots and grows the draft by regular constraints. Its
result satisfies the one predicate at once, and the other if the draft is read. -/
def Sound (S : NodeMap Slots) (m : Drafting α) (always : α → Prop) (read : α → Prop) : Prop :=
  ∀ d : Draft, d.Regular → d.slots = S →
    (m d).2.Regular ∧ (m d).2.slots = S ∧ d.Grows (m d).2 ∧ always (m d).1 ∧
      (ρ.Reads (m d).2 → read (m d).1)

variable {ρ} {S : NodeMap Slots} {m : Drafting α} {f : α → Drafting β}
variable {always always' : α → Prop} {read read' : α → Prop}

theorem Sound.mono (h : Sound ρ S m always read) (ha : ∀ x, always x → always' x)
    (hr : ∀ x, always x → read x → read' x) : Sound ρ S m always' read' := by
  intro d hd hS
  obtain ⟨hd', hS', hgrows, hx, hread⟩ := h d hd hS
  exact ⟨hd', hS', hgrows, ha _ hx, fun h => hr _ hx (hread h)⟩

theorem sound_pure {x : α} (ha : always x) (hr : read x) : Sound ρ S (pure x) always read :=
  fun d hd hS => ⟨hd, hS, .refl d, ha, fun _ => hr⟩

theorem Sound.bind {always' read' : β → Prop} (h : Sound ρ S m always read)
    (hf : ∀ x, always x → Sound ρ S (f x) always' fun y => read x → read' y) :
    Sound ρ S (m >>= f) always' read' := by
  intro d hd hS
  obtain ⟨hd', hS', hgrows, hx, hread⟩ := h d hd hS
  obtain ⟨hd'', hS'', hgrows', hy, hread'⟩ := hf _ hx _ hd' hS'
  exact ⟨hd'', hS'', hgrows.trans hgrows', hy, fun h => hread' h (hread (h.mono hgrows'))⟩

/-! ## The steps -/

theorem sound_fresh : Sound ρ S fresh (fun t => ∃ v, t = .var v) fun _ => True :=
  fun _ hd hS => ⟨hd, hS, ⟨fun _ => id, fun _ _ => id⟩, ⟨_, rfl⟩, fun _ => trivial⟩

theorem sound_varOf (n : NodeId) :
    Sound ρ S (varOf n) (fun _ => True) fun v => ρ.Knows n (.var v) := by
  intro d hd hS
  unfold varOf
  cases h : d.vars[n]? with
  | some v => exact ⟨hd, hS, .refl d, trivial, fun hread => hread.knows n v h⟩
  | none =>
    refine ⟨hd, hS, ⟨fun _ => id, fun n' v hv => ?_⟩, trivial, fun hread => ?_⟩
    · rw [Std.TreeMap.getElem?_insert]
      split
      · next heq =>
        rw [← Std.LawfulEqCmp.compare_eq_iff_eq.mp heq, h] at hv
        cases hv
      · exact hv
    · exact hread.knows n _ Std.TreeMap.getElem?_insert_self

theorem sound_typeOf (n : NodeId) :
    Sound ρ S (typeOf n) (fun t => ∃ v, t = .var v) (ρ.Knows n) :=
  (sound_varOf n).bind fun v _ => sound_pure ⟨v, rfl⟩ id

theorem sound_record (n : NodeId) (rule : TypingRule) (t : Ty) (detail : String) :
    Sound ρ S (record n rule t detail) (fun _ => True) fun _ => True := by
  intro d hd hS
  have hconstraints := d.collection.constraints_record n rule t detail
  refine ⟨fun k hk => hd k (hconstraints ▸ hk), hS, ⟨fun k hk => ?_, fun _ _ => id⟩, trivial,
    fun _ => trivial⟩
  exact hconstraints.symm ▸ hk

theorem sound_add {k : Constraint} (hk : k.Regular) :
    Sound ρ S (add k) (fun _ => True)
      fun _ => ρ.valuation.Satisfies k ∧ ∀ v ∈ k.vars, ρ.used v := by
  intro d hd hS
  refine ⟨fun k' hk' => ?_, hS, ⟨fun k' hk' => Array.mem_push_of_mem k hk', fun _ _ => id⟩,
    trivial, fun hread => ?_⟩
  · rcases Array.mem_push.mp hk' with h | rfl
    · exact hd k' h
    · exact hk
  · exact ⟨hread.satisfies k Array.mem_push_self, hread.uses k Array.mem_push_self⟩

theorem sound_demand {s t : Ty} (hs : s.Determined) (ht : t.Determined) (n : NodeId)
    (reason : Reason) :
    Sound ρ S (demand s t n reason) (fun _ => True)
      fun _ => ρ.Uses s ∧ ρ.Uses t ∧ (ρ.value s).agrees (ρ.value t) := by
  refine (sound_add (Constraint.regular_equal ⟨hs, ht⟩)).mono (fun _ => id) ?_
  rintro _ _ ⟨hsolves, huses⟩
  exact ⟨fun v hv => huses v (List.mem_append_left _ hv),
    fun v hv => huses v (List.mem_append_right _ hv), hsolves⟩

theorem sound_demandEither {t : Ty} (ht : ∃ v, t = .var v) {q : Prim}
    (hq : q = .string ∨ q = .real) (o o' : Origins) (n : NodeId) (reason : Reason) :
    Sound ρ S (demandEither t (.prim .int o) (.prim q o') n reason) (fun _ => True)
      fun _ => ρ.Uses t ∧
        ((ρ.value t).agrees (.prim .int .none) ∨ (ρ.value t).agrees (.prim q .none)) := by
  obtain ⟨v, rfl⟩ := ht
  have hne : q ≠ .int := by rcases hq with rfl | rfl <;> exact nofun
  have hc : Choice.IsIntOr ⟨[[⟨.var v, .prim .int o, n, reason⟩],
      [⟨.var v, .prim q o', n, reason⟩]], n, reason⟩ v q := ⟨hne, _, _, _, _, rfl⟩
  refine (sound_add (Constraint.regular_oneOf hc hq)).mono (fun _ => id) ?_
  rintro _ _ ⟨hdecides, huses⟩
  refine ⟨fun w hw => huses w ?_, hc.decides_iff.mp hdecides⟩
  exact List.mem_append_left _ (List.mem_append_left _ hw)

theorem sound_demandBool (n : NodeId) {t : Ty} (ht : t.Determined) :
    Sound ρ S (demandBool n t) (fun _ => True)
      fun _ => (ρ.value t).agrees (.prim .bool .none) :=
  (sound_demand (Ty.determined_prim _ _) ht n .condition).mono (fun _ => id)
    fun _ _ h => Ty.agrees_trans (Ty.agrees_symm h.2.2) rfl

theorem sound_forM_demand {s : Ty} (hs : s.Determined) {ts : List Ty}
    (hts : ∀ t ∈ ts, t.Determined) (n : NodeId) (reason : Reason) :
    Sound ρ S (ts.forM fun t => demand s t n reason) (fun _ => True)
      fun _ => ∀ t ∈ ts, (ρ.value s).agrees (ρ.value t) := by
  induction ts with
  | nil => exact sound_pure trivial (List.forall_mem_nil _)
  | cons t ts ih =>
    obtain ⟨ht, hts⟩ := List.forall_mem_cons.mp hts
    refine (sound_demand hs ht n reason).bind fun _ _ => (ih hts).mono (fun _ => id) ?_
    exact fun _ _ hrest h => List.forall_mem_cons.mpr ⟨h.2.2, hrest⟩

theorem sound_demandNumeric {s : Ty} (hs : ∃ v, s = .var v) {ts : List Ty}
    (hts : ∀ t ∈ ts, t.Determined) (n : NodeId) (reason : Reason) :
    Sound ρ S (demandNumeric s ts n reason) (fun _ => True)
      fun _ => ∃ p : Prim, p.Numeric ∧ (ρ.value s).agrees (.prim p .none) ∧
        ∀ t ∈ ts, (ρ.value t).agrees (.prim p .none) := by
  have hdet : s.Determined := by
    obtain ⟨v, rfl⟩ := hs
    exact Ty.determined_var v
  apply (sound_forM_demand hdet hts n reason).bind
  intro _ _
  refine (sound_demandEither hs (q := .real) (.inr rfl) _ _ n reason).mono (fun _ => id) ?_
  rintro _ _ ⟨_, hint | hreal⟩ hall
  · exact ⟨.int, .inl rfl, hint, fun t ht => Ty.agrees_trans (Ty.agrees_symm (hall t ht)) hint⟩
  · exact ⟨.real, .inr rfl, hreal, fun t ht => Ty.agrees_trans (Ty.agrees_symm (hall t ht)) hreal⟩

theorem sound_demandIdentity (n : NodeId) :
    Sound ρ S (demandIdentity n) (fun _ => True) fun _ => ρ.types.HasIdentity n := by
  apply (sound_typeOf n).bind
  intro t ht
  refine (sound_demandEither ht (q := .string) (.inl rfl) _ _ n .identity).bind fun _ _ => ?_
  refine (sound_record n .alternative t "Int | String").mono (fun _ => id) ?_
  rintro _ _ _ ⟨huses, hchoice⟩ hknows
  exact hchoice.imp (hknows huses).congr (hknows huses).congr

end Drafting

end PlusCalTyping
