import PlusCalTyping.Proofs.Solver.Defaults
import PlusCalTyping.Proofs.Typing.Rules
import Mathlib.Order.Basic

/-! # Filling in the variables of drafts

Where an algorithm has a typing, the variables of its draft can be filled in
along the way: the variable of a node with the type of the node, and every
other with the type that its rule asks for. A filling is a draft with types for
the variables handed out so far under which all its constraints hold. Going
through a part of the algorithm hands out more variables, and what the earlier
ones stand for stays as it is (`Denotes.mono`, `Suits.mono`). A node is mentioned
in a constraint only if the typing gives it a type.
-/

namespace PlusCalTyping

namespace Valuation

variable {θ θ' : Valuation}

theorem solves_congr {e : Equation} (h : ∀ v ∈ e.vars, θ v = θ' v) (hθ : θ.Solves e) :
    θ'.Solves e := by
  unfold Solves Unifies at hθ ⊢
  rwa [← Ty.subst_congr _ fun v hv => h v (List.mem_append_left _ hv),
    ← Ty.subst_congr _ fun v hv => h v (List.mem_append_right _ hv)]

theorem satisfies_congr {k : Constraint} (h : ∀ v ∈ k.vars, θ v = θ' v) (hθ : θ.Satisfies k) :
    θ'.Satisfies k := by
  cases k with
  | equal e => exact solves_congr h hθ
  | oneOf c =>
    obtain ⟨candidate, hmem, hall⟩ := hθ
    refine ⟨candidate, hmem, fun e he => solves_congr (fun v hv => h v ?_) (hall e he)⟩
    exact List.mem_flatMap.mpr ⟨e, List.mem_flatten.mpr ⟨candidate, hmem, he⟩, hv⟩

end Valuation

/-- All variables of the type are handed out before a number. -/
def Ty.Below (next : Nat) (t : Ty) : Prop := ∀ v ∈ t.vars, v.index < next

def Draft.next (d : Draft) : Nat := d.collection.supply.next

namespace Typing

/-- The typing gives a type to every node that has one of the variables. -/
def Grants (τ : Typing) (d : Draft) (vs : List TypeVar) : Prop :=
  ∀ v ∈ vs, ∀ n, d.vars[n]? = some v → ∃ u, τ.Has n u

/-- The type stands for what a typing gives the node, if it gives it anything. -/
structure Suits (τ : Typing) (d : Draft) (θ : Valuation) (n : NodeId) (t : Ty) : Prop where
  below : t.Below d.next
  agrees : ∀ u, τ.Has n u → (t.subst θ).agrees u
  grants : (∃ u, τ.Has n u) → τ.Grants d t.vars

/-- The type of the node, if it has any. -/
def typeAt (τ : Typing) (n : NodeId) : Ty := (τ n).getD (.unresolved .none)

theorem agrees_typeAt {τ : Typing} {n : NodeId} {u : Ty} (h : τ.Has n u) :
    (τ.typeAt n).agrees u := by
  obtain ⟨t, ht, htu⟩ := h
  rw [typeAt, ht]
  exact htu

end Typing

/-- A draft with types for its variables under which its constraints hold and
the nodes have the types of a typing. -/
structure Filling (τ : Typing) where
  draft : Draft
  valuation : Valuation
  bounded : ∀ k ∈ draft.collection.constraints, ∀ v ∈ k.vars, v.index < draft.next
  satisfies : ∀ k ∈ draft.collection.constraints, valuation.Satisfies k
  grants : ∀ k ∈ draft.collection.constraints, τ.Grants draft k.vars
  vars : ∀ n v, draft.vars[n]? = some v → τ.Suits draft valuation n (.var v)
  slots : ∀ n s, draft.slots[n]? = some s → ∀ v, v = s.read ∨ v = s.written →
    τ.Suits draft valuation n (.var v)

namespace Filling

variable {τ : Typing}

def next (p : Filling τ) : Nat := p.draft.next

/-- What the first filling says of its variables the second says as well. -/
structure Before (p q : Filling τ) : Prop where
  next : p.next ≤ q.next
  valuation : ∀ v : TypeVar, v.index < p.next → q.valuation v = p.valuation v
  vars : ∀ (n : NodeId) (v : TypeVar), v.index < p.next → q.draft.vars[n]? = some v →
    p.draft.vars[n]? = some v

instance : Preorder (Filling τ) where
  le := Before
  le_refl p := ⟨le_refl p.next, fun _ _ => rfl, fun _ _ _ => id⟩
  le_trans p q s h h' :=
    ⟨h.next.trans h'.next,
      fun v hv => (h'.valuation v (hv.trans_le h.next)).trans (h.valuation v hv),
      fun n v hv hn => h.vars n v hv (h'.vars n v (hv.trans_le h.next) hn)⟩

variable (p : Filling τ)

/-- The first type stands for the second. -/
structure Denotes (t u : Ty) : Prop where
  below : t.Below p.next
  agrees : (t.subst p.valuation).agrees u
  grants : τ.Grants p.draft t.vars

/-- The type stands for that of the node. -/
def Suits (n : NodeId) (t : Ty) : Prop := τ.Suits p.draft p.valuation n t

variable {p} {q : Filling τ}

theorem subst_eq_of_le (h : p ≤ q) {t : Ty} (ht : t.Below p.next) :
    t.subst q.valuation = t.subst p.valuation :=
  Ty.subst_congr t fun v hv => h.valuation v (ht v hv)

theorem below_of_le (h : p ≤ q) {t : Ty} (ht : t.Below p.next) : t.Below q.next :=
  fun v hv => (ht v hv).trans_le h.next

theorem grants_of_le (h : p ≤ q) {t : Ty} (ht : t.Below p.next)
    (hgrants : τ.Grants p.draft t.vars) : τ.Grants q.draft t.vars :=
  fun v hv n hn => hgrants v hv n (h.vars n v (ht v hv) hn)

theorem Denotes.mono {t u : Ty} (ht : p.Denotes t u) (h : p ≤ q) : q.Denotes t u := by
  refine ⟨below_of_le h ht.below, ?_, grants_of_le h ht.below ht.grants⟩
  rw [subst_eq_of_le h ht.below]
  exact ht.agrees

theorem Suits.mono {n : NodeId} {t : Ty} (ht : p.Suits n t) (h : p ≤ q) : q.Suits n t := by
  refine ⟨below_of_le h ht.below, fun u hu => ?_,
    fun hn => grants_of_le h ht.below (ht.grants hn)⟩
  rw [subst_eq_of_le h ht.below]
  exact ht.agrees u hu

theorem Suits.denotes {n : NodeId} {t u : Ty} (ht : p.Suits n t) (hu : τ.Has n u) :
    p.Denotes t u := ⟨ht.below, ht.agrees u hu, ht.grants ⟨u, hu⟩⟩

theorem Denotes.suits {n : NodeId} {t u : Ty} (ht : p.Denotes t u) (hu : τ.Has n u) :
    p.Suits n t := by
  refine ⟨ht.below, fun w hw => ?_, fun _ => ht.grants⟩
  obtain ⟨x, hx, hxu⟩ := hu
  obtain ⟨y, hy, hyw⟩ := hw
  cases hx.symm.trans hy
  exact Ty.agrees_trans ht.agrees (Ty.agrees_trans (Ty.agrees_symm hxu) hyw)

theorem Denotes.congr {t u w : Ty} (ht : p.Denotes t u) (h : u.agrees w) : p.Denotes t w :=
  ⟨ht.below, Ty.agrees_trans ht.agrees h, ht.grants⟩

/-! ## What types stand for -/

variable {t u k v : Ty} {ts us : List Ty} {o o' : Origins}

theorem denotes_prim (r : Prim) (o o' : Origins) : p.Denotes (.prim r o) (.prim r o') :=
  ⟨nofun, decide_eq_true rfl, nofun⟩

theorem Denotes.set (h : p.Denotes t u) (o o' : Origins) : p.Denotes (.set t o) (.set u o') :=
  ⟨h.below, h.agrees, h.grants⟩

theorem Denotes.map (hk : p.Denotes t u) (hv : p.Denotes k v) (o o' : Origins) :
    p.Denotes (.map t k o) (.map u v o') where
  below w hw := (List.mem_append.mp hw).elim (hk.below w) (hv.below w)
  agrees := Ty.agrees_map_iff.mpr ⟨hk.agrees, hv.agrees⟩
  grants w hw := (List.mem_append.mp hw).elim (hk.grants w) (hv.grants w)

theorem below_list (h : List.Forall₂ p.Denotes ts us) :
    ∀ w ∈ Ty.varsList ts, w.index < p.next := by
  induction h with
  | nil => exact List.forall_mem_nil _
  | cons h _ ih => exact fun w hw => (List.mem_append.mp hw).elim (h.below w) (ih w)

theorem grants_list (h : List.Forall₂ p.Denotes ts us) : τ.Grants p.draft (Ty.varsList ts) := by
  induction h with
  | nil => exact List.forall_mem_nil _
  | cons h _ ih => exact fun w hw => (List.mem_append.mp hw).elim (h.grants w) (ih w)

theorem agrees_list (h : List.Forall₂ p.Denotes ts us) :
    Ty.agreesList (Ty.substList p.valuation ts) us := by
  induction h with
  | nil => rfl
  | cons h _ ih => exact Bool.and_eq_true_iff.mpr ⟨h.agrees, ih⟩

theorem denotes_tuple (h : List.Forall₂ p.Denotes ts us) (o o' : Origins) :
    p.Denotes (.tuple ts o) (.tuple us o') := ⟨below_list h, agrees_list h, grants_list h⟩

theorem denotes_procedure (h : List.Forall₂ p.Denotes ts us) (o o' : Origins) :
    p.Denotes (.procedure ts o) (.procedure us o') := ⟨below_list h, agrees_list h, grants_list h⟩

theorem denotes_operator (h : List.Forall₂ p.Denotes ts us) (ht : p.Denotes t u)
    (o o' : Origins) : p.Denotes (.operator ts t o) (.operator us u o') where
  below w hw := (List.mem_append.mp hw).elim (below_list h w) (ht.below w)
  agrees := Bool.and_eq_true_iff.mpr ⟨agrees_list h, ht.agrees⟩
  grants w hw := (List.mem_append.mp hw).elim (grants_list h w) (ht.grants w)

theorem denotes_key (n : NodeId) (h : List.Forall₂ p.Denotes ts us) :
    p.Denotes (Drafting.keyType n ts) (Typing.key us) := by
  match h with
  | .nil => exact denotes_tuple .nil _ _
  | .cons h .nil => exact h
  | .cons h (.cons h' hs) => exact denotes_tuple (.cons h (.cons h' hs)) _ _

theorem forall₂_denotes {ns : List NodeId} (hts : List.Forall₂ p.Suits ns ts)
    (hus : τ.HasAll ns us) : List.Forall₂ p.Denotes ts us := by
  induction hts generalizing us with
  | nil =>
    cases hus
    exact .nil
  | cons h _ ih =>
    cases hus with
    | cons hu hus => exact .cons (h.denotes hu) (ih hus)

/-! ## New variables -/

/-- Nodes have no variable that is yet to be handed out. -/
theorem vars_ne_of_le {n : NodeId} {v : TypeVar} (hv : p.next ≤ v.index) :
    p.draft.vars[n]? ≠ some v :=
  fun hn => ((p.vars n v hn).below v List.mem_cons_self).not_ge hv

/-- Let all variables from the next on stand for a type. -/
def assign (p : Filling τ) (t : Ty) : Valuation :=
  fun v => if v.index < p.next then p.valuation v else t

theorem assign_of_lt {v : TypeVar} (hv : v.index < p.next) (t : Ty) :
    p.assign t v = p.valuation v := if_pos hv

theorem assign_of_le {v : TypeVar} (hv : p.next ≤ v.index) (t : Ty) : p.assign t v = t :=
  if_neg hv.not_gt

/-- A new variable of a draft that is to stand for the type of a node, and of
no other. -/
structure Opens (p : Filling τ) (d : Draft) (t : Ty) (n : NodeId) (v : TypeVar) : Prop where
  le : p.next ≤ v.index
  lt : v.index < d.next
  typeAt : τ.typeAt n = t
  only : ∀ m, d.vars[m]? = some v → m = n

theorem Opens.suits {d : Draft} {t : Ty} {n : NodeId} {v : TypeVar} (h : p.Opens d t n v) :
    τ.Suits d (p.assign t) n (.var v) where
  below w hw := by
    rw [List.mem_singleton.mp hw]
    exact h.lt
  agrees u hu := by
    rw [Ty.subst, assign_of_le h.le, ← h.typeAt]
    exact Typing.agrees_typeAt hu
  grants hn w hw m hm := by
    rw [List.mem_singleton.mp hw] at hm
    rwa [h.only m hm]

section Grow

variable (p) (d : Draft) (t : Ty)
  (hconstraints : d.collection.constraints = p.draft.collection.constraints)
  (hnext : p.next ≤ d.next)
  (hvars : ∀ n v, d.vars[n]? = some v → p.draft.vars[n]? = some v ∨ p.Opens d t n v)
  (hslots : ∀ n s, d.slots[n]? = some s → p.draft.slots[n]? = some s ∨
    p.Opens d t n s.read ∧ p.Opens d t n s.written)

/-- A filling of a draft that has more variables but the same constraints. -/
def grow : Filling τ :=
  have hold {n : NodeId} {v : TypeVar} (hv : v.index < p.next) (hn : d.vars[n]? = some v) :
      p.draft.vars[n]? = some v :=
    (hvars n v hn).resolve_right fun h => absurd hv h.le.not_gt
  have hkeep {n : NodeId} {v : TypeVar} (h : τ.Suits p.draft p.valuation n (.var v)) :
      τ.Suits d (p.assign t) n (.var v) := by
    have hv := h.below v List.mem_cons_self
    refine ⟨fun w hw => (h.below w hw).trans_le hnext, fun u hu => ?_, fun hn w hw m hm => ?_⟩
    · rw [Ty.subst, assign_of_lt hv]
      exact h.agrees u hu
    · exact h.grants hn w hw m (hold (h.below w hw) hm)
  { draft := d
    valuation := p.assign t
    bounded := fun k hk v hv => (p.bounded k (hconstraints ▸ hk) v hv).trans_le hnext
    satisfies := fun k hk => Valuation.satisfies_congr
      (fun v hv => (assign_of_lt (p.bounded k (hconstraints ▸ hk) v hv) t).symm)
      (p.satisfies k (hconstraints ▸ hk))
    grants := fun k hk v hv n hn => p.grants k (hconstraints ▸ hk) v hv n
      (hold (p.bounded k (hconstraints ▸ hk) v hv) hn)
    vars := fun n v hv => (hvars n v hv).elim (fun h => hkeep (p.vars n v h)) Opens.suits
    slots := by
      rintro n s hs v hv
      rcases hslots n s hs with h | ⟨hread, hwritten⟩
      · exact hkeep (p.slots n s h v hv)
      · rcases hv with rfl | rfl
        · exact hread.suits
        · exact hwritten.suits }

theorem le_grow : p ≤ p.grow d t hconstraints hnext hvars hslots where
  next := hnext
  valuation _ hv := assign_of_lt hv t
  vars n v hv hn := (hvars n v hn).resolve_right fun h => absurd hv h.le.not_gt

end Grow

end Filling

end PlusCalTyping
