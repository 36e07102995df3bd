import PlusCalTyping.Node

/-! # Origins

The syntax nodes that caused a type to be inferred. Origins only feed error
reporting, so they never tell two types apart.
-/

namespace PlusCalTyping

/-- A finite set of nodes, kept in ascending order without repetition. -/
structure Origins where
  nodes : List NodeId
  ascending : nodes.Pairwise (·.val < ·.val)

namespace Origins

def none : Origins := ⟨[], .nil⟩

instance : Inhabited Origins := ⟨none⟩

def single (n : NodeId) : Origins := ⟨[n], List.pairwise_singleton _ _⟩

/-- Put a node at its place in an ascending list, unless it is there already. -/
def place (n : NodeId) : List NodeId → List NodeId
  | [] => [n]
  | m :: rest =>
    if n.val < m.val then n :: m :: rest
    else if n = m then m :: rest
    else m :: place n rest

theorem mem_place {n k : NodeId} {l : List NodeId} : k ∈ place n l ↔ k = n ∨ k ∈ l := by
  induction l with
  | nil => simp [place]
  | cons m rest ih =>
    simp only [place]
    split
    · simp
    · split
      · next h => simp [h]
      · simp only [List.mem_cons, ih]
        exact or_left_comm

theorem pairwise_place {n : NodeId} {l : List NodeId} (h : l.Pairwise (·.val < ·.val)) :
    (place n l).Pairwise (·.val < ·.val) := by
  induction l with
  | nil => exact List.pairwise_singleton _ _
  | cons m rest ih =>
    obtain ⟨hm, hrest⟩ := List.pairwise_cons.mp h
    simp only [place]
    split
    · next hlt =>
      refine List.pairwise_cons.mpr ⟨fun k hk => ?_, h⟩
      rcases List.mem_cons.mp hk with rfl | hk
      · exact hlt
      · exact Nat.lt_trans hlt (hm k hk)
    · next hge =>
      split
      · exact h
      · next hne =>
        refine List.pairwise_cons.mpr ⟨fun k hk => ?_, ih hrest⟩
        rcases mem_place.mp hk with rfl | hk
        · exact Nat.lt_of_le_of_ne (Nat.le_of_not_lt hge)
            fun heq => hne (congrArg NodeId.mk heq.symm)
        · exact hm k hk

def insert (n : NodeId) (o : Origins) : Origins := ⟨place n o.nodes, pairwise_place o.ascending⟩

theorem mem_insert {n k : NodeId} {o : Origins} :
    k ∈ (o.insert n).nodes ↔ k = n ∨ k ∈ o.nodes := mem_place

def ofList (l : List NodeId) : Origins := l.foldl (fun o n => o.insert n) none

/-- Join the nodes of `p` to those of `o`. -/
def extend (o p : Origins) : Origins := p.nodes.foldl (fun o n => o.insert n) o

def contains (o : Origins) (n : NodeId) : Bool := o.nodes.contains n

def isEmpty (o : Origins) : Bool := o.nodes.isEmpty

/-- Origins are never a reason to tell two values apart. -/
instance : BEq Origins := ⟨fun _ _ => true⟩

theorem mem_foldl_insert {k : NodeId} {l : List NodeId} {o : Origins} :
    k ∈ (l.foldl (fun o n => o.insert n) o).nodes ↔ k ∈ o.nodes ∨ k ∈ l := by
  induction l generalizing o with
  | nil => simp
  | cons n rest ih =>
    rw [List.foldl_cons, ih, mem_insert, List.mem_cons]
    exact ⟨fun h => h.elim (·.elim (.inr ∘ .inl) .inl) (.inr ∘ .inr),
      fun h => h.elim (.inl ∘ .inr) (·.elim (.inl ∘ .inl) .inr)⟩

theorem mem_ofList {k : NodeId} {l : List NodeId} : k ∈ (ofList l).nodes ↔ k ∈ l := by
  simp [ofList, mem_foldl_insert, none]

theorem mem_extend {k : NodeId} {o p : Origins} :
    k ∈ (o.extend p).nodes ↔ k ∈ o.nodes ∨ k ∈ p.nodes := mem_foldl_insert

end Origins

end PlusCalTyping
