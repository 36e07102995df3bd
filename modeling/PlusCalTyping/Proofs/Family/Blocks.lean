import PlusCalTyping.Proofs.Scope.LexicalScope
import PlusCalTyping.Syntax.Family

/-! # Blocks of nodes

The members of a family are made one after the other from one supply, and each
draws equally many nodes. So the nodes of a member are a block that begins where
the one before ends, and members that are laid out alike within their blocks have
no node in common.
-/

namespace PlusCalTyping

namespace Build

variable {α β : Type}

theorem bind_apply (b : Build α) (f : α → Build β) (s : NodeSupply) :
    (b >>= f) s = f (b s).1 (b s).2 := rfl

/-- Parts that are built alike begin at equal distances. -/
theorem mapM_range {build : Nat → Build α} {member : Nat → Nat → α} {width : Nat}
    (h : ∀ i first, build i ⟨first⟩ = (member first i, ⟨first + width⟩)) (count first : Nat) :
    (List.range count).mapM build ⟨first⟩ =
      ((List.range count).map fun i => member (first + width * i) i, ⟨first + width * count⟩) := by
  induction count with
  | zero => rfl
  | succ count ih =>
    rw [List.range_succ, List.mapM_append, bind_apply, ih, bind_apply, List.mapM_cons, bind_apply,
      h, List.mapM_nil, List.map_append, Nat.mul_succ, ← Nat.add_assoc]
    rfl

end Build

/-- Nodes at some offsets from a first one. -/
def nodesAt (first : Nat) (offsets : List Nat) : List NodeId := offsets.map fun k => ⟨first + k⟩

section

variable {first width : Nat} {offsets : List Nat}

theorem nodesAt_nodup (first : Nat) (h : offsets.Nodup) : (nodesAt first offsets).Nodup :=
  h.map fun _ _ heq => Nat.add_left_cancel (NodeId.mk.inj heq)

/-- A node tells its block and its offset there. -/
theorem eq_of_blocks {i j k l : Nat} (hk : k < width) (hl : l < width)
    (h : (⟨first + width * i + k⟩ : NodeId) = ⟨first + width * j + l⟩) : i = j ∧ k = l := by
  have heq : width * i + k = width * j + l := by
    have := NodeId.mk.inj h
    omega
  have hdiv := congrArg (· / width) heq
  have hmod := congrArg (· % width) heq
  simp only [Nat.mul_add_div (Nat.zero_lt_of_lt hk), Nat.div_eq_of_lt hk, Nat.div_eq_of_lt hl,
    Nat.add_zero] at hdiv
  simp only [Nat.mul_add_mod, Nat.mod_eq_of_lt hk, Nat.mod_eq_of_lt hl] at hmod
  exact ⟨hdiv, hmod⟩

variable (first width offsets) in
/-- The nodes at the same offsets in several blocks. -/
def blockNodes (count : Nat) : List NodeId :=
  (List.range count).flatMap fun i => nodesAt (first + width * i) offsets

theorem mem_blockNodes {count : Nat} {n : NodeId} :
    n ∈ blockNodes first width offsets count ↔
      ∃ i < count, ∃ k ∈ offsets, n = ⟨first + width * i + k⟩ := by
  simp only [blockNodes, nodesAt, List.mem_flatMap, List.mem_range, List.mem_map, eq_comm]

theorem le_of_mem_blockNodes {count : Nat} {n : NodeId}
    (h : n ∈ blockNodes first width offsets count) : first ≤ n.val := by
  obtain ⟨i, _, k, _, rfl⟩ := mem_blockNodes.mp h
  exact (Nat.le_add_right _ _).trans (Nat.le_add_right _ _)

theorem blockNodes_nodup (h : offsets.Nodup) (hwidth : ∀ k ∈ offsets, k < width) (count : Nat) :
    (blockNodes first width offsets count).Nodup := by
  refine List.nodup_flatMap.mpr ⟨fun i _ => nodesAt_nodup _ h, ?_⟩
  refine List.nodup_range.imp fun hne n hn hn' => ?_
  obtain ⟨k, hk, rfl⟩ := List.mem_map.mp hn
  obtain ⟨l, hl, heq⟩ := List.mem_map.mp hn'
  exact hne (eq_of_blocks (hwidth k hk) (hwidth l hl) heq.symm).1

theorem disjoint_blockNodes {offsets' : List Nat} (h : ∀ k ∈ offsets, k ∉ offsets')
    (hwidth : ∀ k ∈ offsets, k < width) (hwidth' : ∀ k ∈ offsets', k < width)
    (count count' : Nat) : (blockNodes first width offsets count).Disjoint
      (blockNodes first width offsets' count') := by
  intro n hn hn'
  obtain ⟨i, _, k, hk, rfl⟩ := mem_blockNodes.mp hn
  obtain ⟨j, _, l, hl, heq⟩ := mem_blockNodes.mp hn'
  obtain ⟨_, rfl⟩ := eq_of_blocks (hwidth k hk) (hwidth' l hl) heq
  exact h _ hk hl

end

theorem Use.diagnostics_eq_nil_of_bound {uses : List Use}
    (h : ∀ u ∈ uses, ∃ site decl, u = .bound site decl) : diagnostics uses = [] := by
  refine List.filterMap_eq_nil_iff.mpr fun u hu => ?_
  obtain ⟨_, _, rfl⟩ := h u hu
  rfl

/-- In an algorithm whose nodes are different a name refers to what its use is bound to. -/
theorem Registry.followReference_of_bound {a : Algorithm} (hnodes : a.nodes.Nodup)
    {site decl : NodeId} (h : .bound site decl ∈ a.uses) :
    (ofAlgorithm a).followReference site = some decl :=
  (Use.getElem?_references_iff (a.sites_sublist.nodup hnodes)).mpr h

end PlusCalTyping
