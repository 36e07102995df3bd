import PlusCalTyping.Proofs.Family.Blocks
import PlusCalTyping.Proofs.Typing.Integers
import PlusCalTyping.Proofs.Typing.Pinned

/-! # Chains of additions

A sum of any length is settled by its literals: from the innermost operand on,
every addition has to be of integers.
-/

namespace PlusCalTyping.Family

/-- The sum with its nodes. -/
def sumExpr : Nat → Expr
  | 0 => .literal ⟨0⟩ (.int 0)
  | n + 1 => .binary ⟨2 * n + 2⟩ .add (sumExpr n) (.literal ⟨2 * n + 1⟩ (.int (n + 1)))

def chain (terms : Nat) : Algorithm :=
  { name := "ArithmeticChain"
    globals := [⟨⟨2 * terms + 1⟩, "x", some (.value (sumExpr terms))⟩] }

theorem sum_startingAt (n : Nat) : sum n ⟨0⟩ = (sumExpr n, ⟨2 * n + 1⟩) := by
  induction n with
  | zero => rfl
  | succ n ih =>
    rw [sum, Build.bind_apply, ih]
    rfl

theorem arithmeticChain_eq (terms : Nat) : arithmeticChain terms = chain (max terms 1) := by
  have h := sum_startingAt (max terms 1)
  unfold arithmeticChain Build.run
  rw [StateT.run, NodeSupply.startingAt, Build.bind_apply, h]
  rfl

/-! ## Nodes and names -/

theorem lt_of_mem_nodes_sumExpr {n : Nat} {m : NodeId} (h : m ∈ (sumExpr n).nodes) :
    m.val < 2 * n + 1 := by
  induction n with
  | zero =>
    rw [List.mem_singleton.mp h]
    exact Nat.zero_lt_one
  | succ n ih =>
    simp only [sumExpr, Expr.nodes, List.mem_cons, List.mem_append, List.not_mem_nil, or_false] at h
    rcases h with rfl | h | rfl
    · exact Nat.lt_succ_self _
    · have := ih h
      omega
    · change 2 * n + 1 < _
      omega

theorem nodup_nodes_sumExpr (n : Nat) : (sumExpr n).nodes.Nodup := by
  induction n with
  | zero => exact List.nodup_singleton _
  | succ n ih =>
    have hterm : (⟨2 * n + 1⟩ : NodeId) ∉ (sumExpr n).nodes := fun h =>
      Nat.lt_irrefl _ (lt_of_mem_nodes_sumExpr h)
    have hwhole : (⟨2 * n + 2⟩ : NodeId) ∉ (sumExpr n).nodes := fun h =>
      Nat.not_succ_lt_self (lt_of_mem_nodes_sumExpr h)
    simp only [sumExpr, Expr.nodes, List.nodup_cons, List.mem_append, List.mem_singleton]
    refine ⟨not_or.mpr ⟨hwhole, fun h => ?_⟩, ih.append (List.nodup_singleton _) ?_⟩
    · exact absurd (NodeId.mk.inj h) (Nat.succ_ne_self _)
    · exact fun m hm hterm' => hterm (List.mem_singleton.mp hterm' ▸ hm)

theorem exprUses_sumExpr (scope : Scope) (n : Nat) : scope.exprUses (sumExpr n) = [] := by
  induction n with
  | zero => rfl
  | succ n ih => rw [sumExpr, Scope.exprUses, ih, Scope.exprUses, List.append_nil]

theorem nodes_chain (terms : Nat) :
    (chain terms).nodes = ⟨2 * terms + 1⟩ :: (sumExpr terms).nodes := by
  simp [chain, Algorithm.nodes, Decl.nodes, Decl.initial?, Processes.nodes]

theorem typedNodes_chain (terms : Nat) (r : Registry) :
    (chain terms).typedNodes r = ⟨2 * terms + 1⟩ :: (sumExpr terms).nodes := by
  simp [chain, Algorithm.typedNodes, Decl.nodes, Decl.initial?, Processes.typedNodes]

/-! ## Types -/

variable {τ : Typing} {r : Registry}

/-- Each addition has an integer on the left, so it is one of integers. -/
theorem exprTyped_sumExpr_iff (n : Nat) :
    τ.ExprTyped r (sumExpr n) ↔ ∀ m ∈ (sumExpr n).nodes, τ.Has m (.prim .int .none) := by
  induction n with
  | zero =>
    simp only [sumExpr, Expr.nodes, List.forall_mem_singleton]
    rfl
  | succ n ih =>
    have hleft (h : τ.ExprTyped r (sumExpr n)) : τ.Has (sumExpr n).id (.prim .int .none) :=
      ih.mp h _ (sumExpr n).id_mem_nodes
    simp only [sumExpr, Expr.nodes, List.forall_mem_cons, List.forall_mem_append, ← ih]
    constructor
    · intro h
      have hsum := h.1
      obtain ⟨_, _, hterm, hwhole⟩ :=
        (Typing.exprTyped_binary_iff BinaryOp.onIntegers_add (hleft hsum)).mp h
      exact ⟨hwhole, hsum, hterm, List.forall_mem_nil _⟩
    · rintro ⟨hwhole, hsum, hterm, _⟩
      exact (Typing.exprTyped_binary_iff BinaryOp.onIntegers_add (hleft hsum)).mpr
        ⟨hsum, hterm, hterm, hwhole⟩

theorem declTyped_x_iff {terms : Nat} {id : NodeId} :
    τ.DeclTyped r ⟨id, "x", some (.value (sumExpr terms))⟩ ↔
      ∀ m ∈ id :: (sumExpr terms).nodes, τ.Has m (.prim .int .none) := by
  rw [List.forall_mem_cons, ← exprTyped_sumExpr_iff (r := r)]
  constructor
  · rintro ⟨hsum, hshare⟩
    have hroot := (exprTyped_sumExpr_iff terms).mp hsum _ (sumExpr terms).id_mem_nodes
    exact ⟨hshare.has hroot, hsum⟩
  · rintro ⟨hid, hsum⟩
    have hroot := (exprTyped_sumExpr_iff terms).mp hsum _ (sumExpr terms).id_mem_nodes
    exact ⟨hsum, _, hid, hroot⟩

theorem algorithmTyped_chain_iff {terms : Nat} :
    τ.AlgorithmTyped (.ofAlgorithm (chain terms)) (chain terms) ↔
      ∀ m ∈ ⟨2 * terms + 1⟩ :: (sumExpr terms).nodes, τ.Has m (.prim .int .none) := by
  constructor
  · exact fun h => declTyped_x_iff.mp (h.globals _ List.mem_cons_self)
  · intro h
    exact {
      constants := List.forall_mem_nil _
      globals := List.forall_mem_singleton.mpr (declTyped_x_iff.mpr h)
      units := List.forall_mem_nil _
      procedures := List.forall_mem_nil _
      archetypes := List.forall_mem_nil _
      mappingMacros := List.forall_mem_nil _
      instances := List.forall_mem_nil _
      processes := List.forall_mem_nil _ }

theorem settled_chain (terms : Nat) : (chain terms).Settled := by
  constructor
  case nodes =>
    rw [nodes_chain, List.nodup_cons]
    exact ⟨fun h => Nat.lt_irrefl _ (lt_of_mem_nodes_sumExpr h), nodup_nodes_sumExpr terms⟩
  case scope =>
    have huses : (chain terms).uses = [] := by
      simp [chain, Algorithm.uses, Scope.initUses, Decl.initial?, exprUses_sumExpr]
    rw [Registry.ofAlgorithm, huses]
    rfl
  case typing =>
    refine ⟨fun _ => some (.prim .int .none), algorithmTyped_chain_iff.mpr fun m _ => ?_⟩
    exact ⟨_, rfl, Ty.agrees_refl _⟩
  case pins =>
    intro n hn τ hτ
    rw [typedNodes_chain] at hn
    exact ⟨_, rfl, algorithmTyped_chain_iff.mp hτ n hn⟩
  case globals =>
    refine List.forall_mem_singleton.mpr fun τ hτ => ?_
    exact algorithmTyped_chain_iff.mp hτ _ List.mem_cons_self

end PlusCalTyping.Family
