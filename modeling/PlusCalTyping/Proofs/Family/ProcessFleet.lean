import PlusCalTyping.Proofs.Family.Blocks
import PlusCalTyping.Proofs.Typing.Integers
import PlusCalTyping.Proofs.Typing.Pinned

/-! # Fleets of processes

All processes share one counter, which begins as an integer. With that the types
of each process are settled on their own.
-/

namespace PlusCalTyping.Family

/-- The process with its nodes, from the first of its block. -/
def fleetMember (first i : Nat) : Process :=
  let identities : Expr :=
    .binary ⟨first + 2⟩ .range (.literal ⟨first⟩ (.int 1)) (.literal ⟨first + 1⟩ (.int 3))
  let next : Expr :=
    .binary ⟨first + 8⟩ .add (.ident ⟨first + 6⟩ "counter") (.ident ⟨first + 7⟩ "step")
  let ahead : Expr :=
    .binary ⟨first + 13⟩ .gt (.ident ⟨first + 11⟩ "counter") (.ident ⟨first + 12⟩ "self")
  { id := ⟨first + 16⟩
    name := ⟨⟨first + 3⟩, s!"P{i}", some (.member identities)⟩
    locals := [⟨⟨first + 5⟩, "step", some (.value (.literal ⟨first + 4⟩ (.int 1)))⟩]
    body := [.labeled ⟨first + 15⟩ "inc"
      [.assign ⟨first + 10⟩ [⟨.ident ⟨first + 9⟩ "counter", next⟩], .await ⟨first + 14⟩ ahead]] }

def counter : Decl := ⟨⟨1⟩, "counter", some (.value (.literal ⟨0⟩ (.int 0)))⟩

def fleet (count : Nat) : Algorithm :=
  { name := "ProcessFleet"
    globals := [counter]
    processes := .multi ((List.range count).map fun i => fleetMember (2 + 17 * i) i) }

theorem fleetProcess_eq (i first : Nat) :
    fleetProcess i ⟨first⟩ = (fleetMember first i, ⟨first + 17⟩) := rfl

theorem processFleet_eq (count : Nat) : processFleet count = fleet (max count 1) := by
  have hzero : Build.int 0 (.startingAt 0) = (.literal ⟨0⟩ (.int 0), ⟨1⟩) := rfl
  have hcounter : Build.declareEq "counter" (.literal ⟨0⟩ (.int 0)) ⟨1⟩ = (counter, ⟨2⟩) := rfl
  unfold processFleet Build.run
  rw [StateT.run, Build.bind_apply, hzero, Build.bind_apply, hcounter, Build.bind_apply,
    Build.mapM_range fleetProcess_eq]
  rfl

/-! ## Nodes and names -/

/-- The typed nodes of a process, as offsets from its first. -/
def fleetOffsets : List Nat := [3, 2, 0, 1, 5, 4, 9, 8, 6, 7, 13, 11, 12]

theorem nodes_fleet (count : Nat) : (fleet count).nodes = [⟨1⟩, ⟨0⟩] ++
    blockNodes 2 17 [16, 3, 2, 0, 1, 5, 4, 15, 10, 9, 8, 6, 7, 14, 13, 11, 12] count := by
  simp only [Algorithm.nodes, fleet, Processes.nodes, List.flatMap_map, List.flatMap_nil,
    List.map_nil, List.append_nil, List.nil_append]
  rfl

theorem typedNodes_fleet (count : Nat) (r : Registry) :
    (fleet count).typedNodes r = [⟨1⟩, ⟨0⟩] ++ blockNodes 2 17 fleetOffsets count := by
  simp only [Algorithm.typedNodes, fleet, Processes.typedNodes, List.flatMap_map, List.flatMap_nil,
    List.append_nil, List.nil_append]
  rfl

theorem nodup_nodes_fleet (count : Nat) : (fleet count).nodes.Nodup := by
  rw [nodes_fleet]
  refine List.Nodup.append (by decide) (blockNodes_nodup (by decide) (by decide) count) ?_
  intro n hn hblock
  have := le_of_mem_blockNodes hblock
  rcases List.mem_pair.mp hn with rfl | rfl <;> simp at this

def fleetUses (first : Nat) : List Use :=
  [.bound ⟨first + 9⟩ ⟨1⟩, .bound ⟨first + 6⟩ ⟨1⟩, .bound ⟨first + 7⟩ ⟨first + 5⟩,
    .bound ⟨first + 11⟩ ⟨1⟩, .bound ⟨first + 12⟩ ⟨first + 3⟩]

theorem processUses_fleetMember (count first i : Nat) :
    (fleet count).processUses (fleetMember first i) = fleetUses first := by
  cbv

theorem uses_fleet (count : Nat) :
    (fleet count).uses = (List.range count).flatMap fun i => fleetUses (2 + 17 * i) := by
  simp only [Algorithm.uses, fleet, List.flatMap_map, List.flatMap_nil, List.append_nil]
  exact List.flatMap_congr fun i _ => processUses_fleetMember count _ i

/-! ## Types -/

def fleetType : Nat → Ty
  | 2 => .set (.prim .int .none) .none
  | 13 => .prim .bool .none
  | _ => .prim .int .none

def fleetTyping : Typing := fun n =>
  some (if n.val < 2 then .prim .int .none else fleetType ((n.val - 2) % 17))

section

variable {τ : Typing} {r : Registry} {first : Nat} (i : Nat)

theorem name_fleetMember_iff : τ.DeclTyped r (fleetMember first i).name ↔
    ∀ k ∈ [3, 2, 0, 1], τ.Has ⟨first + k⟩ (fleetType k) := by
  simp only [List.forall_mem_cons]
  constructor
  · rintro ⟨hrange, t, hname, hset⟩
    have hlow : τ.Has ⟨first⟩ (.prim .int .none) := hrange.1
    obtain ⟨_, hhigh, _, hwhole⟩ :=
      (Typing.exprTyped_binary_iff BinaryOp.onIntegers_range hlow).mp hrange
    exact ⟨hname.congr (hset.agrees hwhole), hwhole, hlow, hhigh, List.forall_mem_nil _⟩
  · rintro ⟨hname, hwhole, hlow, hhigh, _⟩
    refine ⟨(Typing.exprTyped_binary_iff BinaryOp.onIntegers_range hlow).mpr ?_, _, hname, hwhole⟩
    exact ⟨hlow, hhigh, hhigh, hwhole⟩

theorem locals_fleetMember_iff : (∀ d ∈ (fleetMember first i).locals, τ.DeclTyped r d) ↔
    ∀ k ∈ [5, 4], τ.Has ⟨first + k⟩ (fleetType k) := by
  refine List.forall_mem_singleton.trans (Typing.declTyped_int_iff.trans ?_)
  simp only [List.mem_cons, List.not_mem_nil, or_false, forall_eq_or_imp, forall_eq]
  rfl

variable (hrefers : ∀ site decl, .bound site decl ∈ fleetUses first →
  r.followReference site = some decl)

include hrefers

/-- The counter is added to and compared, so all names in the body are of integers. -/
theorem body_fleetMember_iff (hcounter : τ.Has ⟨1⟩ (.prim .int .none))
    (hself : τ.Has ⟨first + 3⟩ (.prim .int .none)) (hstep : τ.Has ⟨first + 5⟩ (.prim .int .none))
    (place : Typing.Place) : τ.StmtsTyped r place (fleetMember first i).body ↔
      ∀ k ∈ [9, 8, 6, 7, 13, 11, 12], τ.Has ⟨first + k⟩ (fleetType k) := by
  have htarget := Typing.refers_iff (hrefers ⟨first + 9⟩ ⟨1⟩ (by simp [fleetUses])) hcounter
  have hcurrent := Typing.refers_iff (hrefers ⟨first + 6⟩ ⟨1⟩ (by simp [fleetUses])) hcounter
  have hamount :=
    Typing.refers_iff (hrefers ⟨first + 7⟩ ⟨first + 5⟩ (by simp [fleetUses])) hstep
  have hcompared := Typing.refers_iff (hrefers ⟨first + 11⟩ ⟨1⟩ (by simp [fleetUses])) hcounter
  have hme := Typing.refers_iff (hrefers ⟨first + 12⟩ ⟨first + 3⟩ (by simp [fleetUses])) hself
  simp only [List.forall_mem_cons]
  constructor
  · rintro ⟨⟨hincrement, ⟨hahead, _⟩, _⟩, _⟩
    obtain ⟨hwritten, hnext, _⟩ := hincrement _ List.mem_cons_self
    have hleft : τ.Has ⟨first + 6⟩ (.prim .int .none) := hcurrent.mp hnext.1
    have hleft' : τ.Has ⟨first + 11⟩ (.prim .int .none) := hcompared.mp hahead.1
    obtain ⟨_, hright, _, hsum⟩ :=
      (Typing.exprTyped_binary_iff BinaryOp.onIntegers_add hleft).mp hnext
    obtain ⟨_, hright', _, hbool⟩ :=
      (Typing.exprTyped_binary_iff BinaryOp.onIntegers_gt hleft').mp hahead
    exact ⟨htarget.mp hwritten, hsum, hleft, hamount.mp hright, hbool, hleft', hme.mp hright',
      List.forall_mem_nil _⟩
  · rintro ⟨hwritten, hsum, hleft, hright, hbool, hleft', hright', _⟩
    refine ⟨⟨List.forall_mem_singleton.mpr ⟨htarget.mpr hwritten, ?_, _, hwritten, hsum⟩,
      ⟨?_, hbool⟩, trivial⟩, trivial⟩
    · exact (Typing.exprTyped_binary_iff BinaryOp.onIntegers_add hleft).mpr
        ⟨hcurrent.mpr hleft, hamount.mpr hright, hright, hsum⟩
    · exact (Typing.exprTyped_binary_iff BinaryOp.onIntegers_gt hleft').mpr
        ⟨hcompared.mpr hleft', hme.mpr hright', hright', hbool⟩

theorem processTyped_fleetMember_iff (hcounter : τ.Has ⟨1⟩ (.prim .int .none)) :
    τ.ProcessTyped r (fleetMember first i) ↔
      ∀ k ∈ fleetOffsets, τ.Has ⟨first + k⟩ (fleetType k) := by
  have hsplit : fleetOffsets = [3, 2, 0, 1] ++ ([5, 4] ++ [9, 8, 6, 7, 13, 11, 12]) := rfl
  rw [hsplit, List.forall_mem_append, List.forall_mem_append]
  constructor
  · intro h
    have hname := (name_fleetMember_iff i).mp h.name
    have hlocals := (locals_fleetMember_iff i).mp h.locals
    exact ⟨hname, hlocals, (body_fleetMember_iff i hrefers hcounter (hname 3 (by decide))
      (hlocals 5 (by decide)) _).mp h.body⟩
  · rintro ⟨hname, hlocals, hbody⟩
    exact ⟨(name_fleetMember_iff i).mpr hname, .inl (hname 3 (by decide)),
      (locals_fleetMember_iff i).mpr hlocals, (body_fleetMember_iff i hrefers hcounter
        (hname 3 (by decide)) (hlocals 5 (by decide)) _).mpr hbody⟩

end

theorem vars_fleetType (k : Nat) : (fleetType k).vars = [] := by
  unfold fleetType
  split <;> rfl

theorem has_fleetTyping (i : Nat) {k : Nat} (hk : k < 17) :
    fleetTyping.Has ⟨2 + 17 * i + k⟩ (fleetType k) := by
  have hlow : ¬2 + 17 * i + k < 2 := by omega
  have hoffset : (2 + 17 * i + k - 2) % 17 = k := by omega
  refine ⟨_, rfl, ?_⟩
  rw [if_neg hlow, hoffset]
  exact Ty.agrees_refl _

theorem followReference_fleet {count i : Nat} (hi : i < count) (site decl : NodeId)
    (h : .bound site decl ∈ fleetUses (2 + 17 * i)) :
    (Registry.ofAlgorithm (fleet count)).followReference site = some decl := by
  refine Registry.followReference_of_bound (nodup_nodes_fleet count) ?_
  rw [uses_fleet]
  exact List.mem_flatMap.mpr ⟨i, List.mem_range.mpr hi, h⟩

/-- The counter is settled by its own value, and then each process by itself. -/
theorem algorithmTyped_fleet_iff {τ : Typing} {count : Nat} :
    τ.AlgorithmTyped (.ofAlgorithm (fleet count)) (fleet count) ↔
      (∀ n ∈ [⟨1⟩, ⟨0⟩], τ.Has n (.prim .int .none)) ∧
      ∀ i < count, ∀ k ∈ fleetOffsets, τ.Has ⟨2 + 17 * i + k⟩ (fleetType k) := by
  constructor
  · intro h
    have hcounter : ∀ n ∈ [⟨1⟩, ⟨0⟩], τ.Has n (.prim .int .none) :=
      Typing.declTyped_int_iff.mp (h.globals _ List.mem_cons_self)
    refine ⟨hcounter, fun i hi => ?_⟩
    exact (processTyped_fleetMember_iff i (followReference_fleet hi)
      (hcounter _ List.mem_cons_self)).mp
      (h.processes _ (List.mem_map_of_mem (List.mem_range.mpr hi)))
  · rintro ⟨hcounter, hblocks⟩
    have hprocess (i : Nat) (hi : i < count) := (processTyped_fleetMember_iff i
      (followReference_fleet hi) (hcounter _ List.mem_cons_self)).mpr (hblocks i hi)
    exact {
      constants := List.forall_mem_nil _
      globals := List.forall_mem_singleton.mpr (Typing.declTyped_int_iff.mpr hcounter)
      units := List.forall_mem_nil _
      procedures := List.forall_mem_nil _
      archetypes := List.forall_mem_nil _
      mappingMacros := List.forall_mem_nil _
      instances := List.forall_mem_nil _
      processes := List.forall_mem_map.mpr fun i hi => hprocess i (List.mem_range.mp hi) }

theorem settled_fleet (count : Nat) : (fleet count).Settled := by
  constructor
  case nodes => exact nodup_nodes_fleet count
  case scope =>
    refine Use.diagnostics_eq_nil_of_bound fun u hu => ?_
    rw [uses_fleet] at hu
    obtain ⟨i, _, hu⟩ := List.mem_flatMap.mp hu
    simp only [fleetUses, List.mem_cons, List.not_mem_nil, or_false] at hu
    rcases hu with rfl | rfl | rfl | rfl | rfl <;> exact ⟨_, _, rfl⟩
  case typing =>
    have hoffsets : ∀ k ∈ fleetOffsets, k < 17 := by decide
    refine ⟨fleetTyping, algorithmTyped_fleet_iff.mpr ⟨fun n hn => ?_, fun i _ k hk => ?_⟩⟩
    · rcases List.mem_pair.mp hn with rfl | rfl <;> exact ⟨_, rfl, rfl⟩
    · exact has_fleetTyping i (hoffsets k hk)
  case pins =>
    intro n hn τ hτ
    obtain ⟨hcounter, hblocks⟩ := algorithmTyped_fleet_iff.mp hτ
    rw [typedNodes_fleet] at hn
    rcases List.mem_append.mp hn with hn | hn
    · exact ⟨_, rfl, hcounter n hn⟩
    · obtain ⟨i, hi, k, hk, rfl⟩ := mem_blockNodes.mp hn
      exact ⟨_, vars_fleetType k, hblocks i hi k hk⟩
  case globals =>
    refine List.forall_mem_singleton.mpr fun τ hτ => ?_
    exact (algorithmTyped_fleet_iff.mp hτ).1 _ List.mem_cons_self

end PlusCalTyping.Family
