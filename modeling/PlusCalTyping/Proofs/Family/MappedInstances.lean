import PlusCalTyping.Proofs.Family.Blocks
import PlusCalTyping.Proofs.Scope.Lookups
import PlusCalTyping.Proofs.Typing.Integers
import PlusCalTyping.Proofs.Typing.Mappings
import PlusCalTyping.Proofs.Typing.Pinned

/-! # Instances with mapped queues

All instances share one archetype and one mapping macro. Any of them settles the
parameter of the archetype, and with it what the macro reads and writes. Only the
identity that the body of the archetype sees is left to a default.
-/

namespace PlusCalTyping.Family

def queueParam : Param := ⟨⟨⟨0⟩, "queue", none⟩, true⟩

/-- The archetype, which increments its parameter. -/
def queueArchetype : Archetype :=
  let next : Expr := .binary ⟨3⟩ .add (.ident ⟨1⟩ "queue") (.literal ⟨2⟩ (.int 1))
  ⟨⟨6⟩, "Worker", ⟨7⟩, [queueParam], [], [.assign ⟨5⟩ [⟨.ident ⟨4⟩ "queue", next⟩]]⟩

/-- The macro, which passes on what is read and what is written. -/
def identityMacro : MappingMacro :=
  ⟨⟨12⟩, "Identity", ⟨13⟩, ⟨14⟩, ⟨15⟩, [.yield ⟨9⟩ (.ident ⟨8⟩ "$variable")],
    [.yield ⟨11⟩ (.ident ⟨10⟩ "$value")]⟩

def queueDecl (first i : Nat) : Decl :=
  ⟨⟨first + 1⟩, s!"q{i}", some (.value (.literal ⟨first⟩ (.int 0)))⟩

def queueInstance (first i : Nat) : Instance :=
  ⟨⟨first + 7⟩, ⟨⟨first + 3⟩, s!"W{i}", some (.value (.literal ⟨first + 2⟩ (.int i)))⟩, "Worker",
    [.ref ⟨first + 4⟩ s!"q{i}"], [⟨⟨first + 5⟩, .ident ⟨first + 6⟩ s!"q{i}", "Identity"⟩]⟩

def queues (count : Nat) : Algorithm :=
  { name := "MappedInstances"
    globals := (List.range count).map fun i => queueDecl (16 + 8 * i) i
    archetypes := [queueArchetype]
    mappingMacros := [identityMacro]
    instances := (List.range count).map fun i => queueInstance (16 + 8 * i) i }

theorem worker_eq (i first : Nat) :
    worker i ⟨first⟩ = ((queueDecl first i, queueInstance first i), ⟨first + 8⟩) := rfl

/-- The archetype and the macro are built first, of 16 nodes in all. -/
theorem mappedInstances_eq (count : Nat) : mappedInstances count = queues (max count 1) := by
  have hworkers : mappedInstances count =
      let workers := ((List.range (max count 1)).mapM worker ⟨16⟩).1
      { queues 0 with globals := workers.map (·.1), instances := workers.map (·.2) } := rfl
  rw [hworkers, Build.mapM_range worker_eq]
  simp only [List.map_map]
  rfl

/-! ## Nodes and names -/

/-- The nodes of the archetype and of the macro. -/
def sharedNodes : List NodeId := nodesAt 0 [6, 7, 0, 5, 4, 3, 1, 2, 12, 13, 14, 15, 9, 8, 11, 10]

def sharedTypedNodes : List NodeId := nodesAt 0 [7, 0, 4, 3, 1, 2, 6, 13, 14, 15, 8, 10]

def sharedIntegers : List NodeId := nodesAt 0 [0, 4, 3, 1, 2, 14, 15, 13, 8, 10]

theorem nodes_queues (count : Nat) : (queues count).nodes = blockNodes 16 8 [1, 0] count ++
    (sharedNodes ++ blockNodes 16 8 [3, 2, 7, 4, 6, 5] count) := by
  simp only [Algorithm.nodes, queues, Processes.nodes, List.flatMap_map, List.flatMap_nil,
    List.map_nil, List.append_nil, List.nil_append, List.append_assoc]
  rfl

theorem typedNodes_queues (count : Nat) (r : Registry) : (queues count).typedNodes r =
    blockNodes 16 8 [1, 0] count ++
      (sharedTypedNodes ++ blockNodes 16 8 [3, 2, 4, 6] count) := by
  simp only [Algorithm.typedNodes, queues, Processes.typedNodes, List.flatMap_map,
    List.flatMap_nil, List.append_nil, List.nil_append, List.append_assoc]
  rfl

theorem nodup_nodes_queues (count : Nat) : (queues count).nodes.Nodup := by
  have hbelow : ∀ n ∈ sharedNodes, n.val < 16 := by decide
  have hshared (offsets : List Nat) : sharedNodes.Disjoint (blockNodes 16 8 offsets count) :=
    fun n hn hblock => Nat.not_le.mpr (hbelow n hn) (le_of_mem_blockNodes hblock)
  rw [nodes_queues]
  refine List.Nodup.append (blockNodes_nodup (by decide) (by decide) count)
    (List.Nodup.append (by decide) (blockNodes_nodup (by decide) (by decide) count) (hshared _)) ?_
  rw [List.disjoint_append_right]
  exact ⟨(hshared _).symm, disjoint_blockNodes (by decide) (by decide) (by decide) count count⟩

theorem queueName_inj {i j : Nat} : s!"q{i}" = s!"q{j}" ↔ i = j :=
  (String.append_right_inj _).trans Nat.repr_inj

theorem queueName_ne_self (i : Nat) : s!"q{i}" ≠ "self" := by
  intro h
  have hfirst := congrArg (·.toList.head?) h
  rw [String.toList_append] at hfirst
  cases hfirst

theorem getElem?_globalScope_queues {count i : Nat} (hi : i < count) :
    (queues count).globalScope[s!"q{i}"]? = some ⟨16 + 8 * i + 1⟩ := by
  have hmem : queueDecl (16 + 8 * i) i ∈ (queues count).globals.reverse :=
    List.mem_reverse.mpr (List.mem_map_of_mem (List.mem_range.mpr hi))
  have hsome : ((queues count).globals.reverse.find? (·.name = s!"q{i}")).isSome :=
    List.find?_isSome.mpr ⟨_, hmem, decide_eq_true rfl⟩
  -- The last global of the name is this one, since the names tell the queues apart.
  obtain ⟨d, hd⟩ := Option.isSome_iff_exists.mp hsome
  obtain ⟨hlast, hname⟩ := mem_of_find?_name hd
  obtain ⟨j, _, rfl⟩ := List.mem_map.mp (List.mem_reverse.mp hlast)
  have hscope : (queues count).globalScope =
      Scope.declareAll ∅ (·.name) (·.id) (queues count).globals := rfl
  rw [hscope, Scope.getElem?_declareAll, hd, queueName_inj.mp hname]
  rfl

theorem archetypeUses_queueArchetype (a : Algorithm) :
    a.archetypeUses queueArchetype = [.bound ⟨4⟩ ⟨0⟩, .bound ⟨1⟩ ⟨0⟩] := by
  simp [Algorithm.archetypeUses, Algorithm.bodyUses, queueArchetype, queueParam, Scope.declUses,
    Scope.initUses, Decl.initial?, Scope.declareDecls, Scope.declareAll, Scope.declare,
    Scope.stmtsUses, Scope.stmtUses, Scope.exprUses, Scope.use]

theorem mappingMacroUses_identityMacro (a : Algorithm) :
    a.mappingMacroUses identityMacro = [.bound ⟨8⟩ ⟨13⟩, .bound ⟨10⟩ ⟨14⟩] := by
  simp [Algorithm.mappingMacroUses, Algorithm.bodyUses, identityMacro, Scope.declUses,
    Scope.declareDecls, Scope.declareAll, Scope.declare, Scope.stmtsUses, Scope.stmtUses,
    Scope.exprUses, Scope.use]

def queueUses (first : Nat) : List Use :=
  [.bound ⟨first + 4⟩ ⟨first + 1⟩, .bound ⟨first + 6⟩ ⟨first + 1⟩]

theorem instanceUses_queueInstance {count i : Nat} (hi : i < count) :
    (queues count).instanceUses (queueInstance (16 + 8 * i) i) = queueUses (16 + 8 * i) := by
  have hqueue := getElem?_globalScope_queues hi
  have htarget : (queues count).archetypeScope.contains "Worker" := rfl
  have hmacro : (queues count).mappingMacroScope.contains "Identity" := rfl
  -- The instance declares its identity first, which hides no queue.
  have hlater : ((queues count).globalScope.declare "self" ⟨16 + 8 * i + 3⟩)[s!"q{i}"]? =
      some ⟨16 + 8 * i + 1⟩ := by
    rw [Scope.declare, Std.TreeMap.getElem?_insert, if_neg, hqueue]
    exact fun h => queueName_ne_self i (Std.LawfulEqCmp.compare_eq_iff_eq.mp h).symm
  simp only [Algorithm.instanceUses, Algorithm.mappingUses, queueInstance, Scope.initUses,
    Decl.initial?, Scope.exprUses, Scope.listUses, Scope.use, Scope.missing, htarget, hmacro,
    hqueue, hlater, List.flatMap_cons, List.flatMap_nil]
  rfl

def sharedUses : List Use :=
  [.bound ⟨4⟩ ⟨0⟩, .bound ⟨1⟩ ⟨0⟩, .bound ⟨8⟩ ⟨13⟩, .bound ⟨10⟩ ⟨14⟩]

theorem uses_queues (count : Nat) : (queues count).uses =
    sharedUses ++ (List.range count).flatMap fun i => queueUses (16 + 8 * i) := by
  have hinstances : (queues count).instances.flatMap (queues count).instanceUses =
      (List.range count).flatMap fun i => queueUses (16 + 8 * i) := by
    rw [queues, List.flatMap_map]
    exact List.flatMap_congr fun i hi => instanceUses_queueInstance (List.mem_range.mp hi)
  have hglobals : (queues count).globals.flatMap (queues count).globalScope.initUses = [] := by
    refine List.flatMap_eq_nil_iff.mpr fun d hd => ?_
    obtain ⟨i, _, rfl⟩ := List.mem_map.mp hd
    rfl
  rw [Algorithm.uses, hinstances, hglobals]
  simp only [queues, List.flatMap_cons, List.flatMap_nil, archetypeUses_queueArchetype,
    mappingMacroUses_identityMacro, List.append_nil, List.nil_append]
  rfl

section

variable {count i : Nat}

theorem followReference_shared {site decl : NodeId} (h : .bound site decl ∈ sharedUses) :
    (Registry.ofAlgorithm (queues count)).followReference site = some decl := by
  refine Registry.followReference_of_bound (nodup_nodes_queues count) ?_
  rw [uses_queues]
  exact List.mem_append_left _ h

theorem followReference_instance (hi : i < count) {site decl : NodeId}
    (h : .bound site decl ∈ queueUses (16 + 8 * i)) :
    (Registry.ofAlgorithm (queues count)).followReference site = some decl := by
  refine Registry.followReference_of_bound (nodup_nodes_queues count) ?_
  rw [uses_queues]
  exact List.mem_append_right _ (List.mem_flatMap.mpr ⟨i, List.mem_range.mpr hi, h⟩)

theorem followReference_argument (hi : i < count) :
    (Registry.ofAlgorithm (queues count)).followReference ⟨16 + 8 * i + 4⟩ =
      some ⟨16 + 8 * i + 1⟩ :=
  followReference_instance hi List.mem_cons_self

theorem followReference_mapped (hi : i < count) :
    (Registry.ofAlgorithm (queues count)).followReference ⟨16 + 8 * i + 6⟩ =
      some ⟨16 + 8 * i + 1⟩ :=
  followReference_instance hi (List.mem_cons_of_mem _ List.mem_cons_self)

theorem findArchetype_queues :
    (Registry.ofAlgorithm (queues count)).findArchetype "Worker" = some queueArchetype := rfl

theorem findMappingMacro_queues :
    (Registry.ofAlgorithm (queues count)).findMappingMacro "Identity" = some identityMacro := rfl

theorem paramOf?_queues (hi : i < count) :
    Drafting.paramOf? (.ofAlgorithm (queues count)) (queueInstance (16 + 8 * i) i).args
      queueArchetype.params ⟨16 + 8 * i + 1⟩ = some queueParam :=
  Drafting.paramOf?_eq_some (k := 0) rfl (followReference_argument hi)
    (fun j hj => absurd hj j.not_lt_zero) rfl

/-! ## Types -/

variable {τ : Typing}

/-- The parameter is added to, which leaves no choice for the body. -/
theorem archetypeTyped_queueArchetype_iff (hparam : τ.Has ⟨0⟩ (.prim .int .none)) :
    τ.ArchetypeTyped (.ofAlgorithm (queues count)) queueArchetype ↔ τ.HasIdentity ⟨7⟩ ∧
      (∀ n ∈ nodesAt 0 [4, 3, 1, 2], τ.Has n (.prim .int .none)) ∧
      τ.Has ⟨6⟩ (.procedure [.prim .int .none] .none) := by
  let r := Registry.ofAlgorithm (queues count)
  have htarget : τ.Refers r ⟨4⟩ ↔ τ.Has ⟨4⟩ (.prim .int .none) :=
    Typing.refers_iff (followReference_shared (by simp [sharedUses])) hparam
  have hcurrent : τ.Refers r ⟨1⟩ ↔ τ.Has ⟨1⟩ (.prim .int .none) :=
    Typing.refers_iff (followReference_shared (by simp [sharedUses])) hparam
  have hsignature : τ.SignatureTyped ⟨6⟩ [⟨0⟩] ↔ τ.Has ⟨6⟩ (.procedure [.prim .int .none] .none) :=
    Typing.signatureTyped_iff (.cons hparam .nil)
  simp only [nodesAt, List.map_cons, List.map_nil, List.forall_mem_cons]
  constructor
  · intro h
    obtain ⟨hwritten, hnext, _⟩ := h.body.1 _ List.mem_cons_self
    have hleft : τ.Has ⟨1⟩ (.prim .int .none) := hcurrent.mp hnext.1
    obtain ⟨_, hright, _, hsum⟩ :=
      (Typing.exprTyped_binary_iff BinaryOp.onIntegers_add hleft).mp hnext
    exact ⟨h.identity, ⟨htarget.mp hwritten, hsum, hleft, hright, List.forall_mem_nil _⟩,
      hsignature.mp h.signature⟩
  · rintro ⟨hidentity, ⟨hwritten, hsum, hleft, hright, _⟩, hprocedure⟩
    refine ⟨hidentity, List.forall_mem_singleton.mpr trivial, List.forall_mem_nil _,
      ⟨List.forall_mem_singleton.mpr ⟨htarget.mpr hwritten, ?_, _, hwritten, hsum⟩, trivial⟩,
      hsignature.mpr hprocedure⟩
    exact (Typing.exprTyped_binary_iff BinaryOp.onIntegers_add hleft).mpr
      ⟨hcurrent.mpr hleft, hright, hright, hsum⟩

/-- What a write stores is the value that is written, so it is as the macro reads. -/
theorem macroTyped_identityMacro_iff (hvalue : τ.Has ⟨14⟩ (.prim .int .none))
    (hread : τ.Has ⟨15⟩ (.prim .int .none)) :
    τ.MacroTyped (.ofAlgorithm (queues count)) identityMacro ↔
      ∀ n ∈ nodesAt 0 [13, 8, 10], τ.Has n (.prim .int .none) := by
  let r := Registry.ofAlgorithm (queues count)
  have hwrites : τ.Refers r ⟨10⟩ ↔ τ.Has ⟨10⟩ (.prim .int .none) :=
    Typing.refers_iff (followReference_shared (by simp [sharedUses])) hvalue
  have hreads (h : τ.Has ⟨13⟩ (.prim .int .none)) :
      τ.Refers r ⟨8⟩ ↔ τ.Has ⟨8⟩ (.prim .int .none) :=
    Typing.refers_iff (followReference_shared (by simp [sharedUses])) h
  simp only [nodesAt, List.map_cons, List.map_nil, List.forall_mem_cons]
  constructor
  · intro h
    obtain ⟨hname, hstored⟩ := h.writes.1
    have hwritten : τ.Has ⟨10⟩ (.prim .int .none) := hwrites.mp hname
    have hvariable : τ.Has ⟨13⟩ (.prim .int .none) := (hstored _ rfl).symm.has hwritten
    exact ⟨hvariable, (hreads hvariable).mp h.reads.1.1, hwritten, List.forall_mem_nil _⟩
  · rintro ⟨hvariable, hname, hwritten, _⟩
    refine ⟨⟨⟨(hreads hvariable).mpr hname, fun n hn => ?_⟩, trivial⟩,
      ⟨⟨hwrites.mpr hwritten, fun n hn => ?_⟩, trivial⟩⟩
    · exact ⟨_, hname, Option.some.inj hn ▸ hread⟩
    · exact ⟨_, hwritten, Option.some.inj hn ▸ hvariable⟩

theorem mappingTyped_queueInstance_iff (hi : i < count) (hparam : τ.Has ⟨0⟩ (.prim .int .none))
    (hglobal : τ.Has ⟨16 + 8 * i + 1⟩ (.prim .int .none)) :
    (∀ m ∈ (queueInstance (16 + 8 * i) i).mappings, τ.MappingTyped (.ofAlgorithm (queues count))
      (queueInstance (16 + 8 * i) i).args queueArchetype.params m) ↔
        τ.Has ⟨16 + 8 * i + 6⟩ (.prim .int .none) ∧
          ∀ n ∈ nodesAt 0 [14, 15], τ.Has n (.prim .int .none) := by
  have hname := followReference_mapped hi
  refine List.forall_mem_singleton.trans ?_
  simp only [nodesAt, List.map_cons, List.map_nil, List.forall_mem_cons]
  constructor
  · intro h
    obtain ⟨hread, hvalue⟩ :=
      h.param _ _ _ hname (paramOf?_queues hi) rfl findMappingMacro_queues
    exact ⟨(Typing.refers_iff hname hglobal).mp h.variableExpr, hvalue.symm.has hparam,
      hread.symm.has hparam, List.forall_mem_nil _⟩
  · rintro ⟨hvariable, hvalue, hread, _⟩
    refine ⟨(Typing.refers_iff hname hglobal).mpr hvariable, fun global p x hg hp _ hx => ?_⟩
    cases hname.symm.trans hg
    cases (paramOf?_queues hi).symm.trans hp
    cases findMappingMacro_queues.symm.trans hx
    exact ⟨⟨_, hparam, hread⟩, ⟨_, hparam, hvalue⟩⟩

theorem instanceTyped_queueInstance_iff (hi : i < count) (hparam : τ.Has ⟨0⟩ (.prim .int .none))
    (hglobal : τ.Has ⟨16 + 8 * i + 1⟩ (.prim .int .none)) :
    τ.InstanceTyped (.ofAlgorithm (queues count)) (queueInstance (16 + 8 * i) i) ↔
      (∀ n ∈ nodesAt (16 + 8 * i) [3, 2, 4, 6], τ.Has n (.prim .int .none)) ∧
        (∀ n ∈ nodesAt 0 [14, 15], τ.Has n (.prim .int .none)) ∧
          τ.Has ⟨6⟩ (.procedure [.prim .int .none] .none) := by
  have hsplit : nodesAt (16 + 8 * i) [3, 2, 4, 6] =
      nodesAt (16 + 8 * i) [3, 2] ++ nodesAt (16 + 8 * i) [4, 6] := rfl
  have hpair : (∀ n ∈ nodesAt (16 + 8 * i) [4, 6], τ.Has n (.prim .int .none)) ↔
      τ.Has ⟨16 + 8 * i + 4⟩ (.prim .int .none) ∧ τ.Has ⟨16 + 8 * i + 6⟩ (.prim .int .none) := by
    simp [nodesAt]
  have hpassed := Typing.refers_iff (followReference_argument hi) hglobal
  have hmappings := mappingTyped_queueInstance_iff hi hparam hglobal
  have hsignature (h : τ.Has ⟨16 + 8 * i + 4⟩ (.prim .int .none)) :
      τ.SignatureTyped ⟨6⟩ [⟨16 + 8 * i + 4⟩] ↔ τ.Has ⟨6⟩ (.procedure [.prim .int .none] .none) :=
    Typing.signatureTyped_iff (.cons h .nil)
  rw [hsplit, List.forall_mem_append, hpair]
  constructor
  · intro h
    have hname := Typing.declTyped_int_iff.mp h.name
    have harg : τ.Has ⟨16 + 8 * i + 4⟩ (.prim .int .none) := hpassed.mp h.args.1
    obtain ⟨x, hx, hprocedure, hmapped⟩ := h.target
    cases findArchetype_queues.symm.trans hx
    obtain ⟨hvariable, hshared⟩ := hmappings.mp hmapped
    exact ⟨⟨hname, harg, hvariable⟩, hshared, (hsignature harg).mp hprocedure⟩
  · rintro ⟨⟨hname, harg, hvariable⟩, hshared, hprocedure⟩
    exact {
      name := Typing.declTyped_int_iff.mpr hname
      identity := .inl (hname _ List.mem_cons_self)
      args := ⟨hpassed.mpr harg, trivial⟩
      target := ⟨_, findArchetype_queues, (hsignature harg).mpr hprocedure,
        hmappings.mpr ⟨hvariable, hshared⟩⟩ }

/-- The parameter of the archetype has the type of the global that is passed for it. -/
theorem hasParam_of_instanceTyped (hi : i < count)
    (hbody : τ.ArchetypeTyped (.ofAlgorithm (queues count)) queueArchetype)
    (hinstance : τ.InstanceTyped (.ofAlgorithm (queues count)) (queueInstance (16 + 8 * i) i))
    (hglobal : τ.Has ⟨16 + 8 * i + 1⟩ (.prim .int .none)) : τ.Has ⟨0⟩ (.prim .int .none) := by
  have hshare : τ.Share ⟨16 + 8 * i + 4⟩ ⟨0⟩ :=
    hinstance.share_param (k := 0) findArchetype_queues hbody rfl rfl
  have hpassed := Typing.refers_iff (followReference_argument hi) hglobal
  exact hshare.symm.has (hpassed.mp hinstance.args.1)

/-- With at least one instance all types are settled but that of the identity. -/
theorem algorithmTyped_queues_iff (hcount : 0 < count) :
    τ.AlgorithmTyped (.ofAlgorithm (queues count)) (queues count) ↔ τ.HasIdentity ⟨7⟩ ∧
      τ.Has ⟨6⟩ (.procedure [.prim .int .none] .none) ∧
      (∀ n ∈ sharedIntegers, τ.Has n (.prim .int .none)) ∧
      ∀ i < count, ∀ n ∈ nodesAt (16 + 8 * i) [1, 0, 3, 2, 4, 6], τ.Has n (.prim .int .none) := by
  have hsplit : sharedIntegers = nodesAt 0 [0] ++
      (nodesAt 0 [4, 3, 1, 2] ++ (nodesAt 0 [14, 15] ++ nodesAt 0 [13, 8, 10])) := rfl
  have hblock (first : Nat) :
      nodesAt first [1, 0, 3, 2, 4, 6] = nodesAt first [1, 0] ++ nodesAt first [3, 2, 4, 6] := rfl
  simp only [hsplit, hblock, List.forall_mem_append]
  constructor
  · intro h
    have hglobal (i : Nat) (hi : i < count) :
        ∀ n ∈ nodesAt (16 + 8 * i) [1, 0], τ.Has n (.prim .int .none) :=
      Typing.declTyped_int_iff.mp (h.globals _ (List.mem_map_of_mem (List.mem_range.mpr hi)))
    have hinstance (i : Nat) (hi : i < count) :=
      h.instances _ (List.mem_map_of_mem (List.mem_range.mpr hi))
    have hbody := h.archetypes _ List.mem_cons_self
    have hparam := hasParam_of_instanceTyped hcount hbody (hinstance 0 hcount)
      (hglobal 0 hcount _ List.mem_cons_self)
    have htyped (i : Nat) (hi : i < count) := (instanceTyped_queueInstance_iff hi hparam
      (hglobal i hi _ List.mem_cons_self)).mp (hinstance i hi)
    obtain ⟨hidentity, hassigned, hprocedure⟩ :=
      (archetypeTyped_queueArchetype_iff hparam).mp hbody
    obtain ⟨_, hslots, _⟩ := htyped 0 hcount
    have hmapped := (macroTyped_identityMacro_iff (hslots ⟨14⟩ (by decide))
      (hslots ⟨15⟩ (by decide))).mp (h.mappingMacros _ List.mem_cons_self)
    exact ⟨hidentity, hprocedure, ⟨List.forall_mem_singleton.mpr hparam, hassigned, hslots,
      hmapped⟩, fun i hi => ⟨hglobal i hi, (htyped i hi).1⟩⟩
  · rintro ⟨hidentity, hprocedure, ⟨hparam, hassigned, hslots, hmapped⟩, hblocks⟩
    have hparam : τ.Has ⟨0⟩ (.prim .int .none) := hparam _ List.mem_cons_self
    have harchetype : τ.ArchetypeTyped (.ofAlgorithm (queues count)) queueArchetype :=
      (archetypeTyped_queueArchetype_iff hparam).mpr ⟨hidentity, hassigned, hprocedure⟩
    have hmacro : τ.MacroTyped (.ofAlgorithm (queues count)) identityMacro :=
      (macroTyped_identityMacro_iff (hslots ⟨14⟩ (by decide)) (hslots ⟨15⟩ (by decide))).mpr hmapped
    have hinstance (i : Nat) (hi : i < count) := (instanceTyped_queueInstance_iff hi hparam
      ((hblocks i hi).1 _ List.mem_cons_self)).mpr ⟨(hblocks i hi).2, hslots, hprocedure⟩
    exact {
      constants := List.forall_mem_nil _
      globals := List.forall_mem_map.mpr fun i hi =>
        Typing.declTyped_int_iff.mpr (hblocks i (List.mem_range.mp hi)).1
      units := List.forall_mem_nil _
      procedures := List.forall_mem_nil _
      archetypes := List.forall_mem_singleton.mpr harchetype
      mappingMacros := List.forall_mem_singleton.mpr hmacro
      instances := List.forall_mem_map.mpr fun i hi => hinstance i (List.mem_range.mp hi)
      processes := List.forall_mem_nil _ }

end

def queuesTyping : Typing := fun n =>
  some (if n = ⟨6⟩ then .procedure [.prim .int .none] .none else .prim .int .none)

theorem has_queuesTyping {n : NodeId} (h : n ≠ ⟨6⟩) : queuesTyping.Has n (.prim .int .none) :=
  ⟨_, congrArg some (if_neg h), Ty.agrees_refl _⟩

theorem settled_queues {count : Nat} (hcount : 0 < count) : (queues count).Settled := by
  constructor
  case nodes => exact nodup_nodes_queues count
  case scope =>
    refine Use.diagnostics_eq_nil_of_bound fun u hu => ?_
    rw [uses_queues] at hu
    rcases List.mem_append.mp hu with hu | hu
    · simp only [sharedUses, List.mem_cons, List.not_mem_nil, or_false] at hu
      rcases hu with rfl | rfl | rfl | rfl <;> exact ⟨_, _, rfl⟩
    · obtain ⟨i, _, hu⟩ := List.mem_flatMap.mp hu
      rcases List.mem_pair.mp hu with rfl | rfl <;> exact ⟨_, _, rfl⟩
  case typing =>
    refine ⟨queuesTyping, (algorithmTyped_queues_iff hcount).mpr
      ⟨.inl (has_queuesTyping (by decide)), ⟨_, rfl, rfl⟩, fun n hn => has_queuesTyping ?_,
        fun i _ n hn => has_queuesTyping ?_⟩⟩
    · rintro rfl
      exact absurd hn (by decide)
    · rintro rfl
      obtain ⟨k, _, hk⟩ := List.mem_map.mp hn
      have := NodeId.mk.inj hk
      omega
  case pins =>
    intro n hn τ hτ
    rw [typedNodes_queues] at hn
    obtain ⟨hidentity, hprocedure, hshared, hblocks⟩ := (algorithmTyped_queues_iff hcount).mp hτ
    have hblock {offsets : List Nat} (h : offsets ⊆ [1, 0, 3, 2, 4, 6])
        (hn : n ∈ blockNodes 16 8 offsets count) : τ.Has n (.prim .int .none) := by
      obtain ⟨i, hi, k, hk, rfl⟩ := mem_blockNodes.mp hn
      exact hblocks i hi _ (List.mem_map_of_mem (h hk))
    rcases List.mem_append.mp hn with hn | hn
    · exact ⟨_, rfl, hblock (by decide) hn⟩
    rcases List.mem_append.mp hn with hn | hn
    · have hcases : ∀ n ∈ sharedTypedNodes, n = ⟨7⟩ ∨ n = ⟨6⟩ ∨ n ∈ sharedIntegers := by decide
      rcases hcases n hn with rfl | rfl | hn
      · exact hidentity.elim (fun h => ⟨_, rfl, h⟩) fun h => ⟨_, rfl, h⟩
      · exact ⟨_, rfl, hprocedure⟩
      · exact ⟨_, rfl, hshared n hn⟩
    · exact ⟨_, rfl, hblock (by decide) hn⟩
  case globals =>
    refine List.forall_mem_map.mpr fun i hi τ hτ => ?_
    obtain ⟨_, _, _, hblocks⟩ := (algorithmTyped_queues_iff hcount).mp hτ
    exact hblocks i (List.mem_range.mp hi) _ List.mem_cons_self

end PlusCalTyping.Family
