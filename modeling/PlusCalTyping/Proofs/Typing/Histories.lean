import Mathlib.Data.List.Pairwise
import PlusCalTyping.Proofs.Typing.Coverage.Supplied
import PlusCalTyping.Proofs.Typing.Lockstep.Algorithm
import PlusCalTyping.Proofs.Typing.Permutations

/-! # Histories of a registry

Between two runs of inference a registry may be given other values for constants and
other Go types, and each run leaves its slots. The next run finds what it would find
with a fresh registry that was given only the last value of each constant
(`Registry.reinfer_performAll`).
-/

namespace PlusCalTyping

/-! ## The last entry of each key -/

section LastOfEach

variable {κ β : Type} [DecidableEq κ]

/-- Of entries with one key the last is kept. -/
def lastOfEach (vs : List (κ × β)) : List (κ × β) := vs.pwFilter fun v w => v.1 ≠ w.1

theorem nodup_keys_lastOfEach (vs : List (κ × β)) : ((lastOfEach vs).map Prod.fst).Nodup :=
  List.pairwise_map.mpr (List.pairwise_pwFilter vs)

theorem lastOfEach_sublist (vs : List (κ × β)) : (lastOfEach vs).Sublist vs :=
  List.pwFilter_sublist vs

theorem find?_reverse_lastOfEach (vs : List (κ × β)) (k : κ) :
    (lastOfEach vs).reverse.find? (·.1 = k) = vs.reverse.find? (·.1 = k) := by
  induction vs with
  | nil => rfl
  | cons v vs ih =>
    rw [List.reverse_cons, List.find?_append, ← ih]
    by_cases h : ∀ w ∈ lastOfEach vs, v.1 ≠ w.1
    · rw [lastOfEach, List.pwFilter_cons_of_pos h, List.reverse_cons, List.find?_append]
      rfl
    · rw [lastOfEach, List.pwFilter_cons_of_neg h]
      push Not at h
      obtain ⟨w, hw, heq⟩ := h
      -- If the entry is of the key, a later one is found first.
      by_cases hk : v.1 = k
      · have hsome : ((lastOfEach vs).reverse.find? (·.1 = k)).isSome := by
          rw [List.find?_isSome]
          exact ⟨w, List.mem_reverse.mpr hw, decide_eq_true (heq ▸ hk)⟩
        exact (Option.or_of_isSome hsome).symm
      · simp [hk, lastOfEach]

/-- The order of the entries that are kept does not matter. -/
theorem find?_reverse_of_perm_lastOfEach {ks vs : List (κ × β)} (h : ks.Perm (lastOfEach vs))
    (k : κ) : ks.reverse.find? (·.1 = k) = vs.reverse.find? (·.1 = k) := by
  rw [← find?_reverse_lastOfEach vs]
  refine find?_eq_of_perm ?_ ?_ k
  · exact (List.reverse_perm ks).trans (h.trans (List.reverse_perm _).symm)
  · exact (((List.reverse_perm ks).trans h).map Prod.fst).nodup_iff.mpr (nodup_keys_lastOfEach vs)

end LastOfEach

/-! ## What names in values refer to -/

namespace Algorithm

variable {a : Algorithm}

/-- What a value of a constant refers to is declared globally or in the value itself. -/
theorem declared_of_value {value : Expr} {site decl : NodeId}
    (h : Use.bound site decl ∈ a.globalScope.exprUses value) :
    (∃ d ∈ a.globalEnv, d.id = decl) ∨ decl ∈ value.nodes := by
  rw [← a.toScope_globalEnv, Expr.mem_exprUses_iff] at h
  obtain ⟨o, ho, huse⟩ := h
  obtain ⟨_, hvisible⟩ := Occurrence.use_eq_bound_iff.mp huse
  obtain ⟨d, hd, rfl⟩ := Env.mem_of_innermost hvisible
  exact (ho.declared d hd).imp_left fun hd => ⟨d, hd, rfl⟩

/-- The nodes at which global names are declared. -/
def globalNodes (a : Algorithm) : List NodeId :=
  a.constants.map (·.id) ++ (a.globals.flatMap Decl.nodes ++ a.units.flatMap Expr.definitionNodes)

theorem globalNodes_sublist (a : Algorithm) :
    (a.globalNodes ++ a.procedures.flatMap Procedure.nodes).Sublist a.nodes := by
  simp only [globalNodes, nodes, List.append_assoc]
  exact (((List.sublist_append_left _ _).append_left _).append_left _).append_left _

theorem mem_globalNodes {d : Node String} (hd : d ∈ a.globalEnv) : d.id ∈ a.globalNodes := by
  have hd := (Env.mem_declare.mp hd).resolve_right List.not_mem_nil
  simp only [globalNodes, List.mem_append]
  rcases List.mem_append.mp hd with hd | hd
  · rcases List.mem_append.mp hd with hd | hd
    · exact .inl (List.mem_map_of_mem hd)
    · obtain ⟨x, hx, rfl⟩ := List.mem_map.mp hd
      exact .inr (.inl (List.mem_flatMap.mpr ⟨x, hx, List.mem_cons_self⟩))
  · obtain ⟨x, hx, rfl⟩ := List.mem_map.mp hd
    refine .inr (.inr (List.mem_flatMap.mpr ⟨x, hx, ?_⟩))
    rw [Expr.definitionNodes_eq]
    exact List.mem_cons_self

theorem selfId_mem {p : Procedure} (hp : p ∈ a.procedures) :
    p.selfId ∈ a.procedures.flatMap Procedure.nodes :=
  List.mem_flatMap.mpr ⟨p, hp, List.mem_cons_of_mem _ List.mem_cons_self⟩

theorem selfId_mem_nodes {p : Procedure} (hp : p ∈ a.procedures) : p.selfId ∈ a.nodes :=
  a.globalNodes_sublist.subset (List.mem_append_right _ (selfId_mem hp))

theorem id_ne_selfId_of_global (hnodes : a.nodes.Nodup) {p : Procedure} (hp : p ∈ a.procedures)
    {d : Node String} (hd : d ∈ a.globalEnv) : d.id ≠ p.selfId :=
  (List.nodup_append.mp (a.globalNodes_sublist.nodup hnodes)).2.2 _ (mem_globalNodes hd) _
    (selfId_mem hp)

end Algorithm

namespace Registry

variable {a : Algorithm} {r r' : Registry} {values values' : List Expr}

namespace Holds

variable {given : List (NodeId × Expr)} (h : r.Holds a given)
  (hnodes : (a.nodes ++ given.flatMap (·.2.nodes)).Nodup)
include h hnodes

theorem followReference_iff_of_mem_nodes {n decl : NodeId} (hn : n ∈ a.nodes) :
    r.followReference n = some decl ↔ .bound n decl ∈ a.uses :=
  ⟨h.bound_of_mem_nodes hnodes hn, fun hu =>
    (h.followReference_iff hnodes).mpr (List.mem_append_left _ hu)⟩

theorem followReference_iff_of_mem_value {c n decl : NodeId} {value : Expr}
    (hc : r.constantValue c = some value) (hn : n ∈ value.nodes) :
    r.followReference n = some decl ↔ .bound n decl ∈ a.globalScope.exprUses value := by
  refine ⟨h.bound_of_mem_value hnodes hc hn, fun hu => (h.followReference_iff hnodes).mpr ?_⟩
  exact List.mem_append_right _ (List.mem_flatMap.mpr ⟨_, h.mem_given hc, hu⟩)

/-- Values of constants do not refer to the identity of a procedure. -/
theorem isReferenced_selfId_iff {p : Procedure} (hp : p ∈ a.procedures) :
    r.isReferenced p.selfId ↔ ∃ site, .bound site p.selfId ∈ a.uses := by
  obtain ⟨hnodes', _, hdisjoint⟩ := List.nodup_append.mp hnodes
  rw [isReferenced_iff]
  refine exists_congr fun site => (h.followReference_iff hnodes).trans ⟨fun hu => ?_, fun hu =>
    List.mem_append_left _ hu⟩
  refine (List.mem_append.mp hu).resolve_right fun hu => ?_
  obtain ⟨g, hg, hu⟩ := List.mem_flatMap.mp hu
  rcases Algorithm.declared_of_value hu with ⟨d, hd, heq⟩ | hdecl
  · exact Algorithm.id_ne_selfId_of_global hnodes' hp hd heq
  · exact hdisjoint _ (Algorithm.selfId_mem_nodes hp) _ (List.mem_flatMap.mpr ⟨g, hg, hdecl⟩) rfl

end Holds

/-- Registries of an algorithm with the same values answer alike, whatever values they
had before. -/
theorem Supplied.matches (h : Supplied a r values) (h' : Supplied a r' values')
    (hnodes : (a.nodes ++ values.flatMap Expr.nodes).Nodup)
    (hnodes' : (a.nodes ++ values'.flatMap Expr.nodes).Nodup)
    (hvalues : ∀ c, r.constantValue c = r'.constantValue c) : r.Matches a r' := by
  obtain ⟨given, _, hholds, hgiven⟩ := h.exists_given hnodes
  obtain ⟨given', _, hholds', hgiven'⟩ := h'.exists_given hnodes'
  exact {
    diagnostics := h.knows.diagnostics.trans h'.knows.diagnostics.symm
    constants := hholds.constants.trans hholds'.constants.symm
    constantValue := fun c _ => hvalues c.id
    procedures := h.knows.procedures.trans h'.knows.procedures.symm
    archetypes := h.knows.archetypes.trans h'.knows.archetypes.symm
    mappingMacros := h.knows.mappingMacros.trans h'.knows.mappingMacros.symm
    references := fun n hn => Option.ext fun decl =>
      (hholds.followReference_iff_of_mem_nodes hgiven hn).trans
        (hholds'.followReference_iff_of_mem_nodes hgiven' hn).symm
    values := fun c value hvalue n hn => Option.ext fun decl =>
      (hholds.followReference_iff_of_mem_value hgiven hvalue hn).trans
        (hholds'.followReference_iff_of_mem_value hgiven' (hvalues c ▸ hvalue) hn).symm
    identities := fun p hp => Bool.eq_iff_iff.mpr
      ((hholds.isReferenced_selfId_iff hgiven hp).trans
        (hholds'.isReferenced_selfId_iff hgiven' hp).symm) }

/-! ## Operations -/

/-- What may be done with a registry. A run may be about any algorithm. -/
inductive Operation
  | setConstantValue (name : String) (value : Expr)
  | infer (b : Algorithm) (o : Options)
  | check (b : Algorithm) (o : Options)
  | writeGlobalTypes (types : NodeMap Ty)
  | setGlobalType (global : NodeId) (t : GoType)

/-- The registry after an operation. One that fails leaves it as it was, but for the
slots of a run. -/
def perform (r : Registry) : Operation → Registry
  | .setConstantValue name value => (r.setConstantValue name value).toOption.getD r
  | .infer b o => (r.reinfer b o).2
  | .check b o => (r.recheck b o).2
  | .writeGlobalTypes types => (r.writeGlobalTypes types).toOption.getD r
  | .setGlobalType global t => r.setGlobalType global t

def performAll (r : Registry) (ops : List Operation) : Registry := ops.foldl perform r

/-- The value that an operation gives to a constant, by the name of the constant. -/
def givenBy (r : Registry) : Operation → List (String × Expr)
  | .setConstantValue name value =>
    if (r.setConstantValue name value).isOk then [(name, value)] else []
  | _ => []

/-- The values that constants are given one after the other, without those that are refused. -/
def givenByAll (r : Registry) : List Operation → List (String × Expr)
  | [] => []
  | op :: ops => r.givenBy op ++ (r.perform op).givenByAll ops

/-- Set values one after the other. -/
def settings (vs : List (String × Expr)) : List Operation :=
  vs.map fun v => .setConstantValue v.1 v.2

variable {op : Operation} {ops : List Operation}

/-- An operation gives a constant a value or changes nothing but slots and Go types. -/
theorem perform_cases (r : Registry) (op : Operation) :
    (r.givenBy op = [] ∧ r.Retypes (r.perform op)) ∨
      ∃ name value, r.givenBy op = [(name, value)] ∧
        r.setConstantValue name value = .ok (r.perform op) := by
  cases op with
  | setConstantValue name value =>
    dsimp only [givenBy, perform]
    cases hset : r.setConstantValue name value with
    | error e => exact .inl ⟨rfl, .refl r⟩
    | ok r' => exact .inr ⟨name, value, rfl, hset⟩
  | infer b o => exact .inl ⟨rfl, r.retypes_inferFrom r.slots b o⟩
  | check b o => exact .inl ⟨rfl, r.retypes_recheck b o⟩
  | writeGlobalTypes types =>
    refine .inl ⟨rfl, ?_⟩
    dsimp only [perform]
    cases hwrite : r.writeGlobalTypes types with
    | error e => exact .refl r
    | ok r' => exact retypes_writeGlobalTypes hwrite
  | setGlobalType global t => exact .inl ⟨rfl, r.retypes_setGlobalType global t⟩

theorem Supplied.perform (h : Supplied a r values) (op : Operation) :
    Supplied a (r.perform op) (values ++ (r.givenBy op).map Prod.snd) := by
  rcases r.perform_cases op with ⟨hnone, hr⟩ | ⟨name, value, hgiven, hset⟩
  · rw [hnone, List.map_nil, List.append_nil]
    exact h.retypes hr
  · rw [hgiven]
    exact h.setConstantValue hset

theorem Supplied.performAll (h : Supplied a r values) (ops : List Operation) :
    Supplied a (r.performAll ops) (values ++ (r.givenByAll ops).map Prod.snd) := by
  induction ops generalizing r values with
  | nil =>
    rw [givenByAll, List.map_nil, List.append_nil]
    exact h
  | cons op ops ih =>
    rw [givenByAll, List.map_append, ← List.append_assoc]
    exact ih (h.perform op)

/-- The constant that a name stands for. -/
def constantId (r : Registry) (name : String) : Option NodeId :=
  (r.constants.find? (·.value = name)).map (·.id)

theorem constants_perform (r : Registry) (op : Operation) :
    (r.perform op).constants = r.constants ∧ (r.perform op).globalScope = r.globalScope := by
  rcases r.perform_cases op with ⟨_, _, _, hr⟩ | ⟨name, value, _, hset⟩
  · rw [hr]
    exact ⟨rfl, rfl⟩
  · obtain ⟨c, _, _, hr⟩ := exists_of_setConstantValue hset
    rw [hr]
    exact ⟨rfl, rfl⟩

/-- A constant keeps its value until it is given another. -/
theorem constantValue_perform (r : Registry) (op : Operation) (c : NodeId) :
    (r.perform op).constantValue c =
      (((r.givenBy op).reverse.find? fun v => r.constantId v.1 = some c).map (·.2)).or
        (r.constantValue c) := by
  rcases r.perform_cases op with ⟨hnone, _, _, hr⟩ | ⟨name, value, hgiven, hset⟩
  · rw [hnone, hr]
    rfl
  · obtain ⟨k, hk, _, hr⟩ := exists_of_setConstantValue hset
    have hid : r.constantId name = some k.id := by rw [constantId, hk, Option.map_some]
    rw [hgiven, hr]
    refine Std.TreeMap.getElem?_insert.trans ?_
    by_cases hc : k.id = c
    · simp [hid, hc]
    · simp [hid, hc, Std.LawfulEqCmp.compare_eq_iff_eq, constantValue]

/-- Of the values that were given to a constant it has the last. -/
theorem constantValue_performAll (r : Registry) (ops : List Operation) (c : NodeId) :
    (r.performAll ops).constantValue c =
      (((r.givenByAll ops).reverse.find? fun v => r.constantId v.1 = some c).map (·.2)).or
        (r.constantValue c) := by
  induction ops generalizing r with
  | nil => rfl
  | cons op ops ih =>
    have hid : (r.perform op).constantId = r.constantId := by
      funext name
      rw [constantId, (r.constants_perform op).1]
      rfl
    rw [performAll, List.foldl_cons, ← performAll, ih, hid, constantValue_perform, givenByAll,
      List.reverse_append, List.find?_append, Option.map_or, Option.or_assoc]

/-- Whether a value is refused depends only on what never changes. -/
theorem isOk_setConstantValue_perform (r : Registry) (op : Operation) (name : String)
    (value : Expr) : ((r.perform op).setConstantValue name value).isOk =
      (r.setConstantValue name value).isOk := by
  obtain ⟨hconstants, hscope⟩ := r.constants_perform op
  unfold setConstantValue
  rw [hconstants, hscope]
  split
  · rfl
  · dsimp only
    split <;> rfl

theorem isOk_of_mem_givenByAll {v : String × Expr} (hv : v ∈ r.givenByAll ops) :
    (r.setConstantValue v.1 v.2).isOk := by
  induction ops generalizing r with
  | nil => cases hv
  | cons op ops ih =>
    rcases List.mem_append.mp hv with hv | hv
    · rcases r.perform_cases op with ⟨hnone, _⟩ | ⟨name, value, hgiven, hset⟩
      · rw [hnone] at hv
        cases hv
      · rw [hgiven, List.mem_singleton] at hv
        rw [hv, hset]
        rfl
    · rw [← isOk_setConstantValue_perform r op]
      exact ih hv

theorem givenByAll_settings {vs : List (String × Expr)}
    (h : ∀ v ∈ vs, (r.setConstantValue v.1 v.2).isOk) : r.givenByAll (settings vs) = vs := by
  induction vs generalizing r with
  | nil => rfl
  | cons v vs ih =>
    obtain ⟨hv, hvs⟩ := List.forall_mem_cons.mp h
    have hrest := ih (r := r.perform (.setConstantValue v.1 v.2)) fun w hw => by
      rw [isOk_setConstantValue_perform]
      exact hvs w hw
    rw [settings, List.map_cons, givenByAll, ← settings, hrest, givenBy, if_pos hv]
    rfl

/-- Different names stand for different constants. -/
theorem constantId_injective (hids : (r.constants.map (·.id)).Nodup) {name name' : String}
    {c : NodeId} (h : r.constantId name = some c) (h' : r.constantId name' = some c) :
    name = name' := by
  obtain ⟨k, hk, rfl⟩ := Option.map_eq_some_iff.mp h
  obtain ⟨k', hk', hid⟩ := Option.map_eq_some_iff.mp h'
  have heq := List.inj_on_of_nodup_map hids (List.mem_of_find?_eq_some hk)
    (List.mem_of_find?_eq_some hk') hid.symm
  have hname : k.value = name := by simpa using List.find?_some hk
  have hname' : k'.value = name' := by simpa using List.find?_some hk'
  rw [← hname, heq, hname']

/-- The last value of each constant decides which values a registry holds. -/
theorem constantValue_performAll_congr (hids : (r.constants.map (·.id)).Nodup)
    {ops ops' : List Operation} (h : ∀ name : String,
      (r.givenByAll ops).reverse.find? (·.1 = name) =
        (r.givenByAll ops').reverse.find? (·.1 = name)) (c : NodeId) :
    (r.performAll ops).constantValue c = (r.performAll ops').constantValue c := by
  rw [constantValue_performAll, constantValue_performAll]
  by_cases hc : ∃ name, r.constantId name = some c
  · obtain ⟨name, hname⟩ := hc
    have hiff (v : String × Expr) : r.constantId v.1 = some c ↔ v.1 = name :=
      ⟨fun hv => constantId_injective hids hv hname, fun hv => hv ▸ hname⟩
    simp only [hiff, h name]
  · -- No name stands for the node, so neither history gave it a value.
    have hnone (vs : List (String × Expr)) :
        (vs.find? fun v => r.constantId v.1 = some c) = none :=
      List.find?_eq_none.mpr fun v _ hv => hc ⟨v.1, of_decide_eq_true hv⟩
    rw [hnone, hnone]

/-- Inference finds the same after any history of a registry as it finds with a fresh
registry in which each constant was only given the last of its values, in any order. -/
theorem reinfer_performAll (a : Algorithm) (ops : List Operation) (o : Options)
    (hnodes : (a.nodes ++ ((ofAlgorithm a).givenByAll ops).flatMap (·.2.nodes)).Nodup)
    {kept : List (String × Expr)}
    (hkept : kept.Perm (lastOfEach ((ofAlgorithm a).givenByAll ops))) :
    let used := (ofAlgorithm a).performAll ops
    let fresh := (ofAlgorithm a).performAll (settings kept)
    (ofAlgorithm a).givenByAll (settings kept) = kept ∧
      (used.reinfer a o).1 = (fresh.reinfer a o).1 ∧
      (used.infer a o).1 = (fresh.reinfer a o).1 := by
  intro used fresh
  have hgiven : (ofAlgorithm a).givenByAll (settings kept) = kept :=
    givenByAll_settings fun v hv =>
      isOk_of_mem_givenByAll ((lastOfEach_sublist _).subset (hkept.subset hv))
  have hused : Supplied a used (((ofAlgorithm a).givenByAll ops).map Prod.snd) :=
    Supplied.ofAlgorithm.performAll ops
  have hfresh : Supplied a fresh (kept.map Prod.snd) := by
    have h := (Supplied.ofAlgorithm (a := a)).performAll (settings kept)
    rwa [hgiven, List.nil_append] at h
  have hvalues (c : NodeId) : used.constantValue c = fresh.constantValue c := by
    refine constantValue_performAll_congr ?_ (fun name => ?_) c
    · exact (List.nodup_append.mp (List.nodup_append.mp hnodes).1).1
    · rw [hgiven, find?_reverse_of_perm_lastOfEach hkept]
  have hmatches : used.Matches a fresh := by
    refine hused.matches hfresh ?_ ?_ hvalues
    · rwa [List.flatMap_map]
    · rw [List.flatMap_map, ((hkept.flatMap_right _).append_left _).nodup_iff]
      exact (((lastOfEach_sublist _).flatMap _).append_left _).nodup hnodes
  have hfound : (used.reinfer a o).1 = (fresh.reinfer a o).1 :=
    hmatches.inferFrom_eq hused.knows _ _ o
  exact ⟨hgiven, hfound, (hused.knows.reinfer_eq o).symm.trans hfound⟩

/-- A constant first has a global as its value, and then a number. Slots and the name of
the global are left in the registry, and inference finds the same as without them. -/
theorem reinfer_performAll_replaced :
    let assignment : Stmt :=
      .assign ⟨9⟩ [⟨.ident ⟨5⟩ "x", .binary ⟨6⟩ .add (.ident ⟨7⟩ "x") (.ident ⟨8⟩ "N")⟩]
    let worker : Archetype :=
      ⟨⟨2⟩, "Worker", ⟨3⟩, [⟨⟨⟨4⟩, "x", none⟩, true⟩], [], [assignment]⟩
    let name : Decl := ⟨⟨10⟩, "w", some (.value (.literal ⟨11⟩ (.string "worker")))⟩
    let a : Algorithm := {
      constants := [⟨⟨0⟩, "N"⟩]
      globals := [⟨⟨1⟩, "g", none⟩]
      archetypes := [worker]
      instances := [⟨⟨12⟩, name, "Worker", [.ref ⟨13⟩ "g"], []⟩] }
    let one : Expr := .literal ⟨22⟩ (.int 1)
    let ops : List Operation := [.setConstantValue "N" (.ident ⟨20⟩ "g"),
      .setConstantValue "M" (.literal ⟨21⟩ (.int 1)), .check a {}, .setConstantValue "N" one,
      .setGlobalType ⟨1⟩ .bool]
    let used := (ofAlgorithm a).performAll ops
    let fresh := (ofAlgorithm a).performAll (settings [("N", one)])
    (a.nodes ++ ((ofAlgorithm a).givenByAll ops).flatMap (·.2.nodes)).Nodup ∧
      [("N", one)].Perm (lastOfEach ((ofAlgorithm a).givenByAll ops)) ∧
      used.followReference ⟨20⟩ = some ⟨1⟩ ∧ fresh.followReference ⟨20⟩ = none ∧
      (used.slotsOf ⟨4⟩).isSome ∧ (used.reinfer a {}).1 = (fresh.reinfer a {}).1 := by
  intro assignment worker name a one ops used fresh
  have hfresh : fresh.followReference ⟨20⟩ = none := by cbv
  have hleft : (used.followReference ⟨20⟩, (used.slotsOf ⟨4⟩).isSome) = (some ⟨1⟩, true) := by cbv
  obtain ⟨hreference, hslots⟩ := Prod.mk.inj hleft
  have hgiven : (ofAlgorithm a).givenByAll ops = [("N", .ident ⟨20⟩ "g"), ("N", one)] := by cbv
  have hnodes : (a.nodes ++ ((ofAlgorithm a).givenByAll ops).flatMap (·.2.nodes)).Nodup := by
    rw [hgiven]
    decide
  have hkept : [("N", one)].Perm (lastOfEach ((ofAlgorithm a).givenByAll ops)) := by
    rw [hgiven]
    exact .refl _
  exact ⟨hnodes, hkept, hreference, hfresh, hslots,
    (reinfer_performAll a ops {} hnodes hkept).2.1⟩

end Registry

end PlusCalTyping
