import PlusCalTyping.Proofs.Typing.Coverage.Supplied

/-! # Looking names up

A top-level name is looked up by searches that stop at the first declaration of
it and in tables that keep the last. The two agree on what is declared once and
on nothing else (`map_id_find?_reverse_iff`): so do the definitions that the
registry and the algorithm find, and so do the constant that a value is given to
and the declaration that the uses of its name refer to (`lookups_agree_iff`).
-/

namespace PlusCalTyping

section

variable {α : Type} {name : α → String} {id : α → NodeId} {ds : List α}

/-- The first and the last entry are one just where there are no two. -/
theorem map_id_getLast?_iff (hids : (ds.map id).Nodup) :
    ds.getLast?.map id = ds.head?.map id ↔ ds.length ≤ 1 := by
  match ds with
  | [] => simp
  | [d] => simp
  | d :: d' :: ds =>
    refine iff_of_false (fun heq => ?_) (by simp)
    have hlast : (d' :: ds).getLast (List.cons_ne_nil _ _) ∈ d' :: ds := List.getLast_mem _
    rw [List.getLast?_cons_cons, List.getLast?_eq_some_getLast (List.cons_ne_nil _ _)] at heq
    have hfirst := (List.nodup_cons.mp hids).1
    rw [← Option.some.inj heq] at hfirst
    exact hfirst (List.mem_map_of_mem hlast)

theorem map_id_find?_reverse_iff (hids : (ds.map id).Nodup) (n : String) :
    (ds.reverse.find? (name · = n)).map id = (ds.find? (name · = n)).map id ↔
      (ds.map name).count n ≤ 1 := by
  have hcount : (ds.map name).count n = (ds.filter (name · = n)).length := by
    rw [List.count_eq_countP, List.countP_map, List.countP_eq_length_filter]
    rfl
  rw [← List.getLast?_filter, ← List.head?_filter, hcount]
  exact map_id_getLast?_iff (hids.sublist (List.filter_sublist.map id))

theorem map_id_byName_iff (hids : (ds.map id).Nodup) (n : String) :
    ((byName name ds)[n]?).map id = (ds.find? (name · = n)).map id ↔
      (ds.map name).count n ≤ 1 := by
  rw [getElem?_byName, map_id_find?_reverse_iff hids]

theorem mem_of_find?_name {n : String} {d : α} (h : ds.find? (name · = n) = some d) :
    d ∈ ds ∧ name d = n :=
  ⟨List.mem_of_find?_eq_some h, by simpa using List.find?_some h⟩

/-- The nodes that stand for definitions are among those that these consist of. -/
theorem map_id_sublist {nodes : α → List NodeId} (h : ∀ d, id d ∈ nodes d) (ds : List α) :
    (ds.map id).Sublist (ds.flatMap nodes) := by
  rw [List.map_eq_flatMap]
  exact List.Sublist.flatMap_right ds fun d _ => List.singleton_sublist.mpr (h d)

end

namespace Algorithm

/-- The declarations of the global scope, in their order. -/
def globalDeclarations (a : Algorithm) : List (Node String) :=
  a.constants ++ (a.globals.map (·.declares) ++ a.units.map (·.declares))

theorem globalEnv_eq (a : Algorithm) : a.globalEnv = a.globalDeclarations.reverse := by
  rw [globalEnv, Env.declare, List.append_nil, List.append_assoc]
  rfl

theorem globalDeclarations_sublist_nodes (a : Algorithm) :
    (a.globalDeclarations.map (·.id)).Sublist a.nodes := by
  have hglobals : (a.globals.map (·.id)).Sublist (a.globals.flatMap Decl.nodes) :=
    map_id_sublist (fun _ => List.mem_cons_self) _
  have hunits : (a.units.map (·.id)).Sublist (a.units.flatMap Expr.definitionNodes) :=
    map_id_sublist (fun d => by cases d; exact List.mem_cons_self) _
  simp only [globalDeclarations, List.map_append, List.map_map, nodes, List.append_assoc]
  refine (List.Sublist.refl _).append (hglobals.append ?_)
  exact hunits.trans (List.sublist_append_left _ _)

theorem nodup_ids_of_nodes {a : Algorithm} (hnodes : a.nodes.Nodup) :
    (a.procedures.map (·.id)).Nodup ∧ (a.archetypes.map (·.id)).Nodup ∧
      (a.mappingMacros.map (·.id)).Nodup := by
  simp only [nodes, List.nodup_append] at hnodes
  obtain ⟨_, ⟨⟨⟨⟨⟨_, hprocedures, _⟩, harchetypes, _⟩, hmacros, _⟩, _⟩, _⟩, _⟩ := hnodes
  exact ⟨hprocedures.sublist (map_id_sublist (fun _ => List.mem_cons_self) _),
    harchetypes.sublist (map_id_sublist (fun _ => List.mem_cons_self) _),
    hmacros.sublist (map_id_sublist (fun _ => List.mem_cons_self) _)⟩

/-- A name of the global scope is used for its last declaration. -/
theorem use_globalScope (a : Algorithm) (site : NodeId) (kind : NameKind) (name : String) :
    a.globalScope.use site kind name =
      match (a.globalDeclarations.reverse.find? (·.value = name)).map (·.id) with
      | some decl => .bound site decl
      | none => .undefined site kind name := by
  rw [Scope.use, ← toScope_globalEnv, Env.getElem?_toScope, globalEnv_eq]
  rfl

end Algorithm

namespace Registry

variable {a : Algorithm} {r r' : Registry} {values : List Expr}

/-- Values are those of constants that come first of their name. -/
theorem Supplied.exists_constant (h : Supplied a r values) {d : NodeId} {value : Expr}
    (hd : r.constantValue d = some value) :
    ∃ name c, a.constants.find? (·.value = name) = some c ∧ c.id = d := by
  induction h with
  | ofAlgorithm => cases Std.TreeMap.getElem?_emptyc.symm.trans hd
  | retypes _ hr ih =>
    obtain ⟨_, _, rfl⟩ := hr
    exact ih hd
  | @setConstantValue r _ _ name _ h hset ih =>
    obtain ⟨_, _, hholds⟩ := h.exists_holds
    obtain ⟨c, hc, _, rfl⟩ := exists_of_setConstantValue hset
    rw [constantValue, Std.TreeMap.getElem?_insert] at hd
    split at hd
    · next heq =>
      rw [hholds.constants] at hc
      exact ⟨name, c, hc, Std.LawfulEqCmp.compare_eq_iff_eq.mp heq⟩
    · exact ih hd

/-- The value goes to the first declaration of a name, and the uses of the name
refer to the last. -/
theorem Supplied.constantValue_iff (hnodes : a.nodes.Nodup) (h : Supplied a r values)
    {name : String} {value : Expr} (hset : r.setConstantValue name value = .ok r') :
    ∃ d, (∀ site kind, r'.globalScope.use site kind name = .bound site d) ∧
      (r'.constantValue d = some value ↔
        (a.globalDeclarations.map (·.value)).count name ≤ 1) := by
  have hids := hnodes.sublist a.globalDeclarations_sublist_nodes
  obtain ⟨_, _, hholds⟩ := h.exists_holds
  obtain ⟨c, hc, _, rfl⟩ := exists_of_setConstantValue hset
  rw [hholds.constants] at hc
  have hfirst : a.globalDeclarations.find? (·.value = name) = some c := by
    rw [Algorithm.globalDeclarations, List.find?_append, hc, Option.some_or]
  obtain ⟨hmem, hname⟩ := mem_of_find?_name hfirst
  have hsome : (a.globalDeclarations.reverse.find? (·.value = name)).isSome :=
    List.find?_isSome.mpr ⟨c, List.mem_reverse.mpr hmem, decide_eq_true hname⟩
  obtain ⟨d, hd⟩ := Option.isSome_iff_exists.mp hsome
  have hagree : (a.globalDeclarations.reverse.find? (·.value = name)).map (·.id) =
      (a.globalDeclarations.find? (·.value = name)).map (·.id) ↔
        (a.globalDeclarations.map (·.value)).count name ≤ 1 := map_id_find?_reverse_iff hids name
  rw [hd, hfirst, Option.map_some, Option.map_some, Option.some.injEq] at hagree
  refine ⟨d.id, fun site kind => ?_, ?_⟩
  · change r.globalScope.use site kind name = _
    rw [hholds.globalScope, a.use_globalScope, hd]
    rfl
  · rw [← hagree, constantValue, Std.TreeMap.getElem?_insert]
    constructor
    · intro hvalue
      split at hvalue
      · next heq => exact (Std.LawfulEqCmp.compare_eq_iff_eq.mp heq).symm
      · -- The last declaration would be the first constant of some name, so of this one.
        obtain ⟨name', c', hc', heq⟩ := h.exists_constant hvalue
        obtain ⟨hlast, hdname⟩ := mem_of_find?_name hd
        obtain ⟨hmem', rfl⟩ := mem_of_find?_name hc'
        cases List.inj_on_of_nodup_map hids (List.mem_append_left _ hmem')
          (List.mem_reverse.mp hlast) heq
        rw [hdname, hc] at hc'
        rw [Option.some.inj hc']
    · intro heq
      rw [heq, if_pos Std.ReflCmp.compare_self]

/-- All ways to look a name up agree if it is declared once, and only then. -/
theorem lookups_agree_iff (hnodes : a.nodes.Nodup) (h : Belongs a r) (name : String) :
    ((r.findProcedure name).map (·.id) = (a.findProcedure name).map (·.id) ↔
        (a.procedures.map (·.name)).count name ≤ 1) ∧
      ((r.findArchetype name).map (·.id) = (a.findArchetype name).map (·.id) ↔
        (a.archetypes.map (·.name)).count name ≤ 1) ∧
      ((r.findMappingMacro name).map (·.id) = (a.findMappingMacro name).map (·.id) ↔
        (a.mappingMacros.map (·.name)).count name ≤ 1) ∧
      ∀ value r', r.setConstantValue name value = .ok r' →
        ∃ d, (∀ site kind, r'.globalScope.use site kind name = .bound site d) ∧
          (r'.constantValue d = some value ↔
            (a.globalDeclarations.map (·.value)).count name ≤ 1) := by
  obtain ⟨hprocedures, harchetypes, hmacros⟩ := a.nodup_ids_of_nodes hnodes
  have hknows := h.knows
  obtain ⟨_, hsupplied⟩ := h.exists_supplied
  refine ⟨?_, ?_, ?_, fun _ _ hset => hsupplied.constantValue_iff hnodes hset⟩
  · rw [findProcedure, hknows.procedures]
    exact map_id_byName_iff hprocedures name
  · rw [findArchetype, hknows.archetypes]
    exact map_id_byName_iff harchetypes name
  · rw [findMappingMacro, hknows.mappingMacros]
    exact map_id_byName_iff hmacros name

/-- A value is found where the name of its constant is used, if no operator
hides it. Of two procedures the registry finds the other one. -/
theorem lookups_agree_iff_hidden_constant :
    let first : Procedure := ⟨⟨3⟩, "P", ⟨4⟩, [], [], []⟩
    let second : Procedure := ⟨⟨5⟩, "P", ⟨6⟩, [], [], []⟩
    let three : Expr := .literal ⟨7⟩ (.int 3)
    let a : Algorithm :=
      { constants := [⟨⟨0⟩, "M"⟩, ⟨⟨1⟩, "N"⟩], units := [⟨⟨2⟩, "N", [], .literal ⟨8⟩ (.int 0)⟩],
        procedures := [first, second] }
    ∃ r r', a.nodes.Nodup ∧ (ofAlgorithm a).setConstantValue "N" three = .ok r ∧
      r.setConstantValue "M" three = .ok r' ∧
      (∃ d, (∀ site kind, r.globalScope.use site kind "N" = .bound site d) ∧
        r.constantValue d ≠ some three) ∧
      (∃ d, (∀ site kind, r'.globalScope.use site kind "M" = .bound site d) ∧
        r'.constantValue d = some three) ∧
      (r.findProcedure "P").map (·.id) ≠ (a.findProcedure "P").map (·.id) ∧
      (r.findArchetype "P").map (·.id) = (a.findArchetype "P").map (·.id) := by
  intro first second three a
  have hnodes : a.nodes.Nodup := by decide
  have hset : ∃ r, (ofAlgorithm a).setConstantValue "N" three = .ok r := ⟨_, rfl⟩
  obtain ⟨r, hset⟩ := hset
  have hr := Belongs.ofAlgorithm.setConstantValue hset
  have hset' : ∃ r', r.setConstantValue "M" three = .ok r' := by
    cases hset
    exact ⟨_, rfl⟩
  obtain ⟨r', hset'⟩ := hset'
  obtain ⟨_, _, _, hhidden⟩ := lookups_agree_iff hnodes .ofAlgorithm "N"
  obtain ⟨_, _, _, hfound⟩ := lookups_agree_iff hnodes hr "M"
  obtain ⟨hprocedure, harchetype, _⟩ := lookups_agree_iff hnodes hr "P"
  refine ⟨r, r', hnodes, hset, hset', ?_, ?_, ?_, harchetype.mpr (by decide)⟩
  · obtain ⟨d, huse, hvalue⟩ := hhidden three r hset
    exact ⟨d, huse, fun h => absurd (hvalue.mp h) (by decide)⟩
  · obtain ⟨d, huse, hvalue⟩ := hfound three r' hset'
    exact ⟨d, huse, hvalue.mpr (by decide)⟩
  · exact fun h => absurd (hprocedure.mp h) (by decide)

/-- No name is missing, yet of two procedures of one name each finds another, and
of two constants the first gets the value while the uses refer to the second. -/
theorem not_lookups_agree :
    let a : Algorithm :=
      { constants := [⟨⟨0⟩, "N"⟩, ⟨⟨1⟩, "N"⟩],
        globals := [⟨⟨3⟩, "x", some (.value (.ident ⟨2⟩ "N"))⟩],
        procedures := [⟨⟨4⟩, "P", ⟨5⟩, [], [], []⟩, ⟨⟨6⟩, "P", ⟨7⟩, [], [], []⟩] }
    let three : Expr := .literal ⟨8⟩ (.int 3)
    a.nodes.Nodup ∧ (ofAlgorithm a).diagnostics = [] ∧
      ¬(((ofAlgorithm a).findProcedure "P").map (·.id) = (a.findProcedure "P").map (·.id)) ∧
      ¬∀ r, (ofAlgorithm a).setConstantValue "N" three = .ok r →
        ∀ d, (∀ site kind, r.globalScope.use site kind "N" = .bound site d) →
          r.constantValue d = some three := by
  intro a three
  refine ⟨by decide, rfl, by decide, fun h => ?_⟩
  have hvalue := h _ rfl ⟨1⟩ fun _ _ => rfl
  cases hvalue

end Registry

end PlusCalTyping
