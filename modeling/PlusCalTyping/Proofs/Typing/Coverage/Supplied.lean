import PlusCalTyping.Proofs.Typing.Coverage.Algorithm
import PlusCalTyping.Proofs.Typing.Coverage.Declared
import PlusCalTyping.Proofs.Typing.Registries

/-! # Registries with their supplied values

A registry of an algorithm with all values that were ever supplied for its constants.
Where all nodes of the algorithm and of these values are different, the references
are those of the names that occur in them, so whatever is gone through refers to typed
nodes (`Registry.Supplied.tracks`). A value that was supplied again is not gone
through, though its references stay.
-/

namespace PlusCalTyping

theorem Use.references_append (us vs : List Use) (known : NodeMap NodeId) :
    references (us ++ vs) known = references vs (references us known) := List.foldl_append

namespace Registry

variable {a : Algorithm} {r r' : Registry} {values : List Expr}

theorem isReferenced_iff {decl : NodeId} :
    r.isReferenced decl ↔ ∃ site, r.followReference site = some decl := by
  rw [isReferenced, List.any_eq_true]
  constructor
  · rintro ⟨⟨site, _⟩, hmem, heq⟩
    refine ⟨site, ?_⟩
    rw [← of_decide_eq_true heq]
    exact Std.TreeMap.mem_toList_iff_getElem?_eq_some.mp hmem
  · rintro ⟨site, h⟩
    exact ⟨(site, decl), Std.TreeMap.mem_toList_iff_getElem?_eq_some.mpr h, decide_eq_true rfl⟩

/-- The registries of an algorithm with the values that were supplied for its
constants, the last at the end. Runs of inference may come between. -/
inductive Supplied (a : Algorithm) : Registry → List Expr → Prop
  | ofAlgorithm : Supplied a (.ofAlgorithm a) []
  | setConstantValue {r r' : Registry} {values : List Expr} {name : String} {value : Expr}
    (h : Supplied a r values) (hset : r.setConstantValue name value = .ok r') :
    Supplied a r' (values ++ [value])
  | retypes {r r' : Registry} {values : List Expr} (h : Supplied a r values)
    (hr : r.Retypes r') : Supplied a r' values

theorem Supplied.knows (h : Supplied a r values) : r.Knows a := by
  induction h with
  | ofAlgorithm => exact ⟨describes_ofAlgorithm a, rfl, rfl⟩
  | setConstantValue _ hset ih => exact ih.setConstantValue hset
  | retypes _ hr ih => exact ih.retypes hr

/-- Every registry in use has its supplied values. -/
theorem Belongs.exists_supplied (h : Belongs a r) : ∃ values, Supplied a r values := by
  induction h with
  | ofAlgorithm => exact ⟨[], .ofAlgorithm⟩
  | setConstantValue _ hset ih =>
    obtain ⟨values, h⟩ := ih
    exact ⟨_, h.setConstantValue hset⟩
  | setGlobalType _ n g ih => exact ih.imp fun _ h => h.retypes (retypes_setGlobalType _ n g)
  | writeGlobalTypes _ hwrite ih =>
    exact ih.imp fun _ h => h.retypes (retypes_writeGlobalTypes hwrite)
  | infer _ b o ih => exact ih.imp fun _ h => h.retypes (retypes_infer _ b o)
  | check _ b o ih => exact ih.imp fun _ h => h.retypes (retypes_check _ b o)

theorem exists_of_setConstantValue {name : String} {value : Expr}
    (h : r.setConstantValue name value = .ok r') :
    ∃ c : Node String, r.constants.find? (·.value = name) = some c ∧
      Use.diagnostics (r.globalScope.exprUses value) = [] ∧ r' = { r with
        references := Use.references (r.globalScope.exprUses value) r.references
        constantValues := r.constantValues.insert c.id value } := by
  unfold setConstantValue at h
  split at h
  · cases h
  · next c hc =>
    dsimp only at h
    split at h
    · next huses =>
      cases h
      exact ⟨c, hc, List.isEmpty_iff.mp huses, rfl⟩
    · cases h

/-- The names in the values that were supplied. -/
def suppliedUses (a : Algorithm) (given : List (NodeId × Expr)) : List Use :=
  given.flatMap fun g => a.globalScope.exprUses g.2

/-- The references and values of a registry after values for constants. -/
structure Holds (r : Registry) (a : Algorithm) (given : List (NodeId × Expr)) : Prop where
  constants : r.constants = a.constants
  globalScope : r.globalScope = a.globalScope
  references : r.references = Use.references (a.uses ++ suppliedUses a given) ∅
  constantValues : r.constantValues = given.foldl (fun m g => m.insert g.1 g.2) ∅
  resolved : Use.diagnostics (suppliedUses a given) = []

variable {given : List (NodeId × Expr)}

theorem suppliedUses_append_singleton (a : Algorithm) (given : List (NodeId × Expr))
    (g : NodeId × Expr) :
    suppliedUses a (given ++ [g]) = suppliedUses a given ++ a.globalScope.exprUses g.2 := by
  rw [suppliedUses, List.flatMap_append, List.flatMap_singleton]
  rfl

theorem Supplied.exists_holds (h : Supplied a r values) :
    ∃ given : List (NodeId × Expr), given.map Prod.snd = values ∧ r.Holds a given := by
  induction h with
  | ofAlgorithm =>
    refine ⟨[], rfl, rfl, rfl, ?_, rfl, rfl⟩
    rw [suppliedUses, List.flatMap_nil, List.append_nil]
    rfl
  | retypes _ hr ih =>
    obtain ⟨given, hvalues, h⟩ := ih
    obtain ⟨_, _, rfl⟩ := hr
    exact ⟨given, hvalues, h.constants, h.globalScope, h.references, h.constantValues, h.resolved⟩
  | @setConstantValue _ _ _ _ value _ hset ih =>
    obtain ⟨given, hvalues, h⟩ := ih
    obtain ⟨c, _, hresolved, rfl⟩ := exists_of_setConstantValue hset
    refine ⟨given ++ [(c.id, value)], by rw [List.map_append, hvalues]; rfl, h.constants,
      h.globalScope, ?_, ?_, ?_⟩
    · rw [suppliedUses_append_singleton, ← List.append_assoc, Use.references_append,
        ← h.references, ← h.globalScope]
    · rw [List.foldl_append, ← h.constantValues]
      rfl
    · rw [h.globalScope] at hresolved
      rw [suppliedUses_append_singleton, Use.diagnostics, List.filterMap_append,
        List.append_eq_nil_iff]
      exact ⟨h.resolved, hresolved⟩

/-- A node is that of one value only. -/
theorem eq_of_mem_nodes (hnodes : (given.flatMap (·.2.nodes)).Nodup) {g g' : NodeId × Expr}
    (hg : g ∈ given) (hg' : g' ∈ given) {n : NodeId} (hn : n ∈ g.2.nodes) (hn' : n ∈ g'.2.nodes) :
    g = g' := by
  have hsymm : Std.Symm (Function.onFun List.Disjoint fun g : NodeId × Expr => g.2.nodes) :=
    ⟨fun _ _ h => h.symm⟩
  by_contra hne
  exact (List.nodup_flatMap.mp hnodes).2.forall hg hg' hne hn hn'

namespace Holds

theorem mem_given (h : r.Holds a given) {c : NodeId} {value : Expr}
    (hc : r.constantValue c = some value) : (c, value) ∈ given := by
  rw [constantValue, h.constantValues, getElem?_foldl_insert, Std.TreeMap.getElem?_emptyc,
    Option.or_none, Option.map_eq_some_iff] at hc
  obtain ⟨⟨c', value'⟩, hmem, rfl⟩ := hc
  have heq : c' = c := by simpa using List.find?_some hmem
  rw [← heq]
  exact List.mem_reverse.mp (List.mem_of_find?_eq_some hmem)

theorem sites_sublist (a : Algorithm) (given : List (NodeId × Expr)) :
    (Use.sites (a.uses ++ suppliedUses a given)).Sublist
      (a.nodes ++ given.flatMap (·.2.nodes)) := by
  rw [Use.sites_append, suppliedUses, Use.sites_flatMap]
  exact a.sites_sublist.append (List.Sublist.flatMap_right given fun g _ =>
    Scope.sites_exprUses a.globalScope g.2)

variable (h : r.Holds a given) (hnodes : (a.nodes ++ given.flatMap (·.2.nodes)).Nodup)

include h hnodes

/-- A node refers to what its name in the algorithm or in a supplied value does. -/
theorem followReference_iff {site decl : NodeId} :
    r.followReference site = some decl ↔ .bound site decl ∈ a.uses ++ suppliedUses a given := by
  rw [followReference, h.references]
  exact Use.getElem?_references_iff ((sites_sublist a given).nodup hnodes)

theorem bound_of_mem_nodes {n decl : NodeId} (hn : n ∈ a.nodes)
    (hdecl : r.followReference n = some decl) : .bound n decl ∈ a.uses := by
  rcases List.mem_append.mp ((h.followReference_iff hnodes).mp hdecl) with hu | hu
  · exact hu
  · -- A name in a value is at another node.
    obtain ⟨g, hg, hu⟩ := List.mem_flatMap.mp hu
    have hsite := (Scope.sites_exprUses a.globalScope g.2).subset (List.mem_map_of_mem hu)
    have hmem : n ∈ given.flatMap (·.2.nodes) := List.mem_flatMap.mpr ⟨g, hg, hsite⟩
    exact absurd rfl ((List.nodup_append.mp hnodes).2.2 n hn n hmem)

theorem bound_of_mem_value {c n decl : NodeId} {value : Expr}
    (hc : r.constantValue c = some value) (hn : n ∈ value.nodes)
    (hdecl : r.followReference n = some decl) :
    .bound n decl ∈ a.globalScope.exprUses value := by
  have hgiven := h.mem_given hc
  obtain ⟨_, hvalues, hdisjoint⟩ := List.nodup_append.mp hnodes
  rcases List.mem_append.mp ((h.followReference_iff hnodes).mp hdecl) with hu | hu
  · have hsite := a.sites_sublist.subset (List.mem_map_of_mem hu)
    exact absurd rfl (hdisjoint n hsite n (List.mem_flatMap.mpr ⟨_, hgiven, hn⟩))
  · obtain ⟨g, hg, hu⟩ := List.mem_flatMap.mp hu
    have hsite := (Scope.sites_exprUses a.globalScope g.2).subset (List.mem_map_of_mem hu)
    cases eq_of_mem_nodes hvalues hg hgiven hsite hn
    exact hu

end Holds

theorem Knows.mem_mappingMacros (h : r.Knows a) {name : String} {m : MappingMacro}
    (hm : r.findMappingMacro name = some m) : m ∈ a.mappingMacros := by
  rw [findMappingMacro, h.mappingMacros] at hm
  exact mem_of_byName hm

namespace Supplied

/-- A name refers to something if nothing is reported. -/
theorem exists_decl (h : Supplied a r values) (hscope : r.diagnostics = []) {o : Occurrence}
    (ho : a.Occurs o) (hkind : o.kind.isReference) :
    ∃ decl, r.followReference o.site = some decl := by
  have huse : o.use ∈ a.uses := Algorithm.mem_uses_iff.mpr ⟨o, ho, .inl hkind, rfl⟩
  obtain ⟨decl, hdecl⟩ := h.knows.resolves hscope o.use huse
  rw [o.site_use] at hdecl
  exact ⟨decl, hdecl⟩

theorem mem_typedNodes_iff (h : Supplied a r values) (hscope : r.diagnostics = []) {n : NodeId} :
    n ∈ a.typedNodes r ↔ r.TypedNode a n := by
  refine Registry.mem_typedNodes_iff (fun _ _ => h.knows.mem_procedures) fun id name args hs => ?_
  obtain ⟨decl, hdecl⟩ := h.exists_decl hscope hs.occurs_of_call rfl
  rw [hdecl]
  rfl

/-- What a name in the algorithm refers to has a type. -/
theorem typedNode_of_bound (h : Supplied a r values) {n decl : NodeId}
    (hdecl : r.followReference n = some decl) (hbound : .bound n decl ∈ a.uses) :
    r.TypedNode a decl := by
  obtain ⟨o, ho, hkind, huse⟩ := Algorithm.mem_uses_iff.mp hbound
  obtain ⟨rfl, hvisible⟩ := Occurrence.use_eq_bound_iff.mp huse
  have hkind := hkind.resolve_right fun hnone => by simp [hnone] at hvisible
  obtain ⟨d, hd, rfl⟩ := Env.mem_of_innermost hvisible
  exact knowing_of_occurs (fun _ _ => h.knows.mem_procedures) ho hkind d hd
    (isReferenced_iff.mpr ⟨_, hdecl⟩)

variable (h : Supplied a r values) (hnodes : (a.nodes ++ values.flatMap Expr.nodes).Nodup)

include h hnodes

theorem exists_given : ∃ given : List (NodeId × Expr), given.map Prod.snd = values ∧
    r.Holds a given ∧ (a.nodes ++ given.flatMap (·.2.nodes)).Nodup := by
  obtain ⟨given, rfl, hholds⟩ := h.exists_holds
  rw [List.flatMap_map] at hnodes
  exact ⟨given, rfl, hholds, hnodes⟩

/-- What a node of the algorithm refers to has a type. -/
theorem leads {n : NodeId} (hn : n ∈ a.nodes) : r.Leads (r.TypedNode a) n := by
  intro decl hdecl
  obtain ⟨given, _, hholds, hgiven⟩ := h.exists_given hnodes
  exact h.typedNode_of_bound hdecl (hholds.bound_of_mem_nodes hgiven hn hdecl)

/-- What a node of the value of a constant refers to has a type. -/
theorem leads_of_value {c : Node String} (hc : c ∈ a.constants) {value : Expr}
    (hvalue : r.constantValue c.id = some value) {n : NodeId} (hn : n ∈ value.nodes) :
    r.Leads (r.TypedNode a) n := by
  intro decl hdecl
  obtain ⟨given, _, hholds, hgiven⟩ := h.exists_given hnodes
  have hbound := hholds.bound_of_mem_value hgiven hvalue hn hdecl
  rw [← a.toScope_globalEnv, Expr.mem_exprUses_iff] at hbound
  obtain ⟨o, ho, huse⟩ := hbound
  obtain ⟨rfl, hvisible⟩ := Occurrence.use_eq_bound_iff.mp huse
  obtain ⟨d, hd, rfl⟩ := Env.mem_of_innermost hvisible
  exact knowing_of_expr (.value hc hvalue) (knowing_globalEnv r a) ho d hd
    (isReferenced_iff.mpr ⟨_, hdecl⟩)

/-- Whatever is gone through refers to typed nodes. -/
theorem tracks (hscope : r.diagnostics = []) : Drafting.Tracks r a (r.TypedNode a) := by
  obtain ⟨given, _, hholds, _⟩ := h.exists_given hnodes
  have hknows := h.knows
  exact {
    constants := hholds.constants
    leads := fun _ hn => h.leads hnodes hn
    values := fun _ hc _ hvalue _ hn => h.leads_of_value hnodes hc hvalue hn
    targets := fun _ hi => hknows.exists_target hscope hi
    archetypes := fun _ _ hx => .archetype (hknows.mem_archetypes hx)
    mappingMacros := fun _ _ hm => ⟨.macroReadValue (hknows.mem_mappingMacros hm),
      .macroValue (hknows.mem_mappingMacros hm)⟩ }

end Supplied

end Registry

end PlusCalTyping
