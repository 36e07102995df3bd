import PlusCalTyping.Proofs.Typing.Soundness

/-! # Registries in use

Any number of runs of inference, checks and changes of the Go types of globals
may come before a check, besides values for constants. They change neither what
names refer to nor what is known of definitions (`Retypes`). So the types that a
check finds without an error are right for the algorithm whatever the registry
was used for before (`Belongs.algorithmTyped`), and each use of one of its
definitions by name is a use of a definition of the algorithm.
-/

namespace PlusCalTyping

namespace Typing

variable {τ : Typing} {l m n : NodeId} {t u : Ty}

theorem Has.agrees (h : τ.Has n t) (h' : τ.Has n u) : t.agrees u := by
  obtain ⟨s, hs, ht⟩ := h
  obtain ⟨s', hs', hu⟩ := h'
  rw [hs] at hs'
  cases hs'
  exact Ty.agrees_trans (Ty.agrees_symm ht) hu

theorem Share.symm (h : τ.Share m n) : τ.Share n m := by
  obtain ⟨t, hm, hn⟩ := h
  exact ⟨t, hn, hm⟩

theorem Share.has (h : τ.Share m n) (hn : τ.Has n t) : τ.Has m t := by
  obtain ⟨u, hm, hu⟩ := h
  exact hm.congr (hu.agrees hn)

theorem Share.trans (h : τ.Share l m) (h' : τ.Share m n) : τ.Share l n := by
  obtain ⟨t, hm, hn⟩ := h'
  exact ⟨t, h.has hm, hn⟩

theorem Has.map_bare (h : τ.Has n t) : (τ n).map Ty.bare = some t.bare := by
  obtain ⟨u, hu, hut⟩ := h
  rw [hu, Option.map_some, (Ty.agrees_iff u t).mp hut]

theorem Share.map_bare (h : τ.Share m n) : (τ m).map Ty.bare = (τ n).map Ty.bare := by
  obtain ⟨t, hm, hn⟩ := h
  rw [hm.map_bare, hn.map_bare]

end Typing

namespace Registry

/-- The second registry is the first but for slots and Go types. -/
def Retypes (r r' : Registry) : Prop :=
  ∃ slots globalTypes, r' = { r with slots := slots, globalTypes := globalTypes }

variable {a : Algorithm} {r r' r'' : Registry}

theorem Retypes.refl (r : Registry) : r.Retypes r := ⟨r.slots, r.globalTypes, rfl⟩

theorem Retypes.trans (h : r.Retypes r') (h' : r'.Retypes r'') : r.Retypes r'' := by
  obtain ⟨_, _, rfl⟩ := h
  obtain ⟨slots, globalTypes, rfl⟩ := h'
  exact ⟨slots, globalTypes, rfl⟩

theorem retypes_setGlobalType (r : Registry) (n : NodeId) (g : GoType) :
    r.Retypes (r.setGlobalType n g) := ⟨r.slots, _, rfl⟩

theorem exists_found_of_writeGlobalTypes {types : NodeMap Ty}
    (h : r.writeGlobalTypes types = .ok r') :
    ∃ found, goTypes types r.globalVariables = .ok found ∧
      r' = found.foldl (fun r ng => r.setGlobalType ng.1 ng.2) r := by
  unfold writeGlobalTypes at h
  cases hfound : goTypes types r.globalVariables with
  | error e =>
    rw [hfound] at h
    cases h
  | ok found =>
    rw [hfound] at h
    cases h
    exact ⟨found, rfl, rfl⟩

theorem exists_foldl_setGlobalType_eq (found : List (NodeId × GoType)) (r : Registry) :
    ∃ globalTypes, found.foldl (fun r ng => r.setGlobalType ng.1 ng.2) r =
      { r with globalTypes := globalTypes } := by
  induction found generalizing r with
  | nil => exact ⟨r.globalTypes, rfl⟩
  | cons ng found ih => exact ih (r.setGlobalType ng.1 ng.2)

theorem retypes_writeGlobalTypes {types : NodeMap Ty} (h : r.writeGlobalTypes types = .ok r') :
    r.Retypes r' := by
  obtain ⟨found, _, rfl⟩ := exists_found_of_writeGlobalTypes h
  obtain ⟨globalTypes, hfound⟩ := exists_foldl_setGlobalType_eq found r
  exact ⟨r.slots, globalTypes, hfound⟩

theorem retypes_inferFrom (r : Registry) (slots : NodeMap Slots) (b : Algorithm) (o : Options) :
    r.Retypes (r.inferFrom slots b o).2 := by
  unfold inferFrom
  split
  · exact .refl r
  · exact ⟨_, r.globalTypes, rfl⟩

theorem retypes_infer (r : Registry) (b : Algorithm) (o : Options) :
    r.Retypes (r.infer b o).2 := r.retypes_inferFrom ∅ b o

theorem retypes_complete (r : Registry) (f : Findings) : r.Retypes (r.complete f).2 := by
  unfold complete
  split
  · exact .refl r
  · split
    · next hwrite => exact retypes_writeGlobalTypes hwrite
    · exact .refl r

theorem retypes_check (r : Registry) (b : Algorithm) (o : Options) :
    r.Retypes (r.check b o).2 := (r.retypes_infer b o).trans (retypes_complete _ _)

theorem retypes_recheck (r : Registry) (b : Algorithm) (o : Options) :
    r.Retypes (r.recheck b o).2 := (r.retypes_inferFrom r.slots b o).trans (retypes_complete _ _)

/-- The registries that operations lead to from the first of an algorithm.
Operations that fail leave a registry as it is. -/
inductive Belongs (a : Algorithm) : Registry → Prop
  | ofAlgorithm : Belongs a (.ofAlgorithm a)
  | setConstantValue {r r' : Registry} {name : String} {value : Expr} (h : Belongs a r)
    (hset : r.setConstantValue name value = .ok r') : Belongs a r'
  | setGlobalType {r : Registry} (h : Belongs a r) (n : NodeId) (g : GoType) :
    Belongs a (r.setGlobalType n g)
  | writeGlobalTypes {r r' : Registry} {types : NodeMap Ty} (h : Belongs a r)
    (hwrite : r.writeGlobalTypes types = .ok r') : Belongs a r'
  | infer {r : Registry} (h : Belongs a r) (b : Algorithm) (o : Options) :
    Belongs a (r.infer b o).2
  | check {r : Registry} (h : Belongs a r) (b : Algorithm) (o : Options) :
    Belongs a (r.check b o).2

/-- What a registry knows of an algorithm, its definitions by name included. -/
structure Knows (r : Registry) (a : Algorithm) : Prop extends r.Describes a where
  procedures : r.procedures = byName (·.name) a.procedures
  mappingMacros : r.mappingMacros = byName (·.name) a.mappingMacros

theorem Knows.retypes (h : r.Knows a) (hr : r.Retypes r') : r'.Knows a := by
  obtain ⟨slots, globalTypes, rfl⟩ := hr
  exact ⟨⟨h.diagnostics, h.archetypes, h.resolves, h.values⟩, h.procedures, h.mappingMacros⟩

theorem Knows.setConstantValue (h : r.Knows a) {name : String} {value : Expr}
    (hset : r.setConstantValue name value = .ok r') : r'.Knows a := by
  refine ⟨h.toDescribes.setConstantValue hset, ?_, ?_⟩
  all_goals
    unfold Registry.setConstantValue at hset
    split at hset
    · cases hset
    · dsimp only at hset
      split at hset <;> cases hset
      first | exact h.procedures | exact h.mappingMacros

theorem Belongs.knows (h : Belongs a r) : r.Knows a := by
  induction h with
  | ofAlgorithm => exact ⟨describes_ofAlgorithm a, rfl, rfl⟩
  | setConstantValue _ hset ih => exact ih.setConstantValue hset
  | setGlobalType _ n g ih => exact ih.retypes (retypes_setGlobalType _ n g)
  | writeGlobalTypes _ hwrite ih => exact ih.retypes (retypes_writeGlobalTypes hwrite)
  | infer _ b o ih => exact ih.retypes (retypes_infer _ b o)
  | check _ b o ih => exact ih.retypes (retypes_check _ b o)

theorem mem_of_byName {α : Type} {name : α → String} {ds : List α} {n : String} {d : α}
    (h : (byName name ds)[n]? = some d) : d ∈ ds := by
  rw [getElem?_byName] at h
  exact List.mem_reverse.mp (List.mem_of_find?_eq_some h)

theorem Knows.mem_procedures (h : r.Knows a) {name : String} {p : Procedure}
    (hp : r.findProcedure name = some p) : p ∈ a.procedures := by
  rw [findProcedure, h.procedures] at hp
  exact mem_of_byName hp

theorem Knows.mem_archetypes (h : r.Knows a) {name : String} {x : Archetype}
    (hx : r.findArchetype name = some x) : x ∈ a.archetypes := by
  rw [findArchetype, h.archetypes] at hx
  exact mem_of_byName hx

/-- A check without errors finds types that are right for the algorithm. -/
theorem Belongs.algorithmTyped {o : Options} {f : Findings} (hr : Belongs a r)
    (hok : (r.check a o).1 = .ok f) : Typing.AlgorithmTyped f.typeOf r a := by
  obtain ⟨rfl, hnone⟩ := infer_of_check_eq_ok hok
  have hdescribes := hr.knows.toDescribes
  obtain ⟨hdiagnostics, hfailures, hreports, htypes⟩ := infer_of_not_hasErrors hdescribes hnone
  have hsolved := (Session.coherent_ofOptions o).solved (o := o)
    fun k hk => (Draft.regular_ofAlgorithm r a o k (Array.mem_toList_iff.mp hk)).1
  have hmodel := Valuation.models_value hsolved.coherent.acyclic
  have hreads := Session.reads_resolve (s := (r.solution a o).session)
    (d := Draft.ofAlgorithm r a o)
    (fun k hk => hsolved.satisfies hfailures _ hmodel k (Array.mem_toList_iff.mpr hk))
    (fun k hk v hv => by
      rw [solution, Solution.ofConstraints, hsolved.constrained]
      exact Session.mem_constrained (Array.mem_toList_iff.mpr hk) hv)
    hreports
  have htyped := hreads.algorithmTyped (hdescribes.covers hdiagnostics)
  have hfound : (r.infer a o).1.typeOf = fun n =>
      ((r.solution a o).session.resolve (Draft.ofAlgorithm r a o).vars).types[n]? := by
    funext n
    rw [Findings.typeOf, htypes]
  rwa [hfound]

end Registry

end PlusCalTyping
