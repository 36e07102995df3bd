import PlusCalTyping.Proofs.Typing.Soundness.Algorithm

/-! # Prepared registries

A registry is made from an algorithm and then given the values of constants.
Names without a declaration are reported, so a registry that was prepared in
this way and has nothing to report resolves every name of the algorithm and of
the values (`Prepared.covers`).
-/

namespace PlusCalTyping

/-- Of entries with one key the last holds. -/
theorem getElem?_foldl_insert {α β κ : Type} [Ord κ] [Std.TransOrd κ] [Std.LawfulEqOrd κ]
    [DecidableEq κ] (key : α → κ) (value : α → β) (ds : List α) (m : Std.TreeMap κ β) (k : κ) :
    (ds.foldl (fun m d => m.insert (key d) (value d)) m)[k]? =
      ((ds.reverse.find? (key · = k)).map value).or m[k]? := by
  induction ds generalizing m with
  | nil => rfl
  | cons d ds ih =>
    rw [List.foldl_cons, ih, List.reverse_cons, List.find?_append, Std.TreeMap.getElem?_insert]
    cases ds.reverse.find? (key · = k) with
    | some d' => rfl
    | none =>
      by_cases h : key d = k
      · simp [h]
      · simp [h, Std.LawfulEqCmp.compare_eq_iff_eq]

theorem getElem?_byName {α : Type} (name : α → String) (ds : List α) (n : String) :
    (byName name ds)[n]? = ds.reverse.find? (name · = n) := by
  rw [byName, getElem?_foldl_insert, Std.TreeMap.getElem?_emptyc, Option.or_none, Option.map_id']

theorem Scope.getElem?_declareAll {α : Type} (scope : Scope) (name : α → String)
    (id : α → NodeId) (ds : List α) (n : String) :
    (scope.declareAll name id ds)[n]? =
      ((ds.reverse.find? (name · = n)).map id).or scope[n]? :=
  getElem?_foldl_insert name id ds scope n

namespace Use

variable {uses : List Use}

theorem isError_of_mem_diagnostics {d : Diagnostic} (h : d ∈ diagnostics uses) : d.isError := by
  obtain ⟨u, _, hu⟩ := List.mem_filterMap.mp h
  cases u <;> cases hu
  rfl

theorem eq_bound_of_diagnostics_eq_nil (h : diagnostics uses = []) {u : Use} (hu : u ∈ uses) :
    ∃ site decl, u = .bound site decl := by
  have hnone := List.filterMap_eq_nil_iff.mp h u hu
  cases u with
  | bound site decl => exact ⟨site, decl, rfl⟩
  | undefined site kind name => cases hnone

theorem exists_references_of_known (uses : List Use) {known : NodeMap NodeId} {n decl : NodeId}
    (h : known[n]? = some decl) : ∃ decl', (references uses known)[n]? = some decl' := by
  induction uses generalizing known decl with
  | nil => exact ⟨decl, h⟩
  | cons u uses ih =>
    cases u with
    | undefined site kind name => exact ih h
    | bound site decl' =>
      by_cases hn : n = site
      · subst hn
        exact ih Std.TreeMap.getElem?_insert_self
      · have hkept : (known.insert site decl')[n]? = some decl := by
          refine Std.TreeMap.getElem?_insert.trans ((if_neg fun heq => ?_).trans h)
          exact hn (Std.LawfulEqCmp.compare_eq_iff_eq.mp heq).symm
        exact ih hkept

theorem exists_references_of_mem {known : NodeMap NodeId} (h : diagnostics uses = []) {u : Use}
    (hu : u ∈ uses) : ∃ decl, (references uses known)[u.site]? = some decl := by
  obtain ⟨before, after, rfl⟩ := List.append_of_mem hu
  obtain ⟨site, decl, rfl⟩ := eq_bound_of_diagnostics_eq_nil h hu
  rw [references, List.foldl_append]
  exact exists_references_of_known after Std.TreeMap.getElem?_insert_self

end Use

namespace Registry

/-- The registries of an algorithm: the first, and what becomes of one by
giving a value to a constant. -/
inductive Prepared (a : Algorithm) : Registry → Prop
  | ofAlgorithm : Prepared a (.ofAlgorithm a)
  | setConstantValue {r r' : Registry} {name : String} {value : Expr} :
    Prepared a r → r.setConstantValue name value = .ok r' → Prepared a r'

/-- What holds of every registry of an algorithm. -/
structure Describes (r : Registry) (a : Algorithm) : Prop where
  diagnostics : r.diagnostics = Use.diagnostics a.uses
  archetypes : r.archetypes = byName (·.name) a.archetypes
  resolves : r.diagnostics = [] → r.Resolves a.uses
  values : ∀ c value, r.constantValue c = some value →
    ∃ scope : Scope, r.Resolves (scope.exprUses value)

variable {a : Algorithm} {r r' : Registry}

theorem describes_ofAlgorithm (a : Algorithm) : (ofAlgorithm a).Describes a where
  diagnostics := rfl
  archetypes := rfl
  resolves h _ hu := Use.exists_references_of_mem h hu
  values c value h := by
    rw [constantValue, ofAlgorithm, Std.TreeMap.getElem?_emptyc] at h
    cases h

theorem Describes.setConstantValue (h : r.Describes a) {name : String} {value : Expr}
    (hset : r.setConstantValue name value = .ok r') : r'.Describes a := by
  unfold Registry.setConstantValue at hset
  split at hset
  · cases hset
  · next c _ =>
    dsimp only at hset
    split at hset
    · next huses =>
      cases hset
      have hmore {uses : List Use} (hu : r.Resolves uses) : Resolves { r with
          references := Use.references (r.globalScope.exprUses value) r.references
          constantValues := r.constantValues.insert c.id value } uses := by
        intro u hmem
        obtain ⟨decl, hdecl⟩ := hu u hmem
        exact Use.exists_references_of_known _ hdecl
      refine ⟨h.diagnostics, h.archetypes, fun hd => hmore (h.resolves hd), fun c' value' hv => ?_⟩
      change (r.constantValues.insert c.id value)[c']? = some value' at hv
      rw [Std.TreeMap.getElem?_insert] at hv
      split at hv
      · cases hv
        exact ⟨r.globalScope, fun u hu =>
          Use.exists_references_of_mem (List.isEmpty_iff.mp huses) hu⟩
      · obtain ⟨scope, hscope⟩ := h.values c' value' hv
        exact ⟨scope, hmore hscope⟩
    · cases hset

theorem Prepared.describes (h : Prepared a r) : r.Describes a := by
  induction h with
  | ofAlgorithm => exact describes_ofAlgorithm a
  | setConstantValue _ hset ih => exact ih.setConstantValue hset

theorem Describes.diagnostics_eq_nil (h : r.Describes a)
    (herror : Diagnostic.anyError r.diagnostics = false) : r.diagnostics = [] := by
  refine List.eq_nil_iff_forall_not_mem.mpr fun d hd => ?_
  rw [Diagnostic.anyError, List.any_eq_false] at herror
  exact herror d hd (Use.isError_of_mem_diagnostics (h.diagnostics ▸ hd))

/-- Instances are of archetypes that exist, or there is a report. -/
theorem Describes.exists_target (h : r.Describes a) (hd : r.diagnostics = []) {i : Instance}
    (hi : i ∈ a.instances) : ∃ x, r.findArchetype i.target = some x := by
  have hmissing : ∀ u ∈ a.archetypeScope.missing i.id .archetypeName i.target, u ∈ a.uses := by
    intro u hu
    have huses : u ∈ a.instances.flatMap a.instanceUses := by
      refine List.mem_flatMap.mpr ⟨i, hi, ?_⟩
      simp only [Algorithm.instanceUses, List.mem_append]
      exact .inl (.inl (.inr hu))
    simp only [Algorithm.uses, List.mem_append]
    exact .inl (.inr huses)
  have hcontains : a.archetypeScope.contains i.target := by
    by_contra hnot
    rw [Scope.missing, if_neg hnot] at hmissing
    obtain ⟨_, _, hbound⟩ := Use.eq_bound_of_diagnostics_eq_nil (h.diagnostics ▸ hd)
      (hmissing _ List.mem_cons_self)
    cases hbound
  rw [Std.TreeMap.contains_eq_isSome_getElem?, Algorithm.archetypeScope,
    Scope.getElem?_declareAll, Std.TreeMap.getElem?_emptyc, Option.or_none, Option.isSome_map]
    at hcontains
  rw [findArchetype, h.archetypes, getElem?_byName]
  exact Option.isSome_iff_exists.mp hcontains

theorem Describes.covers (h : r.Describes a) (hd : r.diagnostics = []) :
    Drafting.Covers r a where
  uses := h.resolves hd
  constants := h.values
  targets _ hi := h.exists_target hd hi
  archetypes name x hx := by
    rw [findArchetype, h.archetypes, getElem?_byName] at hx
    exact List.mem_reverse.mp (List.mem_of_find?_eq_some hx)

end Registry

end PlusCalTyping
