import Mathlib
import PlusCalTyping.Proofs.Typing.Soundness

/-! # Go types of what a check finds

A type has a Go type exactly if neither a variable nor the marker of failure is
left in it (`GoType.isSome_ofTy?_iff`). Solving never puts the marker into a
binding, and a run that reports nothing has left no variable in a type. So all
types of a check without errors have Go types, recording those of the globals
cannot fail, and the registry holds exactly them afterwards
(`Registry.goTypes_of_check`). This takes nothing for granted of the registry:
it may even know of another algorithm.
-/

namespace PlusCalTyping

namespace GoType

theorem isSome_do {α β γ : Type} (x : Option α) (y : Option β) (f : α → β → γ) :
    (do let a ← x; let b ← y; return f a b).isSome ↔ x.isSome ∧ y.isSome := by
  cases x <;> cases y <;> simp

mutual

theorem isSome_ofTy?_iff : (t : Ty) → ((ofTy? t).isSome ↔ t.vars = [] ∧ t.Determined)
  | .prim p o => iff_of_true rfl ⟨rfl, Ty.determined_prim p o⟩
  | .var v => iff_of_false Bool.false_ne_true fun h => List.cons_ne_nil v [] h.1
  | .unresolved o => iff_of_false Bool.false_ne_true fun h => Ty.not_determined_unresolved o h.2
  | .set elem _ => by
    rw [ofTy?, Option.isSome_map]
    exact isSome_ofTy?_iff elem
  | .tuple elems _ => by
    rw [ofTy?, Option.isSome_map]
    exact isSome_fieldsOf?_iff 0 elems
  | .map key value _ => by
    rw [ofTy?, isSome_do, isSome_ofTy?_iff key, isSome_ofTy?_iff value, and_and_and_comm,
      ← List.append_eq_nil_iff, ← Ty.determined_map]
    rfl
  | .procedure params _ => by
    rw [ofTy?, Option.bind_eq_bind]
    refine Iff.trans ?_ (isSome_paramsOf?_iff params)
    cases paramsOf? params <;> simp
  | .operator params result _ => by
    rw [ofTy?, isSome_do, isSome_paramsOf?_iff params, isSome_ofTy?_iff result, and_and_and_comm,
      ← List.append_eq_nil_iff, Ty.Determined, ← Bool.or_eq_false_iff]
    rfl

theorem isSome_fieldsOf?_iff (i : Nat) : (ts : List Ty) →
    ((fieldsOf? i ts).isSome ↔ Ty.varsList ts = [] ∧ Ty.containsUnresolvedList ts = false)
  | [] => iff_of_true rfl ⟨rfl, rfl⟩
  | t :: ts => by
    rw [fieldsOf?, isSome_do, isSome_ofTy?_iff t, isSome_fieldsOf?_iff (i + 1) ts,
      and_and_and_comm, ← List.append_eq_nil_iff, Ty.Determined, ← Bool.or_eq_false_iff]
    rfl

theorem isSome_paramsOf?_iff : (ts : List Ty) →
    ((paramsOf? ts).isSome ↔ Ty.varsList ts = [] ∧ Ty.containsUnresolvedList ts = false)
  | [] => iff_of_true rfl ⟨rfl, rfl⟩
  | t :: ts => by
    rw [paramsOf?, isSome_do, isSome_ofTy?_iff t, isSome_paramsOf?_iff ts, and_and_and_comm,
      ← List.append_eq_nil_iff, Ty.Determined, ← Bool.or_eq_false_iff]
    rfl

end

end GoType

theorem Ty.toGo_eq_ok_iff {t : Ty} {g : GoType} : t.toGo = .ok g ↔ GoType.ofTy? t = some g := by
  unfold toGo
  cases GoType.ofTy? t with
  | some g' => simp
  | none =>
    dsimp only
    split <;> simp

theorem Ty.exists_toGo {t : Ty} (hvars : t.vars = []) (hdet : t.Determined) :
    ∃ g, t.toGo = .ok g := by
  obtain ⟨g, hg⟩ := Option.isSome_iff_exists.mp ((GoType.isSome_ofTy?_iff t).mpr ⟨hvars, hdet⟩)
  exact ⟨g, toGo_eq_ok_iff.mpr hg⟩

namespace Registry

variable {a : Algorithm} {r : Registry} {o : Options} {types : NodeMap Ty}

@[simp]
theorem globalType_setGlobalType (r : Registry) (m n : NodeId) (g : GoType) :
    (r.setGlobalType m g).globalType n = if m = n then some g else r.globalType n := by
  unfold globalType setGlobalType
  simp only [Std.TreeMap.getElem?_insert, Std.LawfulEqCmp.compare_eq_iff_eq]

/-- The Go types are found if all types have one. -/
theorem exists_goTypes
    (h : ∀ (n : NodeId) (t : Ty), types[n]? = some t → ∃ g, t.toGo = .ok g) (ns : List NodeId) :
    ∃ found, goTypes types ns = .ok found := by
  induction ns with
  | nil => exact ⟨[], rfl⟩
  | cons n ns ih =>
    obtain ⟨found, hfound⟩ := ih
    unfold goTypes
    cases ht : types[n]? with
    | none => exact ⟨found, hfound⟩
    | some t =>
      obtain ⟨g, hg⟩ := h n t ht
      refine ⟨(n, g) :: found, ?_⟩
      simp only [hg, hfound]
      rfl

theorem globalType_foldl {ns : List NodeId} {found : List (NodeId × GoType)}
    (hfound : goTypes types ns = .ok found) (r : Registry) (n : NodeId) :
    (found.foldl (fun r ng => r.setGlobalType ng.1 ng.2) r).globalType n =
      if n ∈ ns then (types[n]?.bind GoType.ofTy?).or (r.globalType n) else r.globalType n := by
  induction ns generalizing found r with
  | nil =>
    cases hfound
    rfl
  | cons m ns ih =>
    unfold goTypes at hfound
    cases ht : types[m]? with
    | none =>
      rw [ht] at hfound
      rw [ih hfound r]
      by_cases hmn : n = m
      · subst hmn
        simp [ht]
      · simp [hmn]
    | some t =>
      rw [ht] at hfound
      dsimp only at hfound
      cases hg : t.toGo with
      | error e =>
        rw [hg] at hfound
        cases hfound
      | ok g =>
        cases hrest : goTypes types ns with
        | error e =>
          rw [hg, hrest] at hfound
          cases hfound
        | ok rest =>
          rw [hg, hrest] at hfound
          cases hfound
          rw [List.foldl_cons, ih hrest, globalType_setGlobalType]
          by_cases hmn : m = n
          · subst hmn
            simp [ht, Ty.toGo_eq_ok_iff.mp hg]
          · simp [hmn, Ne.symm hmn]

/-- Every type that is found without an error has a Go type. -/
theorem fullyKnown_of_not_hasErrors (hok : (r.infer a o).1.hasErrors = false) {n : NodeId} {t : Ty}
    (ht : (r.infer a o).1.typeOf n = some t) : t.vars = [] ∧ t.Determined := by
  obtain ⟨_, _, hreports, htypes⟩ := solution_of_not_hasErrors hok
  have hsolved := (Session.coherent_ofOptions o).solved (o := o)
    fun k hk => (Draft.regular_ofAlgorithm r a o k (Array.mem_toList_iff.mp hk)).1
  rw [Findings.typeOf, htypes] at ht
  exact hsolved.coherent.fullyKnown hreports ht

/-- Recording the Go types cannot fail once there are no errors. -/
theorem check_of_not_hasErrors (hok : (r.infer a o).1.hasErrors = false) :
    ∃ found, goTypes (r.infer a o).1.types r.globalVariables = .ok found ∧
      r.check a o = (.ok (r.infer a o).1,
        found.foldl (fun r ng => r.setGlobalType ng.1 ng.2) (r.infer a o).2) := by
  have hglobals : (r.infer a o).2.globalVariables = r.globalVariables := by
    unfold infer inferFrom
    split <;> rfl
  have htypes (n : NodeId) (t : Ty) (ht : (r.infer a o).1.types[n]? = some t) :
      ∃ g, t.toGo = .ok g := by
    obtain ⟨hvars, hdet⟩ := fullyKnown_of_not_hasErrors hok ht
    exact Ty.exists_toGo hvars hdet
  obtain ⟨found, hfound⟩ := exists_goTypes htypes r.globalVariables
  refine ⟨found, hfound, ?_⟩
  unfold check complete writeGlobalTypes
  simp only [hok, hglobals, hfound]
  rfl

end Registry

end PlusCalTyping
