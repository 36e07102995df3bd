import PlusCalTyping.Proofs.Ty.Acyclicity
import PlusCalTyping.Solver.Session

/-! # What is found of nodes

The type found for a node is the verdict on the variable of the node
(`types_resolve`), and a node is reported exactly if its type is not fully
known (`diagnostics_resolve`). A variable that some constraint mentions always
has a type, known or not.
-/

namespace PlusCalTyping.Session

theorem verdict_eq_known_iff {s : Session} {v : TypeVar} {t : Ty} :
    s.verdict v = .known t ↔ s.substitution.value v = t ∧ t.vars = [] := by
  have hvars : !(s.substitution.value v).containsVars ↔ (s.substitution.value v).vars = [] := by
    rw [Ty.containsVars, Bool.not_not, List.isEmpty_iff]
  by_cases h : (s.substitution.value v).vars = []
  · have hknown : s.verdict v = .known (s.substitution.value v) := if_pos (hvars.mpr h)
    rw [hknown]
    constructor
    · rintro ⟨⟩
      exact ⟨rfl, h⟩
    · rintro ⟨rfl, _⟩
      rfl
  · refine iff_of_false (fun hknown => ?_) ?_
    · rw [verdict, ← Substitution.value, if_neg (h ∘ hvars.mp)] at hknown
      split at hknown <;> cases hknown
    · rintro ⟨rfl, ht⟩
      exact h ht

/-- The type that a verdict gives a node, if it gives one. -/
def Verdict.type? : Verdict → Option Ty
  | known t => some t
  | unused => none
  | incomplete t => some t.ground

theorem types_add (x : Resolution) (n m : NodeId) (v : Verdict) :
    (x.add n v).types[m]? = if n = m then v.type?.or x.types[m]? else x.types[m]? := by
  cases v with
  | unused =>
    rw [Verdict.type?, Option.none_or, ite_self]
    rfl
  | known t | incomplete t =>
    refine Std.TreeMap.getElem?_insert.trans ?_
    simp only [Std.LawfulEqCmp.compare_eq_iff_eq, Verdict.type?, Option.some_or]

variable (s : Session)

theorem types_foldl_add (l : List (NodeId × TypeVar)) (x : Resolution) {n : NodeId}
    (hn : ∀ nv ∈ l, nv.1 ≠ n) :
    (l.foldl (fun x nv => x.add nv.1 (s.verdict nv.2)) x).types[n]? = x.types[n]? := by
  induction l generalizing x with
  | nil => rfl
  | cons nv l ih =>
    obtain ⟨hfirst, hrest⟩ := List.forall_mem_cons.mp hn
    rw [List.foldl_cons, ih _ hrest, types_add, if_neg hfirst]

/-- Every node is found to have the type that the verdict on its variable gives. -/
theorem types_resolve (vars : NodeMap TypeVar) (n : NodeId) :
    (s.resolve vars).types[n]? = vars[n]?.bind fun v => (s.verdict v).type? := by
  cases h : vars[n]? with
  | none =>
    refine (s.types_foldl_add _ _ fun nv hnv heq => ?_).trans Std.TreeMap.getElem?_emptyc
    rw [← heq, Std.TreeMap.mem_toList_iff_getElem?_eq_some.mp hnv] at h
    cases h
  | some v =>
    obtain ⟨before, after, hl⟩ :=
      List.append_of_mem (Std.TreeMap.mem_toList_iff_getElem?_eq_some.mpr h)
    have hdistinct := Std.TreeMap.distinct_keys_toList (t := vars)
    rw [hl, List.pairwise_append, List.pairwise_cons] at hdistinct
    obtain ⟨_, ⟨hafter, _⟩, hbefore⟩ := hdistinct
    rw [resolve, hl, List.foldl_append, List.foldl_cons, types_foldl_add, types_add, if_pos rfl,
      types_foldl_add, Std.TreeMap.getElem?_emptyc, Option.or_none, Option.bind_some]
    · exact fun nv hnv heq => hbefore nv hnv _ List.mem_cons_self
        (Std.LawfulEqCmp.compare_eq_iff_eq.mpr heq)
    · exact fun nv hnv heq => hafter nv hnv (Std.LawfulEqCmp.compare_eq_iff_eq.mpr heq.symm)

/-- The reports on nodes whose types are not fully known. -/
def reports (nv : NodeId × TypeVar) : List Diagnostic :=
  match s.verdict nv.2 with
  | .incomplete t => [Resolution.incompleteDiagnostic nv.1 t]
  | _ => []

theorem diagnostics_resolve (vars : NodeMap TypeVar) :
    (s.resolve vars).diagnostics = vars.toList.flatMap s.reports := by
  have hfold (l : List (NodeId × TypeVar)) (x : Resolution) :
      (l.foldl (fun x nv => x.add nv.1 (s.verdict nv.2)) x).diagnostics =
        x.diagnostics ++ l.flatMap s.reports := by
    induction l generalizing x with
    | nil => exact (List.append_nil _).symm
    | cons nv l ih =>
      rw [List.foldl_cons, ih, List.flatMap_cons, ← List.append_assoc]
      congr 1
      unfold reports Resolution.add
      cases s.verdict nv.2 <;> simp
  exact hfold _ _

variable {s}

theorem verdict_eq_known_of_type {vars : NodeMap TypeVar}
    (h : (s.resolve vars).diagnostics = []) {n : NodeId} {v : TypeVar} (hv : vars[n]? = some v)
    {t : Ty} (ht : (s.verdict v).type? = some t) : s.verdict v = .known t := by
  rw [diagnostics_resolve, List.flatMap_eq_nil_iff] at h
  have hnv := h _ (Std.TreeMap.mem_toList_iff_getElem?_eq_some.mpr hv)
  rw [reports] at hnv
  cases hverdict : s.verdict v with
  | known u =>
    rw [hverdict] at ht
    cases ht
    rfl
  | unused =>
    rw [hverdict] at ht
    cases ht
  | incomplete u =>
    rw [hverdict] at hnv
    cases hnv

theorem mem_foldl_insert {l : List TypeVar} {vs : Std.TreeSet TypeVar} {v : TypeVar} :
    v ∈ l.foldl (fun t w => t.insert w) vs ↔ v ∈ l ∨ v ∈ vs := by
  induction l generalizing vs with
  | nil => simp
  | cons w l ih =>
    rw [List.foldl_cons, ih, Std.TreeSet.mem_insert, Std.LawfulEqCmp.compare_eq_iff_eq,
      List.mem_cons, eq_comm, ← or_assoc, @or_comm (v ∈ l)]

theorem mem_constrained {cs : List Constraint} {k : Constraint} (hk : k ∈ cs) {v : TypeVar}
    (hv : v ∈ k.vars) : v ∈ (s.constrain cs).constrained :=
  mem_foldl_insert.mpr (.inl (List.mem_flatMap.mpr ⟨k, hk, hv⟩))

theorem exists_type_of_constrained {v : TypeVar} (hv : v ∈ s.constrained) :
    ∃ t, (s.verdict v).type? = some t := by
  have hcontains : s.constrained.contains v := Std.TreeSet.contains_iff_mem.mpr hv
  unfold verdict
  simp only [hcontains, Bool.not_true, Bool.and_false]
  split
  · exact ⟨_, rfl⟩
  · exact ⟨_, rfl⟩

theorem exists_of_mem_resolve {vars : NodeMap TypeVar} {d : Diagnostic}
    (hd : d ∈ (s.resolve vars).diagnostics) :
    ∃ n ∈ vars, ∃ t, d = Resolution.incompleteDiagnostic n t := by
  rw [diagnostics_resolve] at hd
  obtain ⟨nv, hmem, hnv⟩ := List.mem_flatMap.mp hd
  have hvars : vars[nv.1]? = some nv.2 := Std.TreeMap.mem_toList_iff_getElem?_eq_some.mp hmem
  unfold reports at hnv
  split at hnv
  · refine ⟨nv.1, ?_, _, List.mem_singleton.mp hnv⟩
    rw [Std.TreeMap.mem_iff_isSome_getElem?, hvars]
    rfl
  · cases hnv

end PlusCalTyping.Session
