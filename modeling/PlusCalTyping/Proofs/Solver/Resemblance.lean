import PlusCalTyping.Proofs.Solver.Bindings
import PlusCalTyping.Proofs.Ty.Variants

/-! # Results up to the choice of variables

Two sessions may find the same of a node in different words: types that differ
in their origins, or variants where something is left to determine. What is
reported of a node does not tell these apart, so sessions whose verdicts
resemble each other give all nodes the same types and make the same reports
(`resolve_eq_of_resembles`).
-/

namespace PlusCalTyping.Session

variable {s t : Session} {v w : TypeVar} {n : NodeId} {vars vars' : NodeMap TypeVar}

/-- Verdicts that differ in origins and in the choice of variables only. -/
inductive Verdict.Resembles : Verdict → Verdict → Prop
  | known {t u : Ty} (h : t.agrees u) : Resembles (known t) (known u)
  | unused : Resembles unused unused
  | incomplete {t u : Ty} (h : t.Variant u) : Resembles (incomplete t) (incomplete u)

def Verdict.report (n : NodeId) : Verdict → List Diagnostic
  | incomplete t => [Resolution.incompleteDiagnostic n t]
  | _ => []

/-- The verdict on a node. One that has no variable is not used. -/
def verdictAt (s : Session) (vars : NodeMap TypeVar) (n : NodeId) : Verdict :=
  (vars[n]?.map s.verdict).getD .unused

theorem Verdict.Resembles.type?_eq {x y : Verdict} (h : x.Resembles y) :
    x.type?.map Ty.bare = y.type?.map Ty.bare := by
  cases h with
  | known h => exact congrArg some ((Ty.agrees_iff _ _).mp h)
  | unused => rfl
  | incomplete h => exact congrArg some ((Ty.agrees_iff _ _).mp h.ground_agrees)

theorem Verdict.Resembles.report_eq {x y : Verdict} (h : x.Resembles y) :
    x.report n = y.report n := by
  cases h with
  | known h => rfl
  | unused => rfl
  | incomplete h => rw [report, report, Resolution.incompleteDiagnostic, h.display_eq]; rfl

/-- A bound variable is a mentioned one, so a variable is unused if it is not mentioned. -/
theorem Regular.isBound_or_eq (hs : s.Regular) :
    (s.substitution.isBound v || s.constrained.contains v) = s.constrained.contains v := by
  rw [Bool.or_eq_right_iff_imp, Substitution.isBound_eq]
  intro hv
  obtain ⟨t, ht⟩ := Option.isSome_iff_exists.mp hv
  exact Std.TreeSet.contains_iff_mem.mpr (hs.within v t ht).1

theorem verdict_eq_unused (hs : s.Regular) (hv : v ∉ s.constrained) : s.verdict v = .unused := by
  have hcontains : s.constrained.contains v = false := by
    rw [Bool.eq_false_iff, ne_eq, Std.TreeSet.contains_iff_mem]
    exact hv
  have hlookup : s.substitution.lookup v = none :=
    Option.eq_none_iff_forall_not_mem.mpr fun t ht => hv (hs.within v t ht).1
  have hvalue : s.substitution.apply (.var v) = .var v :=
    Substitution.apply_eq_self fun w hw => List.mem_singleton.mp hw ▸ hlookup
  unfold verdict
  rw [← Bool.not_or, hs.isBound_or_eq, hcontains, hvalue]
  rfl

theorem resembles_verdict (hs : s.Regular) (ht : t.Regular)
    (hvalue : (s.substitution.value v).Variant (t.substitution.value w))
    (hused : v ∈ s.constrained ↔ w ∈ t.constrained) :
    (s.verdict v).Resembles (t.verdict w) := by
  have hcontains : s.constrained.contains v = t.constrained.contains w := by
    rw [Bool.eq_iff_iff, Std.TreeSet.contains_iff_mem, Std.TreeSet.contains_iff_mem]
    exact hused
  have hvars : (s.substitution.apply (.var v)).containsVars =
      (t.substitution.apply (.var w)).containsVars := hvalue.containsVars_eq
  unfold verdict
  rw [← Bool.not_or, ← Bool.not_or, hs.isBound_or_eq, ht.isBound_or_eq, hcontains]
  simp only [hvars]
  split
  · next h =>
    refine .known (hvalue.agrees (hvalue.vars_eq_nil_iff.mpr ?_))
    rwa [Ty.containsVars, Bool.not_not, List.isEmpty_iff] at h
  · split
    · exact .unused
    · exact .incomplete hvalue

theorem types_resolve_eq (s : Session) (vars : NodeMap TypeVar) (n : NodeId) :
    (s.resolve vars).types[n]? = (s.verdictAt vars n).type? := by
  rw [types_resolve, verdictAt]
  cases vars[n]? <;> rfl

theorem diagnostics_resolve_eq (s : Session) (vars : NodeMap TypeVar) :
    (s.resolve vars).diagnostics = vars.keys.flatMap fun n => (s.verdictAt vars n).report n := by
  rw [diagnostics_resolve, ← Std.TreeMap.map_fst_toList_eq_keys, List.flatMap_map]
  refine List.flatMap_congr fun nv hnv => ?_
  rw [verdictAt, Std.TreeMap.mem_toList_iff_getElem?_eq_some.mp hnv, Option.map_some,
    Option.getD_some]
  rfl

/-- What nothing is made of may be left out of lists in the same order. -/
theorem flatMap_eq_of_pairwise {α : Type} {f : NodeId → List α} {ns ms : List NodeId}
    (hns : ns.Pairwise (compare · · = .lt)) (hms : ms.Pairwise (compare · · = .lt))
    (h : ∀ n, f n ≠ [] → n ∈ ns ∧ n ∈ ms) : ns.flatMap f = ms.flatMap f := by
  have hfilter (ns : List NodeId) :
      ns.flatMap f = (ns.filter fun n => !(f n).isEmpty).flatMap f := by
    induction ns with
    | nil => rfl
    | cons n ns ih => cases hn : f n <;> simp [hn, ih]
  have heq : (ns.filter fun n => !(f n).isEmpty) = ms.filter fun n => !(f n).isEmpty := by
    have hirrefl : Std.Irrefl (fun n m : NodeId => compare n m = .lt) := ⟨by simp⟩
    have hantisymm : Std.Antisymm (fun n m : NodeId => compare n m = .lt) := by
      refine ⟨fun n m hnm hmn => ?_⟩
      have hswap : compare n m = (compare m n).swap := Std.OrientedCmp.eq_swap
      rw [hswap, hmn] at hnm
      cases hnm
    refine (hns.filter _).eq_of_mem_iff (hms.filter _) fun n => ?_
    simp only [List.mem_filter, Bool.not_eq_true', List.isEmpty_eq_false_iff]
    exact and_congr_left fun hn => iff_of_true (h n hn).1 (h n hn).2
  rw [hfilter ns, hfilter ms, heq]

theorem mem_keys_of_report_ne_nil (h : (s.verdictAt vars n).report n ≠ []) : n ∈ vars.keys := by
  rw [Std.TreeMap.mem_keys, ← Std.TreeMap.isSome_getElem?_iff_mem]
  unfold verdictAt at h
  cases hv : vars[n]? with
  | none =>
    rw [hv] at h
    exact absurd rfl h
  | some v => rfl

/-- Sessions whose verdicts resemble each other tell users the same. -/
theorem resolve_eq_of_resembles (h : ∀ n, (s.verdictAt vars n).Resembles (t.verdictAt vars' n)) :
    (∀ n : NodeId,
      ((s.resolve vars).types[n]?).map Ty.bare = ((t.resolve vars').types[n]?).map Ty.bare) ∧
    (s.resolve vars).diagnostics = (t.resolve vars').diagnostics := by
  constructor
  · intro n
    rw [types_resolve_eq, types_resolve_eq]
    exact (h n).type?_eq
  · have hreport : (fun n => (s.verdictAt vars n).report n) =
        fun n => (t.verdictAt vars' n).report n := funext fun n => (h n).report_eq
    rw [diagnostics_resolve_eq, diagnostics_resolve_eq, ← hreport]
    refine flatMap_eq_of_pairwise Std.TreeMap.ordered_keys Std.TreeMap.ordered_keys fun n hn => ?_
    refine ⟨mem_keys_of_report_ne_nil hn, ?_⟩
    rw [(h n).report_eq] at hn
    exact mem_keys_of_report_ne_nil hn

end PlusCalTyping.Session
