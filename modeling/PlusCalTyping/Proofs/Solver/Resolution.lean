import PlusCalTyping.Proofs.Solver.Bindings

/-! # What is read off a session

The verdict on a variable depends on two things: whether any constraint has
mentioned the variable, and whether its type is free of variables
(`Session.Regular.verdict_eq`). A variable that none has mentioned is not bound
either, so that its node is passed over. All other nodes get a type in which
variables are replaced by the marker. Since bindings never contain the marker, it
shows exactly where a variable was, and exactly there the node is reported
(`Session.ofOptions_resolve_partition`).
-/

namespace PlusCalTyping

namespace Ty

mutual

/-- The marker comes from the type or from what is put in for a variable of it. -/
theorem containsUnresolved_subst (f : TypeVar → Ty) : (t : Ty) →
    (t.subst f).containsUnresolved =
      (t.containsUnresolved || t.vars.any fun v => (f v).containsUnresolved)
  | prim _ _ | unresolved _ => rfl
  | var v => by simp [subst, vars, containsUnresolved]
  | set elem _ => containsUnresolved_subst f elem
  | tuple elems _ => containsUnresolvedList_subst f elems
  | map key value _ => by
    simp only [subst, vars, containsUnresolved, containsUnresolved_subst f key,
      containsUnresolved_subst f value, List.any_append]
    ac_rfl
  | procedure params _ => containsUnresolvedList_subst f params
  | operator params result _ => by
    simp only [subst, vars, containsUnresolved, containsUnresolvedList_subst f params,
      containsUnresolved_subst f result, List.any_append]
    ac_rfl

theorem containsUnresolvedList_subst (f : TypeVar → Ty) : (ts : List Ty) →
    containsUnresolvedList (substList f ts) =
      (containsUnresolvedList ts || (varsList ts).any fun v => (f v).containsUnresolved)
  | [] => rfl
  | t :: ts => by
    simp only [substList, varsList, containsUnresolvedList, containsUnresolved_subst f t,
      containsUnresolvedList_subst f ts, List.any_append]
    ac_rfl

end

theorem vars_ground (t : Ty) : t.ground.vars = [] := by
  rw [ground, vars_subst, List.flatMap_eq_nil_iff]
  exact fun _ _ => rfl

theorem determined_ground_iff {t : Ty} : t.ground.Determined ↔ t.Determined ∧ t.vars = [] := by
  rw [Determined, Determined, ground, containsUnresolved_subst, Bool.or_eq_false_iff]
  refine and_congr_right fun _ => ?_
  simp [containsUnresolved, List.eq_nil_iff_forall_not_mem]

end Ty

namespace Session

variable {s : Session} {vars : NodeMap TypeVar} {n : NodeId} {v : TypeVar}

/-! ## Verdicts -/

theorem Regular.lookup_eq_none (h : s.Regular) (hv : v ∉ s.constrained) :
    s.substitution.lookup v = none := by
  cases hl : s.substitution.lookup v with
  | none => rfl
  | some t => exact absurd (h.within v t hl).1 hv

/-- What the verdict on a variable depends on. -/
theorem Regular.verdict_eq (h : s.Regular) (v : TypeVar) :
    s.verdict v =
      if v ∈ s.constrained then
        if (s.substitution.value v).vars = [] then .known (s.substitution.value v)
        else .incomplete (s.substitution.value v)
      else .unused := by
  have hvars : (s.substitution.value v).containsVars = true ↔
      (s.substitution.value v).vars ≠ [] := by
    rw [Ty.containsVars, Bool.not_eq_true', List.isEmpty_eq_false_iff]
  by_cases hv : v ∈ s.constrained
  · rw [if_pos hv]
    by_cases hknown : (s.substitution.value v).vars = []
    · rw [if_pos hknown]
      exact verdict_eq_known_iff.mpr ⟨rfl, hknown⟩
    · rw [if_neg hknown, verdict, ← Substitution.value, hvars.mpr hknown,
        Std.TreeSet.contains_iff_mem.mpr hv]
      simp
  · have hnone := h.lookup_eq_none hv
    have hvalue : s.substitution.value v = .var v :=
      Substitution.apply_eq_self fun w hw => List.mem_singleton.mp hw ▸ hnone
    have hbound : s.substitution.isBound v = false := by
      rw [Substitution.isBound_eq, hnone]
      rfl
    have hcontains : s.constrained.contains v = false := by
      rw [← Bool.not_eq_true, Std.TreeSet.contains_iff_mem]
      exact hv
    rw [if_neg hv, verdict, ← Substitution.value, hvalue, hbound, hcontains]
    rfl

/-- A node gets a type exactly if some constraint has mentioned its variable. -/
theorem Regular.types_resolve_eq_none_iff (h : s.Regular) :
    (s.resolve vars).types[n]? = none ↔ ∀ v, vars[n]? = some v → v ∉ s.constrained := by
  rw [types_resolve, Option.bind_eq_none_iff]
  refine forall₂_congr fun v _ => ?_
  rw [h.verdict_eq]
  by_cases hc : v ∈ s.constrained
  · rw [if_pos hc]
    refine iff_of_false ?_ (not_not_intro hc)
    split <;> exact Option.some_ne_none _
  · rw [if_neg hc]
    exact iff_of_true rfl hc

/-! ## Reports -/

def Verdict.isIncomplete : Verdict → Bool
  | incomplete _ => true
  | known _ | unused => false

/-- The nodes that are reported, in ascending order. -/
def reported (s : Session) (vars : NodeMap TypeVar) : List NodeId :=
  (vars.toList.filter fun nv => (s.verdict nv.2).isIncomplete).map (·.1)

theorem locations_resolve (s : Session) (vars : NodeMap TypeVar) :
    (s.resolve vars).diagnostics.map (·.location) = (s.reported vars).map some := by
  rw [diagnostics_resolve, reported]
  induction vars.toList with
  | nil => rfl
  | cons nv l ih =>
    rw [List.flatMap_cons, List.map_append, ih, List.filter_cons, reports]
    cases s.verdict nv.2 <;> rfl

theorem pairwise_reported (s : Session) (vars : NodeMap TypeVar) :
    (s.reported vars).Pairwise (·.val < ·.val) := by
  refine List.pairwise_map.mpr (List.Pairwise.filter _ ?_)
  exact (Std.TreeMap.ordered_keys_toList (t := vars)).imp Nat.compare_eq_lt.mp

theorem mem_reported_iff (hv : vars[n]? = some v) :
    n ∈ s.reported vars ↔ (s.verdict v).isIncomplete := by
  simp only [reported, List.mem_map, List.mem_filter]
  constructor
  · rintro ⟨⟨m, w⟩, ⟨hw, hincomplete⟩, rfl⟩
    cases hv.symm.trans (Std.TreeMap.mem_toList_iff_getElem?_eq_some.mp hw)
    exact hincomplete
  · intro h
    exact ⟨(n, v), ⟨Std.TreeMap.mem_toList_iff_getElem?_eq_some.mpr hv, h⟩, rfl⟩

theorem exists_located_iff (s : Session) (vars : NodeMap TypeVar) (n : NodeId) :
    (∃ d ∈ (s.resolve vars).diagnostics, d.location = some n) ↔ n ∈ s.reported vars := by
  rw [← List.mem_map, locations_resolve, List.mem_map_of_injective (Option.some_injective _)]

theorem category_of_mem_resolve {d : Diagnostic} (hd : d ∈ (s.resolve vars).diagnostics) :
    d.category = .unresolvedType := by
  obtain ⟨n, _, t, rfl⟩ := exists_of_mem_resolve hd
  rfl

/-- What a node is found to be, and whether it is reported. -/
theorem Regular.type_cases (h : s.Regular) (hdet : s.substitution.Determined)
    (hv : vars[n]? = some v) {t : Ty} (ht : (s.resolve vars).types[n]? = some t) :
    t.vars = [] ∧ (t.Determined ↔ n ∉ s.reported vars) ∧
      (n ∉ s.reported vars → t = s.substitution.apply (.var v)) := by
  have hvalue : (s.substitution.value v).Determined := hdet.apply (Ty.determined_var v)
  rw [types_resolve, hv, Option.bind_some] at ht
  rw [mem_reported_iff hv]
  rw [h.verdict_eq] at ht ⊢
  by_cases hc : v ∈ s.constrained
  · rw [if_pos hc] at ht ⊢
    by_cases hknown : (s.substitution.value v).vars = []
    · rw [if_pos hknown] at ht ⊢
      cases ht
      exact ⟨hknown, iff_of_true hvalue Bool.false_ne_true, fun _ => rfl⟩
    · rw [if_neg hknown] at ht ⊢
      cases ht
      refine ⟨Ty.vars_ground _, iff_of_false ?_ (not_not_intro rfl), fun hn => absurd rfl hn⟩
      exact fun hground => hknown (Ty.determined_ground_iff.mp hground).2
  · rw [if_neg hc] at ht
    cases ht

/-- After any calls whose constraints do not contain the marker, the nodes that
get no type are those whose variables no constraint has mentioned. The types are
free of variables, and those in which the marker shows belong to the nodes that
are reported. Nodes are reported once, in ascending order, and every other type is
that of the variable under the bindings. -/
theorem ofOptions_resolve_partition (o : Options) {calls : List Call}
    (h : ∀ c ∈ calls, c.Determined) (vars : NodeMap TypeVar) :
    let s := (ofOptions o).after calls
    let x := s.resolve vars
    (∀ n : NodeId, x.types[n]? = none ↔
      ∀ v, vars[n]? = some v → ∀ c ∈ calls, ∀ k ∈ c.constraints, v ∉ k.vars) ∧
    (∀ (n : NodeId) (t : Ty), x.types[n]? = some t → t.vars = [] ∧
      (t.containsUnresolved ↔
        ∃ d ∈ x.diagnostics, d.category = .unresolvedType ∧ d.location = some n)) ∧
    (∃ ns : List NodeId, ns.Pairwise (·.val < ·.val) ∧
      x.diagnostics.map (·.location) = ns.map some) ∧
    ∀ (n : NodeId) (v : TypeVar) (t : Ty), vars[n]? = some v → x.types[n]? = some t →
      (∀ d ∈ x.diagnostics, d.location ≠ some n) → t = s.substitution.apply (.var v) := by
  intro s x
  have hs : s.Regular := (regular_ofOptions o).after calls
  have hdet : s.substitution.Determined := ((coherent_ofOptions o).after h).1.determined
  have hfresh : ∀ v, v ∉ (ofOptions o).constrained := fun _ => Std.TreeSet.not_mem_emptyc
  have hreported (n : NodeId) :
      (∃ d ∈ x.diagnostics, d.category = .unresolvedType ∧ d.location = some n) ↔
        n ∈ s.reported vars := by
    rw [← exists_located_iff]
    refine exists_congr fun d => and_congr_right fun hd => ?_
    exact and_iff_right (category_of_mem_resolve hd)
  refine ⟨fun n => ?_, fun n t ht => ?_, ⟨_, s.pairwise_reported vars,
    s.locations_resolve vars⟩, fun n v t hv ht hnone => ?_⟩
  · rw [hs.types_resolve_eq_none_iff]
    refine forall₂_congr fun v _ => ?_
    rw [(regular_ofOptions o).mem_constrained_after]
    simp only [hfresh, false_or, not_exists, not_and]
  · obtain ⟨v, hv, _⟩ := Option.bind_eq_some_iff.mp ((s.types_resolve vars n).symm.trans ht)
    obtain ⟨hvars, hmarked, _⟩ := hs.type_cases hdet hv ht
    rw [hreported, ← not_iff_not, ← hmarked]
    exact ⟨hvars, Bool.eq_false_iff.symm⟩
  · refine (hs.type_cases hdet hv ht).2.2 fun hmem => ?_
    obtain ⟨d, hd, hlocation⟩ := (s.exists_located_iff vars n).mpr hmem
    exact hnone d hd hlocation

/-- The second call fails at its first equation and is refused the second one. The
variable that only this one mentions is open, as is what the set of node 4 is a set
of. Nothing mentions the variable of node 7. -/
theorem ofOptions_resolve_partition_refused :
    let eqn (s t : Ty) : Constraint := .equal ⟨s, t, ⟨0⟩, .exprType⟩
    let calls : List Call := [
      ⟨{}, [eqn (.var ⟨0⟩) (.set (.var ⟨1⟩) .none), eqn (.var ⟨2⟩) (.bool ⟨0⟩)]⟩,
      ⟨{ maxIterations := 1 }, [eqn (.var ⟨2⟩) (.string ⟨0⟩), eqn (.var ⟨3⟩) (.int ⟨0⟩)]⟩]
    let entries : List (NodeId × TypeVar) := [(⟨7⟩, ⟨4⟩), (⟨6⟩, ⟨3⟩), (⟨5⟩, ⟨2⟩), (⟨4⟩, ⟨0⟩)]
    let vars : NodeMap TypeVar := Std.TreeMap.ofList entries
    let x := ((ofOptions {}).after calls).resolve vars
    (∀ c ∈ calls, c.Determined) ∧ x.types[(⟨7⟩ : NodeId)]? = none ∧
    x.types[(⟨5⟩ : NodeId)]? = some (.bool ⟨0⟩) ∧
    ∀ n : NodeId, n = ⟨4⟩ ∨ n = ⟨6⟩ →
      ∃ d ∈ x.diagnostics, d.category = .unresolvedType ∧ d.location = some n := by
  intro eqn calls entries vars x
  have hdet : ∀ c ∈ calls, c.Determined := by decide
  obtain ⟨hnone, hmarked, _, _⟩ := ofOptions_resolve_partition {} hdet vars
  have hunused : ∀ v, vars[(⟨7⟩ : NodeId)]? = some v →
      ∀ c ∈ calls, ∀ k ∈ c.constraints, v ∉ k.vars := by
    have hv : vars[(⟨7⟩ : NodeId)]? = some ⟨4⟩ := by cbv
    intro v hv'
    cases hv.symm.trans hv'
    decide
  have hset : x.types[(⟨4⟩ : NodeId)]? = some (.set (.unresolved .none) .none) := by
    simp only [x, vars, entries, calls, eqn]
    cbv
  have hopen : x.types[(⟨6⟩ : NodeId)]? = some (.unresolved .none) := by
    simp only [x, vars, entries, calls, eqn]
    cbv
  have hbool : x.types[(⟨5⟩ : NodeId)]? = some (.bool ⟨0⟩) := by
    simp only [x, vars, entries, calls, eqn]
    cbv
  refine ⟨hdet, (hnone ⟨7⟩).mpr hunused, hbool, ?_⟩
  rintro n (rfl | rfl)
  · exact (hmarked _ _ hset).2.mp rfl
  · exact (hmarked _ _ hopen).2.mp rfl

end Session

end PlusCalTyping
