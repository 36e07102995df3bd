import PlusCalTyping.Proofs.Solver.Counterparts
import PlusCalTyping.Proofs.Solver.Resemblance
import PlusCalTyping.Proofs.Typing.Completeness
import PlusCalTyping.Proofs.Typing.Permutations

/-! # The order of declarations

The order of the parts of an algorithm decides which variables its nodes get, in
which order constraints are demanded, and which choice is decided first. None of
this shows in the result (`Registry.infer_permuted`). The types that are found
are right for the algorithm whatever the order, so the constraints that are
collected in another order have a solution with just these types. This holds for
both runs, and with it they find the same.
-/

namespace PlusCalTyping

/-- The budget was enough. -/
def Findings.Unstopped (f : Findings) : Prop := ∀ d ∈ f.diagnostics, d.category ≠ .solverBudget

instance (f : Findings) : Decidable f.Unstopped :=
  inferInstanceAs (Decidable (∀ d ∈ f.diagnostics, d.category ≠ .solverBudget))

namespace Registry

variable {a b : Algorithm} {r r' : Registry} {o : Options} {τ : Typing} {n : NodeId} {t : Ty}

/-- The types that solving finds for the nodes that constraints mention. Parts
of them may be left open. -/
def found (r : Registry) (a : Algorithm) (o : Options) : Typing := fun n =>
  (Draft.ofAlgorithm r a o).vars[n]?.bind fun v =>
    if v ∈ (r.solution a o).session.constrained
    then some ((r.solution a o).session.substitution.value v) else none

theorem found_eq_some_iff : r.found a o n = some t ↔
    ∃ v, (Draft.ofAlgorithm r a o).vars[n]? = some v ∧
      v ∈ (r.solution a o).session.constrained ∧
      (r.solution a o).session.substitution.value v = t := by
  simp only [found, Option.bind_eq_some_iff, Option.ite_none_right_eq_some, Option.some.injEq]

theorem mem_constrained_solution {v : TypeVar} :
    v ∈ (r.solution a o).session.constrained ↔
      ∃ k ∈ (Draft.ofAlgorithm r a o).collection.constraints, v ∈ k.vars := by
  rw [solution, Solution.ofConstraints,
    ((Session.regular_ofOptions o).advances_solve o _).constrained]
  refine Session.mem_foldl_insert.trans ?_
  simp [Session.ofOptions]

/-- What solving finds is right for the algorithm, also where it is left open. -/
theorem algorithmTyped_found (h : r.Describes a) (hscope : r.diagnostics = [])
    (hsolved : (r.solution a o).failures = []) : (r.found a o).AlgorithmTyped r a := by
  let s := (r.solution a o).session
  let ρ : Reading := ⟨s.substitution.value, (· ∈ s.constrained), r.found a o⟩
  have hsolution := (Session.coherent_ofOptions o).solved (o := o)
    fun k hk => (Draft.regular_ofAlgorithm r a o k (Array.mem_toList_iff.mp hk)).1
  have hreads : ρ.Reads (Draft.ofAlgorithm r a o) := by
    refine ⟨fun k hk => ?_, fun k hk v hv => mem_constrained_solution.mpr ⟨k, hk, hv⟩,
      fun n v hn hused => ?_⟩
    · exact hsolution.satisfies hsolved _ (Valuation.models_value hsolution.coherent.acyclic) k
        (Array.mem_toList_iff.mpr hk)
    · have hfound := found_eq_some_iff.mpr ⟨v, hn, hused v List.mem_cons_self, rfl⟩
      exact ⟨_, hfound, Ty.agrees_refl _⟩
  exact hreads.algorithmTyped (h.covers hscope)

/-- An algorithm with a typing is solved if the budget allows. -/
theorem solved_of_algorithmTyped (hτ : τ.AlgorithmTyped r a)
    (hstop : (r.solution a o).Unstopped) : (r.solution a o).failures = [] := by
  have hregular := Draft.regular_ofAlgorithm r a o
  obtain ⟨θ, hθ⟩ := Draft.satisfiable_of_algorithmTyped hτ o
  refine (Session.ofOptions_solve_of_satisfiable o o
    (fun k hk => (hregular k (Array.mem_toList_iff.mp hk)).1)
    (fun c hc => (hregular _ (Array.mem_toList_iff.mp hc)).2 c rfl) hθ).resolve_right ?_
  rintro ⟨f, hf, hbudget⟩
  exact hstop f (hf ▸ List.mem_singleton_self f) hbudget

theorem defaulted_solution (hstop : (r.solution a o).Unstopped)
    (hsolved : (r.solution a o).failures = []) :
    (r.solution a o).Defaulted (Draft.ofAlgorithm r a o).collection.constraints.toList := by
  have hregular := Draft.regular_ofAlgorithm r a o
  refine Session.defaulted_ofOptions_solve (fun e he => ?_) (fun c hc => ?_) hstop hsolved
  · exact (hregular _ (Array.mem_toList_iff.mp (Solving.mem_equations_iff.mp he))).determined
  · exact (hregular _ (Array.mem_toList_iff.mp (Solving.mem_choices_iff.mp hc))).isIntOr c rfl

theorem verdictAt_of_found_eq_none (h : r.found a o n = none) :
    (r.solution a o).session.verdictAt (Draft.ofAlgorithm r a o).vars n = .unused := by
  unfold Session.verdictAt
  cases hn : (Draft.ofAlgorithm r a o).vars[n]? with
  | none => rfl
  | some v =>
    have hv : v ∉ (r.solution a o).session.constrained := by
      intro hv
      rw [found_eq_some_iff.mpr ⟨v, hn, hv, rfl⟩] at h
      cases h
    exact Session.verdict_eq_unused ((Session.regular_ofOptions o).advances_solve o _).regular hv

/-- Two runs of which each finds types that are right for the other come to
verdicts that resemble each other. -/
theorem resembles_verdictAt (hstop : (r.solution a o).Unstopped)
    (hstop' : (r'.solution b o).Unstopped) (hsolved : (r.solution a o).failures = [])
    (hsolved' : (r'.solution b o).failures = []) (hτ : (r.found a o).AlgorithmTyped r' b)
    (hτ' : (r'.found b o).AlgorithmTyped r a) (n : NodeId) :
    ((r.solution a o).session.verdictAt (Draft.ofAlgorithm r a o).vars n).Resembles
      ((r'.solution b o).session.verdictAt (Draft.ofAlgorithm r' b o).vars n) := by
  obtain ⟨θ, hθ, htypes⟩ := Draft.exists_solution_of_algorithmTyped hτ' o
  obtain ⟨θ', hθ', htypes'⟩ := Draft.exists_solution_of_algorithmTyped hτ o
  -- Constraints mention a node in both runs or in none.
  cases hn : r.found a o n with
  | none =>
    cases hn' : r'.found b o n with
    | none =>
      rw [verdictAt_of_found_eq_none hn, verdictAt_of_found_eq_none hn']
      exact .unused
    | some u =>
      obtain ⟨w, hw, hmem, _⟩ := found_eq_some_iff.mp hn'
      obtain ⟨k, hk, hwk⟩ := mem_constrained_solution.mp hmem
      obtain ⟨t, ht, _⟩ := htypes' k hk w hwk n hw
      rw [hn] at ht
      cases ht
  | some t =>
    obtain ⟨v, hv, hmem, rfl⟩ := found_eq_some_iff.mp hn
    obtain ⟨k, hk, hvk⟩ := mem_constrained_solution.mp hmem
    obtain ⟨u, hn', hu⟩ := htypes k hk v hvk n hv
    obtain ⟨w, hw, hmem', rfl⟩ := found_eq_some_iff.mp hn'
    obtain ⟨k', hk', hwk⟩ := mem_constrained_solution.mp hmem'
    obtain ⟨t, ht, htw⟩ := htypes' k' hk' w hwk n hw
    rw [hn] at ht
    cases ht
    have hvariant := (defaulted_solution hstop hsolved).variant
      (defaulted_solution hstop' hsolved') (fun k hk => hθ k (Array.mem_toList_iff.mp hk))
      (fun k hk => hθ' k (Array.mem_toList_iff.mp hk)) htw hu
    have hregular := ((Session.regular_ofOptions o).advances_solve o
      (Draft.ofAlgorithm r a o).collection.constraints.toList).regular
    have hregular' := ((Session.regular_ofOptions o).advances_solve o
      (Draft.ofAlgorithm r' b o).collection.constraints.toList).regular
    unfold Session.verdictAt
    rw [hv, hw]
    exact Session.resembles_verdict hregular hregular' hvariant (iff_of_true hmem hmem')

theorem unstopped_solution (hscope : r.diagnostics = []) (h : (r.infer a o).1.Unstopped) :
    (r.solution a o).Unstopped := by
  intro f hf
  refine h f.toDiagnostic ?_
  rw [diagnostics_infer hscope]
  exact List.mem_append_left _ (List.mem_map_of_mem hf)

theorem hasErrors_infer_of_failures (hscope : r.diagnostics = [])
    (hfailures : (r.solution a o).failures ≠ []) : (r.infer a o).1.hasErrors = true := by
  rw [Findings.hasErrors, diagnostics_infer hscope, Diagnostic.anyError, List.any_append,
    Bool.or_eq_true]
  exact .inl (Bool.not_eq_false _ ▸ mt Solution.diagnostics_eq_nil_iff.mp hfailures)

theorem hasErrors_infer_of_diagnostics (h : r.Describes a) (hscope : r.diagnostics ≠ []) :
    (r.infer a o).1.hasErrors = true := by
  have herror : Diagnostic.anyError r.diagnostics = true :=
    Bool.not_eq_false _ ▸ mt h.diagnostics_eq_nil hscope
  unfold infer inferFrom
  rw [if_pos herror]
  exact herror

section Permuted

variable (h : a.Permutes b) (hr : r.Alike r') (ha : r.Describes a) (hb : r'.Describes b)
include h hr ha hb

/-- What is solved with the parts in one order is solved in the other, with the same result. -/
theorem infer_permuted_of_solved (hscope : r.diagnostics = [])
    (hstop : (r.solution a o).Unstopped) (hstop' : (r'.solution b o).Unstopped)
    (hsolved : (r.solution a o).failures = []) : (r'.solution b o).failures = [] ∧
      (∀ n, ((r.infer a o).1.typeOf n).map Ty.bare = ((r'.infer b o).1.typeOf n).map Ty.bare) ∧
      (r.infer a o).1.diagnostics = (r'.infer b o).1.diagnostics := by
  have hscope' : r'.diagnostics = [] := (hscope ▸ hr.diagnostics).symm.eq_nil
  have hτ := ((algorithmTyped_found ha hscope hsolved).alike hr).permutes h
  have hsolved' := solved_of_algorithmTyped hτ hstop'
  have hτ' := ((algorithmTyped_found hb hscope' hsolved').alike hr.symm).permutes h.symm
  obtain ⟨htypes, hdiagnostics⟩ := Session.resolve_eq_of_resembles
    (resembles_verdictAt hstop hstop' hsolved hsolved' hτ hτ')
  refine ⟨hsolved', fun n => ?_, ?_⟩
  · rw [Findings.typeOf, Findings.typeOf, types_infer hscope, types_infer hscope']
    exact htypes n
  · rw [diagnostics_infer hscope, diagnostics_infer hscope']
    simp only [Solution.diagnostics, Solution.hasErrors, hsolved, hsolved', hdiagnostics]

end Permuted

/-- The order of the parts does not matter for an algorithm whose nodes are
different and whose names are declared once: with the same values for constants,
inference finds errors in both orders or in none. If it can solve the
constraints, it finds the same types and makes the same reports. -/
theorem infer_permuted (a b : Algorithm) (values : List (String × Expr)) (o : Options)
    (hnodes : a.nodes.Nodup) (hnames : a.DistinctNames) (h : a.Permutes b)
    (hstop : (((ofAlgorithm a).supply values).infer a o).1.Unstopped)
    (hstop' : (((ofAlgorithm b).supply values).infer b o).1.Unstopped) :
    let r := (ofAlgorithm a).supply values
    let r' := (ofAlgorithm b).supply values
    (r.infer a o).1.hasErrors = (r'.infer b o).1.hasErrors ∧
    (r.diagnostics = [] → (r.solution a o).failures = [] →
      (∀ n, ((r.infer a o).1.typeOf n).map Ty.bare = ((r'.infer b o).1.typeOf n).map Ty.bare) ∧
      (r.infer a o).1.diagnostics = (r'.infer b o).1.diagnostics) := by
  intro r r'
  have hr : r.Alike r' := (alike_ofAlgorithm h hnodes hnames).supply values
  have ha : r.Describes a := (Prepared.ofAlgorithm.supply values).describes
  have hb : r'.Describes b := (Prepared.ofAlgorithm.supply values).describes
  by_cases hscope : r.diagnostics = []
  · have hscope' : r'.diagnostics = [] := (hscope ▸ hr.diagnostics).symm.eq_nil
    have hstop := unstopped_solution hscope hstop
    have hstop' := unstopped_solution hscope' hstop'
    have hsame := infer_permuted_of_solved h hr ha hb hscope hstop hstop'
    refine ⟨?_, fun _ hsolved => (hsame hsolved).2⟩
    by_cases hsolved : (r.solution a o).failures = []
    · obtain ⟨_, _, hdiagnostics⟩ := hsame hsolved
      rw [Findings.hasErrors, Findings.hasErrors, hdiagnostics]
    · have hsolved' : (r'.solution b o).failures ≠ [] := fun hsolved' => hsolved
        (infer_permuted_of_solved h.symm hr.symm hb ha hscope' hstop' hstop hsolved').1
      rw [hasErrors_infer_of_failures hscope hsolved, hasErrors_infer_of_failures hscope' hsolved']
  · have hscope' : r'.diagnostics ≠ [] := fun hnil =>
      hscope (hnil ▸ hr.diagnostics).eq_nil
    refine ⟨?_, fun hnil => absurd hnil hscope⟩
    rw [hasErrors_infer_of_diagnostics ha hscope, hasErrors_infer_of_diagnostics hb hscope']

/-- A constant and the empty set in two orders. Nodes have other variables then,
and the report on the elements of the set is the same. -/
theorem infer_permuted_globals :
    let x : Decl := ⟨⟨0⟩, "x", some (.value (.ident ⟨1⟩ "c"))⟩
    let s : Decl := ⟨⟨3⟩, "s", some (.value (.set ⟨2⟩ []))⟩
    let a : Algorithm := { constants := [⟨⟨4⟩, "c"⟩, ⟨⟨5⟩, "d"⟩], globals := [x, s] }
    let b : Algorithm := { constants := [⟨⟨5⟩, "d"⟩, ⟨⟨4⟩, "c"⟩], globals := [s, x] }
    let values : List (String × Expr) := [("c", .literal ⟨6⟩ (.int 1))]
    let r := (ofAlgorithm a).supply values
    let r' := (ofAlgorithm b).supply values
    a.nodes.Nodup ∧ a.DistinctNames ∧ a.Permutes b ∧
      (r.infer a {}).1.Unstopped ∧ (r'.infer b {}).1.Unstopped ∧
      (r'.infer b {}).1.diagnostics =
        [Resolution.incompleteDiagnostic ⟨2⟩ (.set (.var ⟨0⟩) .none),
          Resolution.incompleteDiagnostic ⟨3⟩ (.set (.var ⟨0⟩) .none)] := by
  intro x s a b values r r'
  have hnodes : a.nodes.Nodup := by decide
  have hnames : a.DistinctNames := ⟨by decide, by decide, by decide, by decide⟩
  have h : a.Permutes b := {
    constants := .swap _ _ _
    units := .nil
    globals := .swap _ _ _
    procedures := .nil
    archetypes := .nil
    mappingMacros := .nil
    instances := .nil
    processes := .multi .nil }
  have hstop : (((ofAlgorithm a).supply values).infer a {}).1.Unstopped :=
    of_decide_eq_true (by cbv)
  have hstop' : (((ofAlgorithm b).supply values).infer b {}).1.Unstopped :=
    of_decide_eq_true (by cbv)
  refine ⟨hnodes, hnames, h, hstop, hstop', ?_⟩
  rw [← ((infer_permuted a b values {} hnodes hnames h hstop hstop').2 (by cbv) (by cbv)).2]
  cbv

end Registry

end PlusCalTyping
