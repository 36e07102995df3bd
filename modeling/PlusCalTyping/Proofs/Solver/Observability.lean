import PlusCalTyping.Proofs.Solver.Translation

/-! # What is recorded changes nothing

Types remember where they came from, constraints know the node that demands
them and why, and a run may keep a trace. None of this decides anything: two
lists that differ in it only become the same when it is forgotten, and each is
solved like what is then left of it. The same list is solved to the same
failures whatever is recorded, only the equations listed in a report of an
exhausted budget are as many as the options ask for
(`Session.ofOptions_solve_agreeing`).
-/

namespace PlusCalTyping

theorem Ty.variant_of_agrees {s t : Ty} (h : s.agrees t) : s.Variant t := by
  constructor
  · refine ⟨.var, ?_⟩
    rwa [subst_var]
  · refine ⟨.var, ?_⟩
    rw [subst_var]
    exact agrees_symm h

/-- The same equation, of other nodes and for other reasons. -/
structure Equation.Agrees (e e' : Equation) : Prop where
  expected : e.expected.agrees e'.expected
  actual : e.actual.agrees e'.actual

/-- The same constraint, of other nodes and for other reasons. -/
inductive Constraint.Agrees : Constraint → Constraint → Prop
  | equal {e e' : Equation} (h : e.Agrees e') : Agrees (equal e) (equal e')
  | oneOf {c c' : Choice}
    (h : List.Forall₂ (List.Forall₂ Equation.Agrees) c.candidates c'.candidates) :
    Agrees (oneOf c) (oneOf c')

theorem Equation.Agrees.translate_eq {e e' : Equation} (h : e.Agrees e') (p : Provenance) :
    e.translate (.forget p) = e'.translate (.forget p) := by
  simp only [translate, Ty.translate_forget, (Ty.agrees_iff _ _).mp h.expected,
    (Ty.agrees_iff _ _).mp h.actual]
  rfl

/-- What is left of a constraint when nodes and reasons are forgotten. -/
theorem Constraint.Agrees.translate_eq {k k' : Constraint} (h : k.Agrees k') (p : Provenance) :
    k.translate (.forget p) = k'.translate (.forget p) := by
  cases h with
  | equal h => exact congrArg Constraint.equal (h.translate_eq p)
  | oneOf h =>
    have hcandidates := map_eq_map_of_forall₂
      (fun _ _ hes => map_eq_map_of_forall₂ (fun _ _ he => he.translate_eq p) hes) h
    simp only [translate, Choice.translate, hcandidates]
    rfl

theorem Equation.translate_same (e : Equation) : e.translate .same = e := by
  simp only [translate, Ty.translate_same]
  rfl

theorem Choice.translate_same (c : Choice) : c.translate .same = c := by
  simp only [translate, Equation.translate_same, List.map_id']
  rfl

theorem Constraint.translate_same (k : Constraint) : k.translate .same = k := by
  cases k with
  | equal e => exact congrArg equal e.translate_same
  | oneOf c => exact congrArg oneOf c.translate_same

theorem Failure.translate_same (f : Failure) : f.translate .same = f := by
  cases f <;>
    simp only [translate, Ty.translate_same, Choice.translate_same, Equation.translate_same,
      List.map_id'] <;> rfl

/-- The diagnostic without what a report of an exhausted budget lists. -/
def Diagnostic.withoutWindow (d : Diagnostic) : Diagnostic :=
  if d.category = .solverBudget then { d with help := none } else d

theorem Failure.Echoes.toDiagnostic_eq {same : Prop} {f f' : Failure}
    (h : f.Echoes .same same f') :
    f.toDiagnostic.withoutWindow = f'.toDiagnostic.withoutWindow := by
  cases h with
  | told => rw [translate_same]
  | refused => rfl

namespace Session

theorem Verdict.resembles_of_translate_eq {p : Provenance} {x y : Verdict}
    (h : x.translate (.forget p) = y.translate (.forget p)) : x.Resembles y := by
  cases x <;> cases y <;> simp only [translate, Ty.translate_forget, reduceCtorEq] at h
  case known.known t u => exact .known ((Ty.agrees_iff t u).mpr (known.inj h))
  case unused.unused => exact .unused
  case incomplete.incomplete t u =>
    exact .incomplete (Ty.variant_of_agrees ((Ty.agrees_iff t u).mpr (incomplete.inj h)))

/-- Nothing that is recorded has an influence on what is found. Lists that
differ in nodes and reasons only are solved to the same verdict, the same
bindings and the same results for nodes; one list is solved to the same
diagnostics. -/
theorem ofOptions_solve_agreeing (p p' : Options) {o o' : Options}
    (ho : o.maxIterations = o'.maxIterations) {cs cs' : List Constraint}
    (h : List.Forall₂ Constraint.Agrees cs cs') :
    let x := (ofOptions p).solve o cs
    let y := (ofOptions p').solve o' cs'
    x.hasErrors = y.hasErrors ∧
    (∀ v, (x.session.substitution.lookup v).map Ty.bare =
      (y.session.substitution.lookup v).map Ty.bare) ∧
    (∀ vars : NodeMap TypeVar,
      (∀ n : NodeId, ((x.session.resolve vars).types[n]?).map Ty.bare =
        ((y.session.resolve vars).types[n]?).map Ty.bare) ∧
      (x.session.resolve vars).diagnostics = (y.session.resolve vars).diagnostics) ∧
    (cs = cs' →
      x.diagnostics.map Diagnostic.withoutWindow = y.diagnostics.map Diagnostic.withoutWindow ∧
      (o.traceLimit = o'.traceLimit → x.diagnostics = y.diagnostics)) := by
  intro x y
  let q : Provenance := default
  -- Both runs are compared with one run on what is left of either list.
  have hleft := (translates_ofOptions (.forget q) p p).solve (Eq.refl o.maxIterations) cs
  have hright := (translates_ofOptions (.forget q) p' p).solve ho cs'
  rw [← map_eq_map_of_forall₂ (fun _ _ hk => hk.translate_eq q) h] at hright
  have hlookup (v : TypeVar) := (hleft.session.substitution.lookup v).symm.trans
    (hright.session.substitution.lookup v)
  have hverdict (v : TypeVar) := (hleft.session.verdict v).symm.trans (hright.session.verdict v)
  refine ⟨?_, fun v => ?_, fun vars => resolve_eq_of_resembles fun n => ?_, ?_⟩
  · refine congrArg not (Bool.eq_iff_iff.mpr ?_)
    rw [List.isEmpty_iff, List.isEmpty_iff]
    exact hleft.solved.symm.trans hright.solved
  · simp only [Ty.translate_forget] at hlookup
    exact hlookup v
  · unfold verdictAt
    cases vars[n]? with
    | none => exact .unused
    | some v => exact Verdict.resembles_of_translate_eq (hverdict v)
  · rintro rfl
    have hsame := (translates_ofOptions .same p p').solve ho.symm cs
    simp only [Constraint.translate_same, List.map_id'] at hsame
    have hfailures := hsame.failures fun _ => rfl
    constructor
    · simp only [Solution.diagnostics, List.map_map]
      exact map_eq_map_of_forall₂ (fun _ _ hf => hf.toDiagnostic_eq) hfailures
    · intro hlimit
      refine map_eq_map_of_forall₂ (fun f f' hf => ?_) hfailures
      rw [hf.eq_translate hlimit.symm, Failure.translate_same]

/-- The budget is exhausted while the second candidate is tried. Of the element
type nothing is known then, whichever node asks for it and whatever is recorded. -/
theorem ofOptions_solve_agreeing_exhausted :
    let eqn (n : NodeId) (s t : Ty) : Equation := ⟨s, t, n, .exprType⟩
    let cs (n : NodeId) : List Constraint :=
      [.equal (eqn n (.var ⟨0⟩) (.set (.var ⟨1⟩) (.single n))),
        .oneOf ⟨[[eqn n (.var ⟨1⟩) (.int n)], [eqn n (.var ⟨1⟩) (.real n)]], n, .identity⟩]
    let o : Options := { maxIterations := 2 }
    let o' : Options := { maxIterations := 2, traceLimit := 0, tracing := true, varPrefix := "x" }
    let vars : NodeMap TypeVar := Std.TreeMap.empty.insert ⟨7⟩ ⟨0⟩
    let y := (ofOptions o').solve o' (cs ⟨2⟩)
    o.maxIterations = o'.maxIterations ∧ List.Forall₂ Constraint.Agrees (cs ⟨1⟩) (cs ⟨2⟩) ∧
    y.hasErrors ∧ (y.session.resolve vars).diagnostics =
      [Resolution.incompleteDiagnostic ⟨7⟩ (.set (.var ⟨1⟩) .none)] := by
  intro eqn cs o o' vars y
  have hcs : List.Forall₂ Constraint.Agrees (cs ⟨1⟩) (cs ⟨2⟩) := by
    refine .cons (.equal ⟨rfl, rfl⟩) (.cons (.oneOf ?_) .nil)
    exact .cons (.cons ⟨rfl, rfl⟩ .nil) (.cons (.cons ⟨rfl, rfl⟩ .nil) .nil)
  have hbudget : o.maxIterations = o'.maxIterations := rfl
  obtain ⟨hverdict, _, hnodes, _⟩ := ofOptions_solve_agreeing o o' hbudget hcs
  refine ⟨hbudget, hcs, ?_, ?_⟩
  · rw [← hverdict]
    cbv
  · rw [← (hnodes vars).2]
    cbv

end Session

end PlusCalTyping
