import PlusCalTyping.Proofs.Solver.Translation

/-! # Solving with other variables

Variables are only names. If they are renamed, different ones differently, the
bindings are renamed with them and nothing else changes: the diagnostics are the
same to the letter, and so is everything that is found of nodes
(`Session.ofOptions_solve_renamed`). In particular no text for users shows the
number of a variable.
-/

namespace PlusCalTyping

variable {ρ : TypeVar → TypeVar} (hρ : Function.Injective ρ)

/-! ## Texts -/

namespace Ty

mutual

theorem allOrigins_subst_var : (t : Ty) → (t.subst (var ∘ ρ)).allOrigins = t.allOrigins
  | prim _ _ | var _ | unresolved _ => rfl
  | set elem _ => by simp only [subst, allOrigins, allOrigins_subst_var elem]
  | tuple elems _ => by simp only [subst, allOrigins, allOriginsList_substList_var elems]
  | map key value _ => by
    simp only [subst, allOrigins, allOrigins_subst_var key, allOrigins_subst_var value]
  | procedure params _ => by simp only [subst, allOrigins, allOriginsList_substList_var params]
  | operator params result _ => by
    simp only [subst, allOrigins, allOriginsList_substList_var params,
      allOrigins_subst_var result]

theorem allOriginsList_substList_var :
    (ts : List Ty) → allOriginsList (substList (var ∘ ρ) ts) = allOriginsList ts
  | [] => rfl
  | t :: ts => by
    simp only [substList, allOriginsList, allOrigins_subst_var t, allOriginsList_substList_var ts]

end

theorem display_rename (t : Ty) : (t.translate (.rename ρ hρ)).display = t.display := by
  rw [translate_rename, display_subst_var fun _ _ _ _ h => hρ h]

theorem displayPair_rename (s t : Ty) :
    displayPair (s.translate (.rename ρ hρ)) (t.translate (.rename ρ hρ)) = displayPair s t := by
  rw [translate_rename, translate_rename, displayPair_subst_var fun _ _ _ _ h => hρ h]

theorem allOrigins_rename (t : Ty) : (t.translate (.rename ρ hρ)).allOrigins = t.allOrigins := by
  rw [translate_rename, allOrigins_subst_var]

theorem origins?_rename (t : Ty) : (t.translate (.rename ρ hρ)).origins? = t.origins? := by
  cases t <;> rfl

end Ty

theorem Equation.render_rename (e : Equation) :
    (e.translate (.rename ρ hρ)).render = e.render := by
  simp only [render, translate, Ty.displayPair_rename]
  rfl

theorem describeCandidate_rename (candidate : List Equation) :
    describeCandidate (candidate.map (·.translate (.rename ρ hρ))) =
      describeCandidate candidate := by
  simp only [describeCandidate, List.map_map, Function.comp_def, Equation.translate,
    Ty.display_rename]

namespace Failure

theorem originNotes_rename (own : NodeId) (side : String) (t : Ty) :
    originNotes own side (t.translate (.rename ρ hρ)) = originNotes own side t := by
  simp only [originNotes, Ty.origins?_rename, Ty.display_rename]

theorem equationNotes_rename (e : Equation) :
    equationNotes (e.translate (.rename ρ hρ)) = equationNotes e := by
  simp only [equationNotes, Equation.translate, Ty.isVar_translate, Ty.allOrigins_rename,
    Ty.display_rename, Translation.rename_provenance]

theorem message_rename (f : Failure) : (f.translate (.rename ρ hρ)).message = f.message := by
  -- The equations of `message` are too large to be stated one by one.
  delta message
  cases f with
  | mismatch s t p | tupleSize s t m n p =>
    simp only [translate, Ty.displayPair_rename, Translation.rename_provenance]
  | paramCount m n p => rfl
  | infinite v t p =>
    have hpair : Ty.displayPair (.var (ρ v)) (t.translate (.rename ρ hρ)) =
      Ty.displayPair (.var v) t := Ty.displayPair_rename hρ (.var v) t
    simp only [translate, Translation.rename_var, hpair]
  | exhausted c =>
    simp only [translate, Choice.translate, List.map_map, Function.comp_def,
      describeCandidate_rename, Translation.rename_provenance]
  | outOfBudget limit recent p => rfl

theorem notes_rename (f : Failure) : (f.translate (.rename ρ hρ)).notes = f.notes := by
  cases f with
  | mismatch s t p =>
    simp only [translate, notes, originNotes_rename, Translation.rename_provenance]
  | exhausted c =>
    simp only [translate, notes, choiceNotes, Choice.translate, ← List.map_flatten,
      List.flatMap_map, equationNotes_rename, Translation.rename_provenance]
  | tupleSize _ _ _ _ _ | paramCount _ _ _ | infinite _ _ _ | outOfBudget _ _ _ => rfl

theorem help?_rename (f : Failure) : (f.translate (.rename ρ hρ)).help? = f.help? := by
  cases f with
  | outOfBudget limit recent p =>
    simp only [translate, help?, budgetHelp, List.isEmpty_map, List.map_map, Function.comp_def,
      Equation.render_rename]
  | mismatch _ _ _ | tupleSize _ _ _ _ _ | paramCount _ _ _ | infinite _ _ _ | exhausted _ => rfl

theorem category_translate (T : Translation) (f : Failure) :
    (f.translate T).category = f.category := by
  cases f <;> rfl

/-- A failure reads the same whatever its variables are called. -/
theorem toDiagnostic_rename (f : Failure) :
    (f.translate (.rename ρ hρ)).toDiagnostic = f.toDiagnostic := by
  simp only [toDiagnostic, node, provenance_translate, Translation.rename_provenance,
    category_translate, message_rename, notes_rename, help?_rename]

end Failure

/-! ## Runs -/

namespace Session

/-- A verdict tells the same of a node whatever its variables are called. -/
theorem add_verdict_rename (r : Resolution) (n : NodeId) (s : Session) (v : TypeVar) :
    r.add n ((s.verdict v).translate (.rename ρ hρ)) = r.add n (s.verdict v) := by
  cases h : s.verdict v with
  | known t =>
    have ht : t.translate (.rename ρ hρ) = t := by
      rw [Ty.translate_rename]
      refine Ty.subst_eq_self fun w hw => ?_
      rw [(verdict_eq_known_iff.mp h).2] at hw
      cases hw
    rw [Verdict.translate, ht]
  | unused => rfl
  | incomplete t =>
    have hground : (t.translate (.rename ρ hρ)).ground = t.ground := by
      rw [Ty.translate_rename]
      exact Ty.subst_subst _ _ t
    simp only [Verdict.translate, Resolution.add, Resolution.incompleteDiagnostic, hground,
      Ty.display_rename]

/-- Nodes are told the same of renamed variables. -/
theorem Translates.resolve_rename {s t : Session} (h : s.Translates (.rename ρ hρ) t)
    (vars : NodeMap TypeVar) : t.resolve (vars.map fun _ v => ρ v) = s.resolve vars := by
  have hverdict (v : TypeVar) : t.verdict (ρ v) = (s.verdict v).translate (.rename ρ hρ) :=
    h.verdict v
  simp only [resolve, Std.TreeMap.toList_map, List.foldl_map, hverdict, add_verdict_rename]

/-- Renaming the variables of constraints renames those of the bindings. The
diagnostics, and the types and reports of nodes, stay as they are. -/
theorem ofOptions_solve_renamed (p o : Options) {ρ : TypeVar → TypeVar}
    (hρ : Function.Injective ρ) (cs : List Constraint) :
    let x := (ofOptions p).solve o cs
    let y := (ofOptions p).solve o (cs.map (·.translate (.rename ρ hρ)))
    y.diagnostics = x.diagnostics ∧
    (∀ w u, y.session.substitution.lookup w = some u ↔
      ∃ v t, w = ρ v ∧ u = t.subst (.var ∘ ρ) ∧ x.session.substitution.lookup v = some t) ∧
    ∀ vars : NodeMap TypeVar,
      y.session.resolve (vars.map fun _ v => ρ v) = x.session.resolve vars := by
  intro x y
  have hsolve := (translates_ofOptions (.rename ρ hρ) p p).solve (o := o) rfl cs
  have hlookup (v : TypeVar) : y.session.substitution.lookup (ρ v) =
      (x.session.substitution.lookup v).map (·.subst (.var ∘ ρ)) := by
    simp only [← Ty.translate_rename hρ]
    exact hsolve.session.substitution.lookup v
  refine ⟨?_, fun w u => ⟨fun hw => ?_, ?_⟩, hsolve.session.resolve_rename hρ⟩
  · have hfailures := hsolve.failures fun _ => rfl
    refine (map_eq_map_of_forall₂ (fun f f' hf => ?_) hfailures).symm
    rw [hf.eq_translate rfl, Failure.toDiagnostic_rename]
  · obtain ⟨v, rfl⟩ := hsolve.session.substitution.named hw
    rw [Translation.rename_var, hlookup, Option.map_eq_some_iff] at hw
    obtain ⟨t, ht, rfl⟩ := hw
    exact ⟨v, t, rfl, rfl, ht⟩
  · rintro ⟨v, t, rfl, rfl, ht⟩
    rw [hlookup, ht]
    rfl

/-- All variables are moved on by seven. The notes on a choice that nothing fits
still call the first variable they show `a`. -/
theorem ofOptions_solve_renamed_moved :
    let n : NodeId := ⟨0⟩
    let eqn (s t : Ty) : Equation := ⟨s, t, n, .exprType⟩
    let cs : List Constraint :=
      [.equal (eqn (.var ⟨0⟩) (.set (.var ⟨1⟩) (.single ⟨1⟩))), .equal (eqn (.var ⟨1⟩) (.var ⟨0⟩)),
        .oneOf ⟨[[eqn (.var ⟨0⟩) (.int n)], [eqn (.var ⟨0⟩) (.tuple [] .none)]], ⟨2⟩, .identity⟩]
    let ρ : TypeVar → TypeVar := fun v => ⟨v.index + 7⟩
    ∃ hρ : Function.Injective ρ,
      ((ofOptions {}).solve {} (cs.map (·.translate (.rename ρ hρ)))).diagnostics.map (·.labels) =
        [[], [⟨⟨1⟩, "conflicting type `Set(a)` inferred here"⟩,
          ⟨n, "candidate generated here"⟩]] := by
  intro n eqn cs ρ
  have hρ : Function.Injective ρ := by
    intro v w h
    cases v
    cases w
    simp_all [ρ]
  refine ⟨hρ, ?_⟩
  rw [(ofOptions_solve_renamed {} {} hρ cs).1, Solution.diagnostics, List.map_map]
  change ((ofOptions {}).solve {} cs).failures.map Failure.notes = _
  cbv

end Session

end PlusCalTyping
