import PlusCalTyping.Proofs.Solver.Trials

/-! # Solving a list again

Where a list has been solved without failures, every choice is settled: one of
its candidates holds, and none of those before it can hold any more. Bindings
that are added later do not change that. So when the list is solved again, the
first candidate that fits is the one that holds already, whether it is now
forced or taken by default, and nothing is left to bind (`solve_again`).
-/

namespace PlusCalTyping

namespace Substitution

variable {σ τ : Substitution} {c : Choice}

/-- Some candidate of the choice holds, and no earlier one can. -/
def Settles (σ : Substitution) (c : Choice) : Prop :=
  ∃ (i : Nat) (es : List Equation), c.candidates[i]? = some es ∧ (∀ e ∈ es, σ.Solves e) ∧
    ∀ j < i, ∀ es', c.candidates[j]? = some es' → ¬σ.Allows es'

theorem Settles.mono (h : σ.Settles c) (hτ : τ.Acyclic) (hle : σ ≤ τ) : τ.Settles c := by
  obtain ⟨i, es, hi, hsolves, hearlier⟩ := h
  refine ⟨i, es, hi, fun e he => (hsolves e he).mono hτ hle, fun j hj es' hes' hallows => ?_⟩
  exact hearlier j hj es' hes' (hallows.mono hle)

theorem unify_of_solves {e : Equation} (h : σ.Solves e) :
    σ.unify e.expected e.actual = [⟨σ.apply e.expected, σ.apply e.actual, .identical⟩] := by
  have hagrees : (σ.apply e.expected).agrees (σ.apply e.actual) = true := h
  rw [unify, Unify.run]
  simp only [Outcome.ofPair, if_pos hagrees, Unify.remaining, Unify.run]

end Substitution

namespace Session

variable {s t u : Session} {c : Choice} {cs : List Choice} {es : List Equation} {i : Nat}
  {more : List Nat}

/-! ## The first time -/

theorem Coherent.extends_decideFirst (hs : s.Coherent) (hc : c.Determined) :
    s.Extends (s.decideFirst c) := by
  unfold decideFirst
  cases s.viable c with
  | nil => exact extends_reportExhausted hs c
  | cons i more => exact hs.extends_commit hc .defaultAlternative i

theorem Coherent.extends_pass (hs : s.Coherent) (hcs : ∀ c ∈ cs, c.Determined) :
    s.Extends (s.pass cs).2 := by
  induction cs generalizing s with
  | nil => exact hs.extends_refl
  | cons c cs ih =>
    obtain ⟨hc, hcs⟩ := List.forall_mem_cons.mp hcs
    match hfound : s.viable c with
    | [] =>
      rw [pass_of_exhausted hfound]
      have hfirst := extends_reportExhausted hs c
      exact hfirst.trans (ih hfirst.coherent hcs)
    | [i] =>
      rw [pass_of_forced hfound]
      have hfirst := hs.extends_commit hc .commitAlternative i
      exact hfirst.trans (ih hfirst.coherent hcs)
    | i :: j :: more =>
      rw [pass_of_open hfound]
      exact ih hs hcs

theorem Coherent.extends_settle (hs : s.Coherent) (hcs : ∀ c ∈ cs, c.Determined) :
    s.Extends (s.settle cs) := by
  induction s, cs using settle.induct with
  | case1 s =>
    rw [settle_nil]
    exact hs.extends_refl
  | case2 s c cs p hlt ih =>
    have hpass := hs.extends_pass hcs
    rw [← settle_pass]
    exact hpass.trans
      (ih hpass.coherent fun c' hc' => hcs c' ((s.sublist_pass (c :: cs)).subset hc'))
  | case3 s c cs p hlt ih =>
    obtain ⟨hc, hcs⟩ := List.forall_mem_cons.mp hcs
    have hfirst := hs.extends_decideFirst hc
    rw [settle_of_idle (pass_eq_self (Nat.not_lt.mp hlt))]
    exact hfirst.trans (ih hfirst.coherent hcs)

/-- A commit to the first candidate that fits settles the choice. -/
theorem Coherent.settles_commit (hs : s.Coherent) (hc : c.Determined) (action : UnifyAction)
    (h : s.viable c = i :: more) : (s.commit action c i).substitution.Settles c := by
  have hi := mem_viable_of_eq_cons h
  have hext := hs.extends_commit hc action i
  obtain ⟨es, hes, _⟩ := Session.mem_viable_iff.mp hi
  refine ⟨i, es, hes, hs.solves_commit hc action hi hes, fun j hj es' hes' hallows => ?_⟩
  have hj' : j ∈ s.viable c := (hs.mem_viable_iff hc).mpr ⟨es', hes', hallows.mono hext.le⟩
  exact absurd (le_of_mem_viable h j hj') (Nat.not_le.mpr hj)

/-- A pass after which nothing has failed settles the choices that do not wait. -/
theorem Coherent.settles_pass (hs : s.Coherent) (hcs : ∀ c ∈ cs, c.Determined)
    (hclean : (s.pass cs).2.failures = #[]) :
    ∀ c ∈ cs, c ∈ (s.pass cs).1 ∨ (s.pass cs).2.substitution.Settles c := by
  induction cs generalizing s with
  | nil => exact List.forall_mem_nil _
  | cons c cs ih =>
    obtain ⟨hc, hcs⟩ := List.forall_mem_cons.mp hcs
    match hfound : s.viable c with
    | [] =>
      rw [pass_of_exhausted hfound] at hclean
      have hrest := (extends_reportExhausted hs c).coherent.extends_pass hcs
      exact absurd (hrest.clean hclean) (failures_reportExhausted_ne s c)
    | [i] =>
      rw [pass_of_forced hfound] at hclean ⊢
      have hfirst := (hs.extends_commit hc .commitAlternative i).coherent
      have hrest := hfirst.extends_pass hcs
      have hsettles := hs.settles_commit hc .commitAlternative hfound
      exact List.forall_mem_cons.mpr
        ⟨.inr (hsettles.mono hrest.coherent.acyclic hrest.le), ih hfirst hcs hclean⟩
    | i :: j :: more =>
      rw [pass_of_open hfound] at hclean ⊢
      exact List.forall_mem_cons.mpr ⟨.inl List.mem_cons_self,
        fun c' hc' => (ih hs hcs hclean c' hc').imp_left (List.mem_cons_of_mem c)⟩

theorem Coherent.settles_decideFirst (hs : s.Coherent) (hc : c.Determined)
    (hclean : (s.decideFirst c).failures = #[]) : (s.decideFirst c).substitution.Settles c := by
  unfold decideFirst at hclean ⊢
  cases hfound : s.viable c with
  | nil =>
    rw [hfound] at hclean
    exact absurd hclean (failures_reportExhausted_ne s c)
  | cons i more => exact hs.settles_commit hc .defaultAlternative hfound

/-- In the end every choice is settled, or something has failed. -/
theorem Coherent.settles_settle (hs : s.Coherent) (hcs : ∀ c ∈ cs, c.Determined)
    (hclean : (s.settle cs).failures = #[]) : ∀ c ∈ cs, (s.settle cs).substitution.Settles c := by
  induction s, cs using settle.induct with
  | case1 s => exact List.forall_mem_nil _
  | case2 s c cs p hlt ih =>
    have hpass := hs.extends_pass hcs
    have hwaiting : ∀ c' ∈ p.1, c'.Determined :=
      fun c' hc' => hcs c' ((s.sublist_pass (c :: cs)).subset hc')
    have hrest := hpass.coherent.extends_settle hwaiting
    rw [← settle_pass] at hclean ⊢
    have hdecided := hs.settles_pass hcs (hrest.clean hclean)
    refine fun c' hc' => (hdecided c' hc').elim (ih hpass.coherent hwaiting hclean c') ?_
    exact fun h => h.mono hrest.coherent.acyclic hrest.le
  | case3 s c cs p hlt ih =>
    obtain ⟨hc, hcs⟩ := List.forall_mem_cons.mp hcs
    have hfirst := hs.extends_decideFirst hc
    have hrest := hfirst.coherent.extends_settle hcs
    rw [settle_of_idle (pass_eq_self (Nat.not_lt.mp hlt))] at hclean ⊢
    have hsettles := hs.settles_decideFirst hc (hrest.clean hclean)
    exact List.forall_mem_cons.mpr ⟨hsettles.mono hrest.coherent.acyclic hrest.le,
      ih hfirst.coherent hcs hclean⟩

/-! ## The second time -/

/-- Nothing is bound and nothing has failed in between. -/
def Idles (s t : Session) : Prop := t.substitution = s.substitution ∧ t.failures = s.failures

theorem Idles.trans (h : s.Idles t) (h' : t.Idles u) : s.Idles u :=
  ⟨h'.1.trans h.1, h'.2.trans h.2⟩

theorem Idles.coherent (h : s.Idles t) (hs : s.Coherent) : t.Coherent := by
  constructor
  · rw [h.1]
    exact hs.acyclic
  · rw [h.1]
    exact hs.determined

theorem idles_unify {e : Equation} (h : s.substitution.Solves e) : s.Idles (s.unify e) := by
  have hevents := Substitution.unify_of_solves h
  constructor
  · rw [substitution_unify, hevents]
    rfl
  · exact failures_unify (by rw [hevents]; rfl)

theorem idles_foldl_unify (h : ∀ e ∈ es, s.substitution.Solves e) :
    s.Idles (es.foldl unify s) := by
  induction es generalizing s with
  | nil => exact ⟨rfl, rfl⟩
  | cons e es ih =>
    obtain ⟨he, hes⟩ := List.forall_mem_cons.mp h
    have hfirst := idles_unify he
    refine hfirst.trans (ih ?_)
    rw [hfirst.1]
    exact hes

theorem idles_commit (action : UnifyAction) (hi : c.candidates[i]? = some es)
    (h : ∀ e ∈ es, s.substitution.Solves e) : s.Idles (s.commit action c i) := by
  rw [commit_eq action hi]
  have hlog : s.Idles (s.log fun _ => [c.commitLine action i es]) :=
    ⟨substitution_log s _, failures_log s _⟩
  refine hlog.trans (idles_foldl_unify ?_)
  rw [hlog.1]
  exact h

/-- The first candidate that fits a settled choice holds already. -/
theorem Coherent.exists_viable_of_settles (hs : s.Coherent) (hc : c.Determined)
    (h : s.substitution.Settles c) :
    ∃ i more, s.viable c = i :: more ∧ ∀ action, s.Idles (s.commit action c i) := by
  obtain ⟨i, es, hi, hsolves, hearlier⟩ := h
  have hmem : i ∈ s.viable c :=
    (hs.mem_viable_iff hc).mpr ⟨es, hi, Substitution.allows_of_solves hs.acyclic hsolves⟩
  cases hfound : s.viable c with
  | nil =>
    rw [hfound] at hmem
    cases hmem
  | cons j more =>
    have hj := mem_viable_of_eq_cons hfound
    obtain ⟨es', hes', hallows⟩ := (hs.mem_viable_iff hc).mp hj
    have hle : j ≤ i := le_of_mem_viable hfound i hmem
    have hge : i ≤ j := Nat.not_lt.mp fun hlt => hearlier j hlt es' hes' hallows
    rw [Nat.le_antisymm hle hge]
    exact ⟨i, more, rfl, fun action => idles_commit action hi hsolves⟩

theorem Coherent.idles_decideFirst (hs : s.Coherent) (hc : c.Determined)
    (h : s.substitution.Settles c) : s.Idles (s.decideFirst c) := by
  obtain ⟨i, more, hfound, hcommit⟩ := hs.exists_viable_of_settles hc h
  rw [decideFirst, hfound]
  exact hcommit .defaultAlternative

theorem Coherent.idles_pass (hs : s.Coherent) (hcs : ∀ c ∈ cs, c.Determined)
    (h : ∀ c ∈ cs, s.substitution.Settles c) : s.Idles (s.pass cs).2 := by
  induction cs generalizing s with
  | nil => exact ⟨rfl, rfl⟩
  | cons c cs ih =>
    obtain ⟨hc, hcs⟩ := List.forall_mem_cons.mp hcs
    obtain ⟨hsettles, hrest⟩ := List.forall_mem_cons.mp h
    obtain ⟨i, more, hfound, hcommit⟩ := hs.exists_viable_of_settles hc hsettles
    cases more with
    | nil =>
      have hfirst := hcommit .commitAlternative
      rw [pass_of_forced hfound]
      refine hfirst.trans (ih (hfirst.coherent hs) hcs ?_)
      rw [hfirst.1]
      exact hrest
    | cons j more =>
      rw [pass_of_open hfound]
      exact ih hs hcs hrest

theorem Coherent.idles_settle (hs : s.Coherent) (hcs : ∀ c ∈ cs, c.Determined)
    (h : ∀ c ∈ cs, s.substitution.Settles c) : s.Idles (s.settle cs) := by
  induction s, cs using settle.induct with
  | case1 s =>
    rw [settle_nil]
    exact ⟨rfl, rfl⟩
  | case2 s c cs p hlt ih =>
    have hpass := hs.idles_pass hcs h
    have hsub := (s.sublist_pass (c :: cs)).subset
    rw [← settle_pass]
    refine hpass.trans (ih (hpass.coherent hs) (fun c' hc' => hcs c' (hsub hc')) fun c' hc' => ?_)
    rw [hpass.1]
    exact h c' (hsub hc')
  | case3 s c cs p hlt ih =>
    obtain ⟨hc, hcs⟩ := List.forall_mem_cons.mp hcs
    obtain ⟨hsettles, hrest⟩ := List.forall_mem_cons.mp h
    have hfirst := hs.idles_decideFirst hc hsettles
    rw [settle_of_idle (pass_eq_self (Nat.not_lt.mp hlt))]
    refine hfirst.trans (ih (hfirst.coherent hs) hcs ?_)
    rw [hfirst.1]
    exact hrest

/-! ## Both times -/

/-- All failures are handed over. -/
theorem failures_solve (s : Session) (o : Options) (ks : List Constraint) :
    (s.solve o ks).session.failures = #[] := by
  unfold solve
  split <;> rfl

/-- Constraints that were solved without failures are solved again without
failures and without new bindings, unless the budget runs out. -/
theorem ofOptions_solve_again (o o₁ o₂ : Options) {calls : List Call}
    (hcalls : ∀ c ∈ calls, c.Determined) {ks : List Constraint} (hks : ∀ k ∈ ks, k.Determined) :
    let s := (ofOptions o).after calls
    let t := (s.solve o₁ ks).session
    (s.solve o₁ ks).failures = [] → (t.solve o₂ ks).Unstopped →
      (t.solve o₂ ks).failures = [] ∧ (t.solve o₂ ks).session.substitution = t.substitution := by
  intro s t hok hunstopped
  obtain ⟨hs, _⟩ := (coherent_ofOptions o).after hcalls
  have hsolved := hs.solved (o := o₁) hks
  have hequations : ∀ e ∈ Solving.equations ks, t.substitution.Solves e := by
    intro e he
    have hvalue := hsolved.satisfies hok _ (Valuation.models_value hsolved.coherent.acyclic)
    exact Substitution.solves_value_iff.mp (hvalue _ (Solving.mem_equations_iff.mp he))
  have hchoices : ∀ c ∈ Solving.choices ks, t.substitution.Settles c := by
    have hfirst : (s.solve o₁ ks).Unstopped := by
      rw [Solution.Unstopped, hok]
      exact List.forall_mem_nil _
    have hrun := solve_eq_of_unstopped hfirst
    simp only [t, hrun] at hok ⊢
    have hv := (hs.constrain ks).extends_foldl_unify (Solving.determined_equations hks)
    exact hv.coherent.settles_settle (Solving.determined_choices hks)
      (Array.toList_eq_nil_iff.mp hok)
  have hidles : (t.constrain ks).Idles (t.completed ks) := by
    have hfirst := idles_foldl_unify (s := t.constrain ks) hequations
    refine hfirst.trans ?_
    refine (hfirst.coherent (hsolved.coherent.constrain ks)).idles_settle
      (Solving.determined_choices hks) ?_
    rw [hfirst.1]
    exact hchoices
  rw [solve_eq_of_unstopped hunstopped]
  refine ⟨Array.toList_eq_nil_iff.mpr (hidles.2.trans ?_), hidles.1⟩
  exact failures_solve s o₁ ks

/-- After a call that failed, a set of one variable is taken by default where a
set of another one would do as well. Both candidates still fit the second time,
and the second one would bind a variable. -/
theorem ofOptions_solve_again_ambiguous :
    let n : NodeId := ⟨0⟩
    let x : Ty := .var ⟨0⟩
    let eqn (s t : Ty) : Equation := ⟨s, t, n, .exprType⟩
    let c : Choice := ⟨[[eqn x (.set (.var ⟨1⟩) .none)], [eqn x (.set (.var ⟨2⟩) .none)]],
      n, .identity⟩
    let failed : Call := ⟨{}, [.equal (eqn (.int n) (.bool n))]⟩
    let s := (ofOptions {}).after [failed]
    let t := (s.solve {} [.oneOf c]).session
    (s.solve {} [.oneOf c]).failures = [] ∧ t.viable c = [0, 1] ∧
    (t.solve {} [.oneOf c]).failures = [] ∧
    (t.solve {} [.oneOf c]).session.substitution = t.substitution := by
  intro n x eqn c failed s t
  have hok : (s.solve {} [.oneOf c]).failures = [] := by
    simp only [s, failed, c, eqn, x, n]
    cbv
  have hviable : t.viable c = [0, 1] := by
    simp only [t, s, failed, c, eqn, x, n]
    cbv
  have hunstopped : (t.solve {} [.oneOf c]).Unstopped := by
    apply of_decide_eq_true
    simp only [t, s, failed, c, eqn, x, n]
    cbv
  have hcalls : ∀ call ∈ [failed], call.Determined := by decide
  exact ⟨hok, hviable, ofOptions_solve_again {} {} {} hcalls (by decide) hok hunstopped⟩

end Session

end PlusCalTyping
