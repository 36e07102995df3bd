import PlusCalTyping.Proofs.Solver.Repetition
import PlusCalTyping.Proofs.Solver.Truncation

/-! # Exhausted choices

A choice that nothing fits is reported at its node, unless something at that
node has failed already. Equations are tried before choices, and a commit
repeats a trial that succeeded, so after the first report nothing fails any more
but choices. A report therefore has its node to itself among all failures of the
list (`Session.Gathers`). A report that is left out is made up for by the failure
that stands at the node, so in the end every choice is satisfied or answered by a
failure (`Session.Coherent.answers_settle`).
-/

namespace PlusCalTyping

namespace Failure

/-- Failures at different nodes, where one of them is an exhausted choice. -/
def Apart (f g : Failure) : Prop :=
  f.category = .alternativeExhausted ∨ g.category = .alternativeExhausted → f.node ≠ g.node

instance : Std.Symm Apart := ⟨fun _ _ h hex => (h hex.symm).symm⟩

theorem category_ne_of_event {p : Provenance} {e : UnifyEvent} {f : Failure}
    (h : ofEvent? p e = some f) : f.category ≠ .alternativeExhausted := by
  unfold ofEvent? at h
  split at h <;> cases h <;> exact nofun

end Failure

namespace Session

variable {s t u : Session} {c : Choice} {cs : List Choice} {i : Nat}

/-! ## Failures of equations -/

theorem category_ne_of_mem_foldl_unify (es : List Equation)
    (h : ∀ f ∈ s.failures, f.category ≠ .alternativeExhausted) :
    ∀ f ∈ (es.foldl unify s).failures, f.category ≠ .alternativeExhausted := by
  induction es generalizing s with
  | nil => exact h
  | cons e es ih =>
    refine ih fun f hf => ?_
    rcases Array.mem_append.mp hf with hf | hf
    · exact h f hf
    · obtain ⟨event, _, hevent⟩ := List.mem_filterMap.mp (List.mem_toArray.mp hf)
      exact Failure.category_ne_of_event hevent

/-! ## Failures of choices -/

/-- The failures of the second session are those of the first and further ones.
If exhausted choices have their nodes to themselves in the first, they have in
the second. -/
structure Gathers (s t : Session) : Prop where
  failures : s.failures.toList <+: t.failures.toList
  apart : s.failures.toList.Pairwise Failure.Apart → t.failures.toList.Pairwise Failure.Apart

theorem gathers_of_eq (h : t.failures = s.failures) : s.Gathers t := by
  constructor
  · rw [h]
  · rw [h]
    exact id

theorem Gathers.trans (h : s.Gathers t) (h' : t.Gathers u) : s.Gathers u :=
  ⟨h.failures.trans h'.failures, h'.apart ∘ h.apart⟩

theorem Gathers.clean (h : s.Gathers t) (ht : t.failures = #[]) : s.failures = #[] := by
  have hprefix := h.failures
  rw [ht] at hprefix
  exact Array.toList_eq_nil_iff.mp (List.prefix_nil.mp hprefix)

theorem gathers_reportExhausted (s : Session) (c : Choice) :
    s.Gathers (s.reportExhausted c) := by
  unfold reportExhausted
  split
  · exact gathers_of_eq rfl
  · next hnew =>
    refine ⟨(continues_fail s _).failures, fun hs => ?_⟩
    rw [fail, Array.toList_push]
    refine List.pairwise_append.mpr ⟨hs, List.pairwise_singleton _ _, fun f hf g hg _ hnode => ?_⟩
    rw [List.mem_singleton.mp hg] at hnode
    refine hnew (Array.any_eq_true'.mpr ⟨f, Array.mem_toList_iff.mp hf, ?_⟩)
    exact decide_eq_true hnode

theorem gathers_commit (action : UnifyAction) (h : i ∈ s.viable c) :
    s.Gathers (s.commit action c i) := gathers_of_eq (failures_commit action h)

theorem gathers_decideFirst (s : Session) (c : Choice) : s.Gathers (s.decideFirst c) := by
  unfold decideFirst
  cases hfound : s.viable c with
  | nil => exact gathers_reportExhausted s c
  | cons i more => exact gathers_commit _ (mem_viable_of_eq_cons hfound)

theorem gathers_pass (s : Session) (cs : List Choice) : s.Gathers (s.pass cs).2 := by
  induction cs generalizing s with
  | nil => exact gathers_of_eq rfl
  | cons c cs ih =>
    match hfound : s.viable c with
    | [] =>
      rw [pass_of_exhausted hfound]
      exact (gathers_reportExhausted s c).trans (ih _)
    | [i] =>
      rw [pass_of_forced hfound]
      exact (gathers_commit _ (mem_viable_of_eq_cons hfound)).trans (ih _)
    | i :: j :: more =>
      rw [pass_of_open hfound]
      exact ih s

theorem gathers_settle (s : Session) (cs : List Choice) : s.Gathers (s.settle cs) := by
  induction s, cs using settle.induct with
  | case1 s =>
    rw [settle_nil]
    exact gathers_of_eq rfl
  | case2 s c cs p hlt ih =>
    rw [← settle_pass]
    exact (gathers_pass s (c :: cs)).trans ih
  | case3 s c cs p hlt ih =>
    rw [settle_of_idle (pass_eq_self (Nat.not_lt.mp hlt))]
    exact (gathers_decideFirst s c).trans ih

/-! ## Answers to choices -/

/-- The choice is satisfied, or something has failed at its node. -/
def Answers (s : Session) (c : Choice) : Prop :=
  s.substitution.Satisfies (.oneOf c) ∨ ∃ f ∈ s.failures, f.node = c.provenance.node

theorem Answers.mono (h : s.Answers c) (hext : s.Extends t) (hgathers : s.Gathers t) :
    t.Answers c := by
  rcases h with ⟨candidate, hmem, hsolves⟩ | ⟨f, hf, hnode⟩
  · exact .inl ⟨candidate, hmem, fun e he => (hsolves e he).mono hext.coherent.acyclic hext.le⟩
  · have hf' := hgathers.failures.subset (Array.mem_toList_iff.mpr hf)
    exact .inr ⟨f, Array.mem_toList_iff.mp hf', hnode⟩

theorem answers_reportExhausted (s : Session) (c : Choice) : (s.reportExhausted c).Answers c := by
  right
  unfold reportExhausted
  split
  · next hold =>
    obtain ⟨f, hf, hnode⟩ := Array.any_eq_true'.mp hold
    exact ⟨f, hf, of_decide_eq_true hnode⟩
  · exact ⟨_, Array.mem_push_self, rfl⟩

theorem Coherent.answers_commit (hs : s.Coherent) (hc : c.Determined) (action : UnifyAction)
    (h : i ∈ s.viable c) : (s.commit action c i).Answers c := by
  obtain ⟨candidate, hi, _⟩ := Session.mem_viable_iff.mp h
  exact .inl ⟨candidate, List.mem_of_getElem? hi, hs.solves_commit hc action h hi⟩

theorem Coherent.answers_decideFirst (hs : s.Coherent) (hc : c.Determined) :
    (s.decideFirst c).Answers c := by
  unfold decideFirst
  cases hfound : s.viable c with
  | nil => exact answers_reportExhausted s c
  | cons i more => exact hs.answers_commit hc _ (mem_viable_of_eq_cons hfound)

/-- A pass answers the choices that do not wait. -/
theorem Coherent.answers_pass (hs : s.Coherent) (hcs : ∀ c ∈ cs, c.Determined) :
    ∀ c ∈ cs, c ∈ (s.pass cs).1 ∨ (s.pass cs).2.Answers c := by
  induction cs generalizing s with
  | nil => exact List.forall_mem_nil _
  | cons c cs ih =>
    obtain ⟨hc, hcs⟩ := List.forall_mem_cons.mp hcs
    match hfound : s.viable c with
    | [] =>
      rw [pass_of_exhausted hfound]
      have hfirst := (extends_reportExhausted hs c).coherent
      have hanswers := (answers_reportExhausted s c).mono (hfirst.extends_pass hcs)
        (gathers_pass _ cs)
      exact List.forall_mem_cons.mpr ⟨.inr hanswers, ih hfirst hcs⟩
    | [i] =>
      rw [pass_of_forced hfound]
      have hfirst := (hs.extends_commit hc .commitAlternative i).coherent
      have hanswers := (hs.answers_commit hc .commitAlternative
        (mem_viable_of_eq_cons hfound)).mono (hfirst.extends_pass hcs) (gathers_pass _ cs)
      exact List.forall_mem_cons.mpr ⟨.inr hanswers, ih hfirst hcs⟩
    | i :: j :: more =>
      rw [pass_of_open hfound]
      exact List.forall_mem_cons.mpr ⟨.inl List.mem_cons_self,
        fun c' hc' => (ih hs hcs c' hc').imp_left (List.mem_cons_of_mem c)⟩

/-- In the end every choice is answered, also where something has failed. -/
theorem Coherent.answers_settle (hs : s.Coherent) (hcs : ∀ c ∈ cs, c.Determined) :
    ∀ c ∈ cs, (s.settle cs).Answers c := by
  induction s, cs using settle.induct with
  | case1 s => exact List.forall_mem_nil _
  | case2 s c cs p hlt ih =>
    have hpass := (hs.extends_pass hcs).coherent
    have hwaiting : ∀ c' ∈ p.1, c'.Determined :=
      fun c' hc' => hcs c' ((s.sublist_pass (c :: cs)).subset hc')
    rw [← settle_pass]
    refine fun c' hc' => (hs.answers_pass hcs c' hc').elim (ih hpass hwaiting c') fun hanswers => ?_
    exact hanswers.mono (hpass.extends_settle hwaiting) (gathers_settle _ _)
  | case3 s c cs p hlt ih =>
    obtain ⟨hc, hcs⟩ := List.forall_mem_cons.mp hcs
    have hfirst := (hs.extends_decideFirst hc).coherent
    have hanswers := (hs.answers_decideFirst hc).mono (hfirst.extends_settle hcs)
      (gathers_settle _ cs)
    rw [settle_of_idle (pass_eq_self (Nat.not_lt.mp hlt))]
    exact List.forall_mem_cons.mpr ⟨hanswers, ih hfirst hcs⟩

/-! ## Whole lists -/

theorem pairwise_apart_completed (hs : s.failures = #[]) (ks : List Constraint) :
    (s.completed ks).failures.toList.Pairwise Failure.Apart := by
  refine (gathers_settle _ _).apart (List.pairwise_of_forall_mem_list fun f hf g hg hex => ?_)
  have hnone := category_ne_of_mem_foldl_unify (s := s.constrain ks) (Solving.equations ks)
    fun f hf => absurd hf (by simp [constrain, hs])
  exact absurd hex (not_or.mpr
    ⟨hnone f (Array.mem_toList_iff.mp hf), hnone g (Array.mem_toList_iff.mp hg)⟩)

theorem Coherent.answers_completed (hs : s.Coherent) {ks : List Constraint}
    (hks : ∀ k ∈ ks, k.Determined) (hc : .oneOf c ∈ ks) : (s.completed ks).Answers c := by
  have hfirst := (hs.constrain ks).extends_foldl_unify (Solving.determined_equations hks)
  exact hfirst.coherent.answers_settle (Solving.determined_choices hks) c
    (Solving.mem_choices_iff.mpr hc)

/-- If the budget lasts, every choice is satisfied in the end or something is
reported at its node. Reports of exhausted choices are at different nodes, and
nothing else is reported there. -/
theorem ofOptions_solve_exhausted (o : Options) (calls : List Call) (call : Call)
    (hdet : ∀ c ∈ calls ++ [call], c.Determined) :
    let x := ((ofOptions o).after calls).answer call
    (∀ d ∈ x.diagnostics, d.category ≠ .solverBudget) →
      (∀ c, .oneOf c ∈ call.constraints → x.session.substitution.Satisfies (.oneOf c) ∨
        ∃ d ∈ x.diagnostics, d.location = some c.provenance.node) ∧
      ((x.diagnostics.filter (·.category = .alternativeExhausted)).map (·.location)).Nodup ∧
      ∀ d ∈ x.diagnostics, ∀ d' ∈ x.diagnostics, d.category = .alternativeExhausted →
        d'.category ∈ [Category.typeMismatch, .arityMismatch, .infiniteType] →
          d.location ≠ d'.location := by
  intro x hlasts
  obtain ⟨hcalls, hcall⟩ := List.forall_mem_append.mp hdet
  have hcall := hcall call (List.mem_singleton_self call)
  obtain ⟨hs, _⟩ := (coherent_ofOptions o).after hcalls
  have hx : x = .ofSession (((ofOptions o).after calls).completed call.constraints) :=
    solve_eq_of_unstopped fun f hf => hlasts _ (List.mem_map_of_mem hf)
  have hapart : x.failures.Pairwise Failure.Apart := by
    rw [hx]
    exact pairwise_apart_completed (failures_after rfl calls) call.constraints
  refine ⟨fun c hc => ?_, ?_, fun d hd d' hd' hex hother hlocation => ?_⟩
  · rw [hx]
    refine (hs.answers_completed hcall hc).imp_right ?_
    rintro ⟨f, hf, hnode⟩
    exact ⟨f.toDiagnostic, List.mem_map_of_mem (Array.mem_toList_iff.mpr hf), congrArg some hnode⟩
  · rw [List.Nodup, List.pairwise_map, List.pairwise_filter, Solution.diagnostics,
      List.pairwise_map]
    exact hapart.imp fun h hex _ hlocation =>
      h (.inl (of_decide_eq_true hex)) (Option.some.inj hlocation)
  · obtain ⟨f, hf, rfl⟩ := List.mem_map.mp hd
    obtain ⟨g, hg, rfl⟩ := List.mem_map.mp hd'
    have hne : f ≠ g := by
      rintro rfl
      rw [hex] at hother
      exact absurd hother (by decide)
    exact hapart.forall hf hg hne (.inl hex) (Option.some.inj hlocation)

/-- The variable is an integer since an earlier call. Nothing fits three of the
choices: at the node of the first an equation has failed, and the last one is at
the node of the one before. The choice between them is satisfied. -/
theorem ofOptions_solve_exhausted_suppressed :
    let n (i : Nat) : NodeId := ⟨i⟩
    let v : Ty := .var ⟨0⟩
    let eqn (i : Nat) (s t : Ty) : Equation := ⟨s, t, n i, .exprType⟩
    let choice (i : Nat) (ts : List Ty) : Choice := ⟨ts.map fun t => [eqn i v t], n i, .identity⟩
    let earlier : Call := ⟨{}, [.equal (eqn 0 v (.int (n 0)))]⟩
    let cs := [choice 1 [.bool (n 1), .string (n 1)], choice 2 [.string (n 2)],
      choice 3 [.bool (n 3), .int (n 3)], choice 2 [.bool (n 2)]]
    let call : Call := ⟨{}, .equal (eqn 1 v (.bool (n 1))) :: cs.map .oneOf⟩
    let x := ((ofOptions {}).after [earlier]).answer call
    (x.diagnostics.map fun d => (d.category, d.location)) =
      [(.typeMismatch, some (n 1)), (.alternativeExhausted, some (n 2))] ∧
    ∀ c ∈ cs, x.session.substitution.Satisfies (.oneOf c) ∨
      ∃ d ∈ x.diagnostics, d.location = some c.provenance.node := by
  intro n v eqn choice earlier cs call x
  have hfailures : (x.failures.map fun f => (f.category, some f.node)) =
      [(.typeMismatch, some (n 1)), (.alternativeExhausted, some (n 2))] := by
    simp only [x, call, cs, earlier, choice, eqn, v, n]
    cbv
  have hcategories : (x.diagnostics.map fun d => (d.category, d.location)) =
      [(.typeMismatch, some (n 1)), (.alternativeExhausted, some (n 2))] := by
    rw [← hfailures, Solution.diagnostics, List.map_map]
    rfl
  refine ⟨hcategories, fun c hc => ?_⟩
  refine (ofOptions_solve_exhausted {} [earlier] call (by decide) fun d hd hbudget => ?_).1 c
    (List.mem_cons_of_mem _ (List.mem_map_of_mem hc))
  have hmem := List.mem_map_of_mem (f := fun d => (d.category, d.location)) hd
  rw [hcategories, hbudget] at hmem
  simp at hmem

end Session

end PlusCalTyping
