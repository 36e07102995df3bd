import PlusCalTyping.Proofs.Solver.Charges
import PlusCalTyping.Proofs.Solver.Exhaustion
import PlusCalTyping.Proofs.Solver.Forced

/-! # What a trace accounts for

A traced session writes a line for all that it does. A line of a binding is
written before it is known whether the type would be infinite, and the line of a
prevented binding follows where it would. So the bindings of a session are as many
as the lines of bindings that are not followed by one of these, and the other
lines tell of the failures in the same way (`Session.Accounts`). This is kept by
every step of a run, also of one that the budget stops. Trials leave no lines, and
a run without failures leaves one line of a decision for each of its choices
(`Session.exists_recorded_settle`).
-/

namespace PlusCalTyping

/-! ## Lines of events -/

/-- An action by which a choice is decided. -/
def UnifyAction.Deciding (a : UnifyAction) : Prop :=
  a = .commitAlternative ∨ a = .defaultAlternative

instance : DecidablePred UnifyAction.Deciding :=
  fun a => inferInstanceAs (Decidable (a = .commitAlternative ∨ a = .defaultAlternative))

namespace Outcome

/-- What the lines of an event with this outcome are about. -/
def actions : Outcome → List UnifyAction
  | identical | absorbed => [.identity]
  | bind _ _ => [.bind]
  | infinite _ _ => [.bind, .occursCheck]
  | split _ => [.decompose]
  | clash _ => [.error]

theorem not_deciding_of_mem {o : Outcome} {a : UnifyAction} (h : a ∈ o.actions) :
    ¬a.Deciding := by
  rintro (rfl | rfl) <;> cases o <;> simp [actions] at h

def isBind : Outcome → Bool
  | bind _ _ => true
  | _ => false

end Outcome

namespace UnifyEvent

theorem map_action_lines (varPrefix : String) (e : UnifyEvent) :
    (e.lines varPrefix).map (·.action) = e.outcome.actions := by
  obtain ⟨s, t, o⟩ := e
  cases o <;> rfl

/-- The actions of the lines of some events. -/
def actions (events : List UnifyEvent) : List UnifyAction := events.flatMap (·.outcome.actions)

/-- The categories of the failures among some events. -/
def categories (p : Provenance) (events : List UnifyEvent) : List Category :=
  (events.filterMap (Failure.ofEvent? p)).map (·.category)

/-- Lines of bindings are those of bindings that are made and those of bindings
that are prevented. Every failure has its line. -/
theorem count_actions (p : Provenance) (events : List UnifyEvent) :
    (actions events).count .bind =
      (actions events).count .occursCheck + events.countP (·.outcome.isBind) ∧
    (actions events).count .occursCheck = (categories p events).count .infiniteType ∧
    (actions events).count .error =
      (categories p events).count .typeMismatch + (categories p events).count .arityMismatch := by
  induction events with
  | nil => exact ⟨rfl, rfl, rfl⟩
  | cons e events ih =>
    obtain ⟨hbind, hinfinite, herror⟩ := ih
    have hactions : actions (e :: events) = e.outcome.actions ++ actions events := rfl
    have hcategories : categories p (e :: events) =
        ((Failure.ofEvent? p e).map (·.category)).toList ++ categories p events := by
      cases h : Failure.ofEvent? p e <;> simp [categories, h]
    simp only [hactions, hcategories, List.count_append, List.countP_cons, hbind, hinfinite, herror]
    obtain ⟨s, t, o⟩ := e
    cases o with
    | clash c =>
      cases c <;> simp [Outcome.actions, Outcome.isBind, Failure.ofEvent?, Failure.category] <;>
        omega
    | _ => simp [Outcome.actions, Outcome.isBind, Failure.ofEvent?, Failure.category] <;> omega

end UnifyEvent

theorem Substitution.size_bind {σ : Substitution} {v : TypeVar} (h : σ.lookup v = none) (t : Ty) :
    (σ.bind v t).size = σ.size + 1 := by
  have hv : ¬σ.isBound v := by simp [isBound_eq, h]
  rw [size, bind, Std.TreeMap.size_insert]
  exact if_neg hv

namespace Unify

/-- Every binding that is made is of a variable that was unbound. -/
theorem size_extend_run (pairs : List (Ty × Ty)) : ∀ {σ : Substitution}, Fresh σ pairs →
    (extend σ (run pairs)).size = σ.size + (run pairs).countP (·.outcome.isBind) := by
  induction pairs using run.induct with
  | case1 =>
    intro σ _
    rw [run]
    rfl
  | case2 s t rest o =>
    rename_i ih
    intro σ h
    rw [run, List.countP_cons]
    cases ho : Outcome.ofPair s t with
    | bind v u =>
      obtain ⟨hvu, hv, hu⟩ := bind_mem ho
      simp only [o, ho] at ih
      refine (ih (h.tail.replaceAll hvu fun w hw => h.head w (hu hw))).trans ?_
      rw [Substitution.size_bind (h.head v hv), Nat.add_assoc, Nat.add_comm 1]
      rfl
    | split pairs =>
      simp only [o, ho] at ih
      exact ih (h.parts ho)
    | identical | infinite | absorbed | clash =>
      simp only [o, ho] at ih
      exact ih h.tail

end Unify

theorem Substitution.Acyclic.size_unify {σ : Substitution} (h : σ.Acyclic) (s t : Ty) :
    (Unify.extend σ (σ.unify s t)).size = σ.size + (σ.unify s t).countP (·.outcome.isBind) :=
  Unify.size_extend_run _ (Unify.fresh_apply h s t)

/-! ## Lines of a trace -/

theorem toUnifyLine_appendLines (trace : Array UnifyStep) (lines : List UnifyLine) :
    (appendLines trace lines).toList.map (·.toUnifyLine) =
      trace.toList.map (·.toUnifyLine) ++ lines := by
  induction lines generalizing trace with
  | nil => exact (List.append_nil _).symm
  | cons l lines ih =>
    refine (ih _).trans ?_
    rw [Array.toList_push, List.map_append, List.append_assoc]
    rfl

/-- The steps are numbered one by one, from one on. -/
def Numbered (trace : Array UnifyStep) : Prop :=
  trace.toList.map (·.step) = List.range' 1 trace.size

theorem Numbered.appendLines {trace : Array UnifyStep} (h : Numbered trace)
    (lines : List UnifyLine) : Numbered (appendLines trace lines) := by
  induction lines generalizing trace with
  | nil => exact h
  | cons l lines ih =>
    refine ih ?_
    rw [Numbered, Array.toList_push, List.map_append, h, Array.size_push, List.range'_concat,
      Nat.one_mul, Nat.add_comm 1]
    rfl

namespace Session

variable {s t u : Session}

/-- The lines of the trace, without their numbers. -/
def lines (s : Session) : List UnifyLine := s.trace.toList.map (·.toUnifyLine)

/-- What the steps of the trace were, in their order. -/
def actions (s : Session) : List UnifyAction := s.lines.map (·.action)

/-- The categories of the failures that are not handed over yet. -/
def categories (s : Session) : List Category := s.failures.toList.map (·.category)

theorem lines_log (hs : s.tracing) (ls : String → List UnifyLine) :
    (s.log ls).lines = s.lines ++ ls s.varPrefix := by
  rw [log, if_pos hs]
  exact toUnifyLine_appendLines _ _

theorem numbered_log (h : Numbered s.trace) (ls : String → List UnifyLine) :
    Numbered (s.log ls).trace := by
  unfold log
  split
  · exact h.appendLines _
  · exact h

theorem lines_unify (hs : s.tracing) (e : Equation) :
    (s.unify e).lines = s.lines ++
      (s.substitution.unify e.expected e.actual).flatMap (·.lines s.varPrefix) := lines_log hs _

theorem actions_unify (hs : s.tracing) (e : Equation) :
    (s.unify e).actions = s.actions ++
      UnifyEvent.actions (s.substitution.unify e.expected e.actual) := by
  rw [actions, lines_unify hs, List.map_append, List.map_flatMap]
  simp only [UnifyEvent.map_action_lines]
  rfl

theorem categories_unify (s : Session) (e : Equation) :
    (s.unify e).categories = s.categories ++
      UnifyEvent.categories e.provenance (s.substitution.unify e.expected e.actual) := by
  rw [categories, unify, absorb, Array.toList_append, List.map_append]
  rfl

/-! ## Accounts -/

/-- The trace of a session tells how many bindings there are, and how many
failures of each kind there have been. Some have been handed over already. -/
structure Accounts (handed : List Category) (s : Session) : Prop where
  tracing : s.tracing
  acyclic : s.substitution.Acyclic
  numbered : Numbered s.trace
  bindings : s.actions.count .bind = s.actions.count .occursCheck + s.substitution.size
  infinite : s.actions.count .occursCheck = (handed ++ s.categories).count .infiniteType
  errors : s.actions.count .error = (handed ++ s.categories).count .typeMismatch +
    (handed ++ s.categories).count .arityMismatch

variable {handed : List Category} {cs : List Constraint}

theorem accounts_ofOptions {o : Options} (h : o.tracing) : Accounts [] (ofOptions o) :=
  ⟨h, Substitution.acyclic_empty, rfl, rfl, rfl, rfl⟩

theorem Accounts.unify (h : s.Accounts handed) (e : Equation) : (s.unify e).Accounts handed := by
  obtain ⟨hbind, hinfinite, herror⟩ :=
    UnifyEvent.count_actions e.provenance (s.substitution.unify e.expected e.actual)
  have hbindings := h.bindings
  have hinfinites := h.infinite
  have herrors := h.errors
  have hsize := h.acyclic.size_unify e.expected e.actual
  refine ⟨(tracing_log s _).trans h.tracing,
    (h.acyclic.extends_unify e.expected e.actual).acyclic h.acyclic, numbered_log h.numbered _,
    ?_, ?_, ?_⟩
  · rw [actions_unify h.tracing, List.count_append, List.count_append, substitution_unify, hsize]
    omega
  · rw [actions_unify h.tracing, categories_unify, ← List.append_assoc, List.count_append,
      List.count_append, hinfinites, hinfinite]
  · rw [actions_unify h.tracing, categories_unify, ← List.append_assoc]
    simp only [List.count_append] at herrors ⊢
    omega

theorem Accounts.decide (h : s.Accounts handed) {action : UnifyAction} (ha : action.Deciding)
    (c : Choice) (i : Nat) (candidate : List Equation) :
    (s.log fun _ => [c.commitLine action i candidate]).Accounts handed := by
  have hactions : (s.log fun _ => [c.commitLine action i candidate]).actions =
      s.actions ++ [action] := by
    rw [actions, lines_log h.tracing, List.map_append]
    rfl
  have hcount (a : UnifyAction) (hne : action ≠ a) :
      (s.log fun _ => [c.commitLine action i candidate]).actions.count a = s.actions.count a := by
    rw [hactions, List.count_append, List.count_singleton, if_neg (by simpa using hne),
      Nat.add_zero]
  have hcategories : (s.log fun _ => [c.commitLine action i candidate]).categories =
      s.categories := by
    rw [categories, failures_log]
    rfl
  have hbind := hcount .bind (by rcases ha with rfl | rfl <;> decide)
  have hoccurs := hcount .occursCheck (by rcases ha with rfl | rfl <;> decide)
  have herror := hcount .error (by rcases ha with rfl | rfl <;> decide)
  refine ⟨(tracing_log s _).trans h.tracing, ?_, numbered_log h.numbered _, ?_, ?_, ?_⟩
  · rw [substitution_log]
    exact h.acyclic
  · rw [hbind, hoccurs, substitution_log]
    exact h.bindings
  · rw [hoccurs, hcategories]
    exact h.infinite
  · rw [herror, hcategories]
    exact h.errors

/-- Failures of choices and of the budget are not told by lines. -/
theorem Accounts.fail (h : s.Accounts handed) {f : Failure}
    (hf : f.category = .alternativeExhausted ∨ f.category = .solverBudget) :
    (s.fail f).Accounts handed := by
  have hcategories : (s.fail f).categories = s.categories ++ [f.category] := by
    rw [categories, Session.fail, Array.toList_push, List.map_append]
    rfl
  have hcount (x : Category) (hx : f.category ≠ x) :
      (handed ++ (s.fail f).categories).count x = (handed ++ s.categories).count x := by
    rw [hcategories, ← List.append_assoc, List.count_append, List.count_singleton,
      if_neg (by simpa using hx), Nat.add_zero]
  refine ⟨h.tracing, h.acyclic, h.numbered, h.bindings, ?_, ?_⟩
  · rw [hcount .infiniteType (by rcases hf with hf | hf <;> rw [hf] <;> decide)]
    exact h.infinite
  · rw [hcount .typeMismatch (by rcases hf with hf | hf <;> rw [hf] <;> decide),
      hcount .arityMismatch (by rcases hf with hf | hf <;> rw [hf] <;> decide)]
    exact h.errors

/-- No step of a run gets the accounts wrong. -/
theorem includes_accounts (handed : List Category) (cs : List Constraint) :
    Includes cs UnifyAction.Deciding fun s t => s.Accounts handed → t.Accounts handed where
  refl _ := id
  trans h h' := h' ∘ h
  unify _ e _ h := h.unify e
  decide _ _ c i candidate ha _ _ h := h.decide ha c i candidate
  exhaust s c _ h := by
    unfold reportExhausted
    split
    · exact h
    · exact h.fail (.inl rfl)

/-! ## Sequences of calls -/

/-- All diagnostics that some calls are answered with, one after the other. -/
def told (s : Session) : List Call → List Diagnostic
  | [] => []
  | c :: calls => (s.answer c).diagnostics ++ told (s.answer c).session calls

theorem Accounts.handOver (h : s.Accounts handed) :
    (Solution.ofSession s).session.Accounts
      (handed ++ (Solution.ofSession s).diagnostics.map (·.category)) := by
  have hcategories : handed ++ (Solution.ofSession s).diagnostics.map (·.category) ++
      (Solution.ofSession s).session.categories = handed ++ s.categories :=
    (List.append_nil _).trans (congrArg (handed ++ ·) List.map_map)
  refine ⟨h.tracing, h.acyclic, h.numbered, h.bindings, ?_, ?_⟩
  · rw [hcategories]
    exact h.infinite
  · rw [hcategories]
    exact h.errors

theorem Accounts.constrain (h : s.Accounts handed) (cs : List Constraint) :
    (s.constrain cs).Accounts handed :=
  ⟨h.tracing, h.acyclic, h.numbered, h.bindings, h.infinite, h.errors⟩

theorem Accounts.answer (h : s.Accounts handed) (call : Call) :
    (s.answer call).session.Accounts
      (handed ++ (s.answer call).diagnostics.map (·.category)) := by
  have hstart := h.constrain call.constraints
  have hrun := Solving.stays_constraints (includes_accounts handed call.constraints) (.inl rfl)
    (.inr rfl) ⟨s.constrain call.constraints, .ofOptions call.options⟩
  unfold Solving.Ends at hrun
  unfold Session.answer solve
  split <;> next heq =>
    rw [heq] at hrun
    first
      | exact (hrun.1 hstart).handOver
      | exact ((hrun.1 hstart).fail (.inr hrun.2)).handOver

theorem Accounts.after (h : s.Accounts handed) (calls : List Call) :
    (s.after calls).Accounts (handed ++ (s.told calls).map (·.category)) := by
  induction calls generalizing s handed with
  | nil =>
    rw [told, List.map_nil, List.append_nil]
    exact h
  | cons c calls ih =>
    rw [told, List.map_append, ← List.append_assoc]
    exact ih (h.answer c)

end Session

/-! ## Decisions -/

/-- A candidate of a choice and the kind of decision that it is taken by. -/
structure Decision where
  action : UnifyAction
  choice : Choice
  index : Nat
  candidate : List Equation
  deciding : action.Deciding
  taken : choice.candidates[index]? = some candidate

def Decision.line (d : Decision) : UnifyLine := d.choice.commitLine d.action d.index d.candidate

namespace Session

variable {s t u : Session} {c : Choice} {i : Nat} {es : List Equation} {ds ds' : List Decision}

/-- The lines of the trace that tell of decisions. -/
def decisions (s : Session) : List UnifyLine := s.lines.filter (·.action.Deciding)

/-- The trace has got lines for these decisions, and for no others. -/
structure Records (s t : Session) (ds : List Decision) : Prop where
  tracing : t.tracing
  decisions : t.decisions = s.decisions ++ ds.map Decision.line

theorem records_refl (hs : s.tracing) : s.Records s [] := ⟨hs, (List.append_nil _).symm⟩

theorem Records.trans (h : s.Records t ds) (h' : t.Records u ds') : s.Records u (ds ++ ds') := by
  refine ⟨h'.tracing, ?_⟩
  rw [h'.decisions, h.decisions, List.map_append, List.append_assoc]

theorem records_unify (hs : s.tracing) (e : Equation) : s.Records (s.unify e) [] := by
  refine ⟨(tracing_log s _).trans hs, ?_⟩
  rw [decisions, lines_unify hs, List.filter_append]
  refine congrArg (s.decisions ++ ·) (List.filter_eq_nil_iff.mpr fun l hl => ?_)
  obtain ⟨event, _, hl⟩ := List.mem_flatMap.mp hl
  have hmem : l.action ∈ event.outcome.actions := by
    rw [← UnifyEvent.map_action_lines s.varPrefix]
    exact List.mem_map_of_mem hl
  exact fun hl => Outcome.not_deciding_of_mem hmem (of_decide_eq_true hl)

theorem records_foldl_unify (hs : s.tracing) (es : List Equation) :
    s.Records (es.foldl unify s) [] := by
  induction es generalizing s with
  | nil => exact records_refl hs
  | cons e es ih =>
    have hfirst := records_unify hs e
    exact hfirst.trans (ih hfirst.tracing)

theorem exists_records_commit (hs : s.tracing) {action : UnifyAction} (ha : action.Deciding)
    (h : i ∈ s.viable c) : ∃ d : Decision, d.choice = c ∧ s.Records (s.commit action c i) [d] := by
  obtain ⟨es, hi, _⟩ := mem_viable_iff.mp h
  refine ⟨⟨action, c, i, es, ha, hi⟩, rfl, ?_⟩
  rw [commit_eq action hi]
  have hline : s.Records (s.log fun _ => [c.commitLine action i es])
      [⟨action, c, i, es, ha, hi⟩] := by
    refine ⟨(tracing_log s _).trans hs, ?_⟩
    rw [decisions, lines_log hs, List.filter_append]
    refine congrArg (s.decisions ++ ·) (List.filter_eq_self.mpr ?_)
    exact List.forall_mem_singleton.mpr (decide_eq_true ha)
  exact hline.trans (records_foldl_unify hline.tracing es)

variable {pending : List Choice}

/-- A pass after which nothing has failed records the choices that do not wait. -/
theorem exists_records_pass (hs : s.tracing) (hclean : (s.pass pending).2.failures = #[]) :
    ∃ ds, s.Records (s.pass pending).2 ds ∧
      (ds.map (·.choice) ++ (s.pass pending).1).Perm pending := by
  induction pending generalizing s with
  | nil => exact ⟨[], records_refl hs, .refl _⟩
  | cons c cs ih =>
    match hfound : s.viable c with
    | [] =>
      rw [pass_of_exhausted hfound] at hclean
      exact absurd ((gathers_pass _ cs).clean hclean) (failures_reportExhausted_ne s c)
    | [i] =>
      rw [pass_of_forced hfound] at hclean ⊢
      obtain ⟨d, rfl, hd⟩ := exists_records_commit hs (.inl rfl) (mem_viable_of_eq_cons hfound)
      obtain ⟨ds, hds, hperm⟩ := ih hd.tracing hclean
      exact ⟨d :: ds, hd.trans hds, hperm.cons d.choice⟩
    | i :: j :: more =>
      rw [pass_of_open hfound] at hclean ⊢
      obtain ⟨ds, hds, hperm⟩ := ih hs hclean
      exact ⟨ds, hds, List.perm_middle.trans (hperm.cons c)⟩

theorem exists_records_decideFirst (hs : s.tracing) (hclean : (s.decideFirst c).failures = #[]) :
    ∃ d : Decision, d.choice = c ∧ s.Records (s.decideFirst c) [d] := by
  unfold decideFirst at hclean ⊢
  cases hfound : s.viable c with
  | nil =>
    rw [hfound] at hclean
    exact absurd hclean (failures_reportExhausted_ne s c)
  | cons i more => exact exists_records_commit hs (.inr rfl) (mem_viable_of_eq_cons hfound)

/-- If nothing has failed in the end, every choice has been decided once. -/
theorem exists_records_settle (hs : s.tracing) (hclean : (s.settle pending).failures = #[]) :
    ∃ ds, s.Records (s.settle pending) ds ∧ (ds.map (·.choice)).Perm pending := by
  induction s, pending using settle.induct with
  | case1 s =>
    rw [settle_nil]
    exact ⟨[], records_refl hs, .refl _⟩
  | case2 s c cs p hlt ih =>
    rw [← settle_pass] at hclean ⊢
    obtain ⟨ds, hds, hperm⟩ := exists_records_pass hs ((gathers_settle _ _).clean hclean)
    obtain ⟨ds', hds', hperm'⟩ := ih hds.tracing hclean
    refine ⟨ds ++ ds', hds.trans hds', ?_⟩
    rw [List.map_append]
    exact (hperm'.append_left _).trans hperm
  | case3 s c cs p hlt ih =>
    rw [settle_of_idle (pass_eq_self (Nat.not_lt.mp hlt))] at hclean ⊢
    obtain ⟨d, rfl, hd⟩ := exists_records_decideFirst hs ((gathers_settle _ cs).clean hclean)
    obtain ⟨ds, hds, hperm⟩ := ih hd.tracing hclean
    exact ⟨d :: ds, hd.trans hds, hperm.cons d.choice⟩

theorem exists_records_completed (hs : s.tracing) {ks : List Constraint}
    (hclean : (s.completed ks).failures = #[]) :
    ∃ ds, s.Records (s.completed ks) ds ∧ (ds.map (·.choice)).Perm (Solving.choices ks) := by
  have hfirst : s.Records ((Solving.equations ks).foldl unify (s.constrain ks)) [] := by
    obtain ⟨htracing, hdecisions⟩ :=
      records_foldl_unify (s := s.constrain ks) hs (Solving.equations ks)
    exact ⟨htracing, hdecisions⟩
  obtain ⟨ds, hds, hperm⟩ := exists_records_settle hfirst.tracing hclean
  exact ⟨ds, hfirst.trans hds, hperm⟩

/-- The steps of a trace are numbered one after the other over all calls. Lines of
bindings are as many as there are bindings and lines of infinite types together,
and these and the lines of errors are as many as the diagnostics of their kind. A
call without failures decides each of its choices once and tells so. -/
theorem ofOptions_after_accounts (o : Options) (ho : o.tracing) (calls : List Call) :
    let s := (ofOptions o).after calls
    let reported := ((ofOptions o).told calls).map (·.category)
    s.trace.toList.map (·.step) = List.range' 1 s.trace.size ∧
    s.actions.count .bind = s.actions.count .occursCheck + s.substitution.size ∧
    s.actions.count .occursCheck = reported.count .infiniteType ∧
    s.actions.count .error = reported.count .typeMismatch + reported.count .arityMismatch ∧
    ∀ call, (s.answer call).failures = [] →
      ∃ ds : List Decision, (ds.map (·.choice)).Perm (Solving.choices call.constraints) ∧
        (s.answer call).session.decisions = s.decisions ++ ds.map Decision.line := by
  intro s reported
  have hs : s.Accounts ([] ++ reported) := (accounts_ofOptions ho).after calls
  have hcategories : [] ++ reported ++ s.categories = reported := by
    rw [List.nil_append, categories, failures_after rfl calls]
    exact List.append_nil _
  have hinfinite := hs.infinite
  have herrors := hs.errors
  rw [hcategories] at hinfinite herrors
  refine ⟨hs.numbered, hs.bindings, hinfinite, herrors, fun call hok => ?_⟩
  have hx : s.answer call = .ofSession (s.completed call.constraints) := by
    refine solve_eq_of_unstopped ?_
    rw [Solution.Unstopped]
    exact hok ▸ List.forall_mem_nil _
  rw [hx] at hok ⊢
  obtain ⟨ds, hds, hperm⟩ := exists_records_completed hs.tracing (Array.toList_eq_nil_iff.mp hok)
  exact ⟨ds, hperm, hds.decisions⟩

/-- Of three bindings that are tried one would be infinite. The first call reports
it and a mismatch, the second one tuples of different sizes before it is stopped.
Of the two choices of the last call one is forced by the default for the other. -/
theorem ofOptions_after_accounts_stopped :
    let n : NodeId := ⟨0⟩
    let v (i : Nat) : Ty := .var ⟨i⟩
    let eqn (s t : Ty) : Equation := ⟨s, t, n, .exprType⟩
    let choice (ts : List Ty) : Choice := ⟨ts.map fun t => [eqn (v 2) t], n, .identity⟩
    let first : Call := ⟨{}, [.equal (eqn (v 0) (.set (v 0) .none)), .equal (eqn (v 1) (.int n)),
      .equal (eqn (v 1) (.bool n))]⟩
    let second : Call := ⟨{ maxIterations := 1 },
      [.equal (eqn (.tuple [] .none) (.tuple [.int n] .none)), .equal (eqn (v 2) (.int n))]⟩
    let call : Call :=
      ⟨{}, [.oneOf (choice [.int n, .string n]), .oneOf (choice [.bool n, .int n])]⟩
    let o : Options := { tracing := true }
    let s := (ofOptions o).after [first, second]
    let reported := ((ofOptions o).told [first, second]).map (·.category)
    o.tracing ∧ s.actions = [.bind, .occursCheck, .bind, .error, .error] ∧
    s.substitution.size = 1 ∧ reported.count .infiniteType = 1 ∧
    reported.count .typeMismatch + reported.count .arityMismatch = 2 ∧
    ∃ ds : List Decision, ds.length = 2 ∧
      (s.answer call).session.decisions = s.decisions ++ ds.map Decision.line := by
  intro n v eqn choice first second call o s reported
  have hactions : s.actions = [.bind, .occursCheck, .bind, .error, .error] := by
    simp only [s, o, first, second, eqn, v, n]
    cbv
  have hok : (s.answer call).failures = [] := by
    simp only [s, o, call, first, second, choice, eqn, v, n]
    cbv
  obtain ⟨_, hbind, hinfinite, herrors, hdecided⟩ := ofOptions_after_accounts o rfl [first, second]
  obtain ⟨ds, hperm, hds⟩ := hdecided call hok
  rw [hactions] at hbind hinfinite herrors
  refine ⟨rfl, hactions, ?_, hinfinite.symm, herrors.symm, ds, ?_, hds⟩
  · exact (Nat.add_left_cancel (m := 1) hbind).symm
  · rw [← List.length_map, hperm.length_eq]
    rfl

end Session

end PlusCalTyping
