import PlusCalTyping.Proofs.Solver.Steps

/-! # Runs that are not stopped

Without the budget, what a part of a run does is a function of the session.
These functions are the parts of a run over again, with nothing charged. A run
comes to what they give or is stopped (`yields_constraints`), so a list of
constraints whose failures are not due to the budget is solved by them
(`Session.solve_eq_of_unstopped`).
-/

namespace PlusCalTyping

namespace Substitution

def fits (σ : Substitution) : List Equation → Bool
  | [] => true
  | e :: es =>
    let events := σ.unify e.expected e.actual
    Unify.succeeded events && fits (Unify.extend σ events) es

/-- The indices, counted from `i`, of the candidates that fit. -/
def viable (σ : Substitution) (i : Nat) : List (List Equation) → List Nat
  | [] => []
  | candidate :: rest =>
    if σ.fits candidate then i :: viable σ (i + 1) rest else viable σ (i + 1) rest

end Substitution

namespace Session

def viable (s : Session) (c : Choice) : List Nat := s.substitution.viable 0 c.candidates

def commit (s : Session) (action : UnifyAction) (c : Choice) (i : Nat) : Session :=
  match c.candidates[i]? with
  | none => s
  | some candidate => candidate.foldl unify (s.log fun _ => [c.commitLine action i candidate])

/-- Go through choices once. The choices that have to wait come first. -/
def pass (s : Session) : List Choice → List Choice × Session
  | [] => ([], s)
  | c :: cs =>
    match s.viable c with
    | [] => pass (s.reportExhausted c) cs
    | [i] => pass (s.commit .commitAlternative c i) cs
    | _ => (c :: (pass s cs).1, (pass s cs).2)

def decideFirst (s : Session) (c : Choice) : Session :=
  match s.viable c with
  | [] => s.reportExhausted c
  | i :: _ => s.commit .defaultAlternative c i

variable {s : Session} {c : Choice} {cs : List Choice} {i j : Nat} {more : List Nat}

theorem pass_of_exhausted (h : s.viable c = []) :
    s.pass (c :: cs) = (s.reportExhausted c).pass cs := by
  rw [pass, h]

theorem pass_of_forced (h : s.viable c = [i]) :
    s.pass (c :: cs) = (s.commit .commitAlternative c i).pass cs := by
  rw [pass, h]

theorem pass_of_open (h : s.viable c = i :: j :: more) :
    s.pass (c :: cs) = (c :: (s.pass cs).1, (s.pass cs).2) := by
  rw [pass, h]

theorem sublist_pass (s : Session) (cs : List Choice) : (s.pass cs).1.Sublist cs := by
  induction cs generalizing s with
  | nil => exact .slnil
  | cons c cs ih =>
    match h : s.viable c with
    | [] =>
      rw [pass_of_exhausted h]
      exact (ih _).cons c
    | [i] =>
      rw [pass_of_forced h]
      exact (ih _).cons c
    | i :: j :: more =>
      rw [pass_of_open h]
      exact (ih s).cons_cons c

theorem length_pass_le (s : Session) (cs : List Choice) : (s.pass cs).1.length ≤ cs.length :=
  (s.sublist_pass cs).length_le

/-- A pass that all choices wait for leaves the session and the choices as they are. -/
theorem pass_eq_self (h : cs.length ≤ (s.pass cs).1.length) : s.pass cs = (cs, s) := by
  induction cs generalizing s with
  | nil => rfl
  | cons c cs ih =>
    match hfound : s.viable c with
    | [] =>
      rw [pass_of_exhausted hfound, List.length_cons] at h
      have := length_pass_le (s.reportExhausted c) cs
      omega
    | [i] =>
      rw [pass_of_forced hfound, List.length_cons] at h
      have := length_pass_le (s.commit .commitAlternative c i) cs
      omega
    | i :: j :: more =>
      rw [pass_of_open hfound, List.length_cons, List.length_cons] at h
      rw [pass_of_open hfound, ih (by omega)]

/-- Go through choices until none is left. -/
def settle (s : Session) : List Choice → Session
  | [] => s
  | c :: cs =>
    let p := s.pass (c :: cs)
    if p.1.length < (c :: cs).length then settle p.2 p.1 else settle (s.decideFirst c) cs
termination_by pending => pending.length
decreasing_by
  · assumption
  · exact Nat.lt_succ_self _

theorem settle_nil (s : Session) : s.settle [] = s := by
  rw [settle]

theorem settle_of_idle (h : s.pass (c :: cs) = (c :: cs, s)) :
    s.settle (c :: cs) = (s.decideFirst c).settle cs := by
  rw [settle, h]
  exact if_neg (Nat.lt_irrefl _)

/-- A pass may come first. -/
theorem settle_pass (s : Session) (cs : List Choice) :
    (s.pass cs).2.settle (s.pass cs).1 = s.settle cs := by
  by_cases h : (s.pass cs).1.length < cs.length
  · cases cs with
    | nil => exact absurd h (Nat.not_lt_zero _)
    | cons c cs =>
      rw [settle.eq_2]
      exact (if_pos h).symm
  · rw [pass_eq_self (Nat.not_lt.mp h)]

/-- The session after a list of constraints, had there been no budget. -/
def completed (s : Session) (cs : List Constraint) : Session :=
  ((Solving.equations cs).foldl unify (s.constrain cs)).settle (Solving.choices cs)

end Session

namespace Solving

variable {α β : Type} {m : Solving α} {g : α → Solving β} {s t u : Session} {x : α} {y : β}

/-- Unless the budget stops it, a part ends with this result and this session. -/
def Yields (m : Solving α) (s : Session) (x : α) (t : Session) : Prop :=
  ∀ b, Ends m ⟨s, b⟩ (fun y q => y = x ∧ q.session = t) fun f _ => f.OutOfBudget

theorem yields_pure (x : α) (s : Session) : Yields (pure x) s x s := fun _ => ⟨rfl, rfl⟩

theorem Yields.bind (h : Yields m s x t) (hg : Yields (g x) t y u) : Yields (m >>= g) s y u := by
  intro b
  refine ends_bind.mpr ((h b).mono ?_ fun _ _ h => h)
  rintro _ ⟨_, b'⟩ ⟨rfl, rfl⟩
  exact hg b'

theorem yields_charge (e : Equation) (s : Session) : Yields (charge e) s () s :=
  fun b => (ends_charge e ⟨s, b⟩).mono (fun _ _ h => ⟨rfl, h⟩) fun _ _ h => h.2

theorem yields_change (f : Session → Session) (s : Session) : Yields (change f) s () (f s) :=
  fun _ => ⟨rfl, rfl⟩

theorem yields_forM_enforce (es : List Equation) (s : Session) :
    Yields (es.forM enforce) s () (es.foldl Session.unify s) := by
  induction es generalizing s with
  | nil => exact yields_pure () s
  | cons e es ih =>
    have hfirst : Yields (enforce e) s () (s.unify e) :=
      (yields_charge e s).bind (yields_change _ s)
    exact hfirst.bind (g := fun _ => es.forM enforce) (ih (s.unify e))

theorem yields_fits (σ : Substitution) (es : List Equation) (s : Session) :
    Yields (fits σ es) s (σ.fits es) s := by
  induction es generalizing σ with
  | nil => exact yields_pure true s
  | cons e es ih =>
    rw [fits, Substitution.fits]
    refine (yields_charge e s).bind ?_
    dsimp only
    split
    · next h =>
      rw [h, Bool.true_and]
      exact ih _
    · next h =>
      rw [Bool.eq_false_iff.mpr h, Bool.false_and]
      exact yields_pure false s

theorem yields_viableFrom (σ : Substitution) (i : Nat) (candidates : List (List Equation))
    (s : Session) : Yields (viableFrom σ i candidates) s (σ.viable i candidates) s := by
  induction candidates generalizing i with
  | nil => exact yields_pure [] s
  | cons es rest ih =>
    exact (yields_fits σ es s).bind ((ih (i + 1)).bind (yields_pure _ s))

theorem yields_viable (c : Choice) (s : Session) : Yields (viable c) s (s.viable c) s :=
  fun b => yields_viableFrom s.substitution 0 c.candidates s b

theorem yields_commit (action : UnifyAction) (c : Choice) (i : Nat) (s : Session) :
    Yields (commit action c i) s () (s.commit action c i) := by
  unfold commit Session.commit
  cases c.candidates[i]? with
  | none => exact yields_pure () s
  | some candidate => exact (yields_change _ s).bind (yields_forM_enforce candidate _)

theorem yields_pass (cs : List Choice) (s : Session) :
    Yields (pass cs) s ⟨(s.pass cs).1, s.length_pass_le cs⟩ (s.pass cs).2 := by
  induction cs generalizing s with
  | nil => exact yields_pure _ s
  | cons c cs ih =>
    have hviable := yields_viable c s
    match h : s.viable c with
    | [] =>
      rw [h] at hviable
      simp only [Session.pass_of_exhausted h]
      refine hviable.bind ((yields_change _ s).bind ((ih _).bind ?_))
      exact yields_pure _ _
    | [i] =>
      rw [h] at hviable
      simp only [Session.pass_of_forced h]
      refine hviable.bind ((yields_commit .commitAlternative c i s).bind ((ih _).bind ?_))
      exact yields_pure _ _
    | i :: j :: more =>
      rw [h] at hviable
      simp only [Session.pass_of_open h]
      exact hviable.bind ((ih s).bind (yields_pure _ _))

theorem yields_decideFirst (c : Choice) (s : Session) :
    Yields (decideFirst c) s () (s.decideFirst c) := by
  refine (yields_viable c s).bind ?_
  unfold Session.decideFirst
  cases s.viable c with
  | nil => exact yields_change _ s
  | cons i more => exact yields_commit .defaultAlternative c i s

theorem yields_rounds (cs : List Choice) (s : Session) :
    Yields (rounds cs) s () (s.settle cs) := by
  induction hn : cs.length using Nat.strong_induction_on generalizing cs s with
  | _ n ih =>
    subst hn
    rw [rounds]
    refine (yields_pass cs s).bind ?_
    by_cases hlt : (s.pass cs).1.length < cs.length
    · rw [← s.settle_pass cs]
      obtain ⟨⟨waiting, t⟩, hpass⟩ : ∃ p, s.pass cs = p := ⟨_, rfl⟩
      cases waiting with
      | nil =>
        simp only [hpass, Session.settle_nil]
        exact yields_pure () t
      | cons c rest =>
        rw [hpass] at hlt
        simp only [hpass, if_pos hlt]
        exact ih _ hlt _ t rfl
    · have hidle := Session.pass_eq_self (Nat.not_lt.mp hlt)
      cases cs with
      | nil =>
        simp only [hidle, Session.settle_nil]
        exact yields_pure () s
      | cons c rest =>
        rw [Session.settle_of_idle hidle]
        simp only [hidle, Nat.lt_irrefl, if_false]
        exact (yields_decideFirst c s).bind (ih _ (Nat.lt_succ_self _) rest _ rfl)

theorem yields_constraints (cs : List Constraint) (s : Session) :
    Yields (constraints cs) (s.constrain cs) () (s.completed cs) :=
  (yields_forM_enforce (equations cs) _).bind (g := fun _ => rounds (choices cs))
    (yields_rounds (choices cs) _)

end Solving

instance : DecidablePred Failure.OutOfBudget :=
  fun f => inferInstanceAs (Decidable (f.category = .solverBudget))

/-- No failure of the list is due to the budget. -/
def Solution.Unstopped (x : Solution) : Prop := ∀ f ∈ x.failures, ¬f.OutOfBudget

instance (x : Solution) : Decidable x.Unstopped :=
  inferInstanceAs (Decidable (∀ f ∈ x.failures, ¬f.OutOfBudget))

namespace Session

variable {s : Session} {o : Options} {cs : List Constraint}

theorem exists_ok_of_unstopped (h : (s.solve o cs).Unstopped) :
    ∃ q, Solving.constraints cs ⟨s.constrain cs, .ofOptions o⟩ = .ok () q := by
  have hyields := Solving.yields_constraints cs s (.ofOptions o)
  unfold Solving.Ends at hyields
  unfold solve at h
  cases hrun : Solving.constraints cs ⟨s.constrain cs, .ofOptions o⟩ with
  | ok _ q => exact ⟨q, rfl⟩
  | error f q =>
    rw [hrun] at h hyields
    exact absurd hyields (h f (Array.mem_toList_iff.mpr Array.mem_push_self))

theorem solve_eq_of_unstopped (h : (s.solve o cs).Unstopped) :
    s.solve o cs = .ofSession (s.completed cs) := by
  obtain ⟨q, hrun⟩ := exists_ok_of_unstopped h
  have hyields := Solving.yields_constraints cs s (.ofOptions o)
  unfold Solving.Ends at hyields
  rw [hrun] at hyields
  unfold solve
  rw [hrun]
  exact congrArg Solution.ofSession hyields.2

end Session

end PlusCalTyping
