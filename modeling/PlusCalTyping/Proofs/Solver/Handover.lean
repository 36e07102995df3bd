import PlusCalTyping.Proofs.Solver.Termination

/-! # Failures are handed over

The answer to a call takes all failures along, so that a session has none left
between calls, whether they failed or not. Therefore the flag of a session says
the truth of its past just where no call has failed (`hasErrors_after`); the
flags of the answers are the ones that tell.
-/

namespace PlusCalTyping.Session

/-- The answers to calls that are made one after the other. -/
def answers (s : Session) : List Call → List Solution
  | [] => []
  | c :: calls => s.answer c :: (s.answer c).session.answers calls

variable {s : Session}

theorem answers_append (calls more : List Call) :
    s.answers (calls ++ more) = s.answers calls ++ (s.after calls).answers more := by
  induction calls generalizing s with
  | nil => rfl
  | cons c calls ih =>
    rw [List.cons_append, answers, answers, ih]
    rfl

theorem mem_answers_iff {calls : List Call} {x : Solution} :
    x ∈ s.answers calls ↔
      ∃ before c later, calls = before ++ c :: later ∧ x = (s.after before).answer c := by
  constructor
  · intro hx
    induction calls generalizing s with
    | nil => cases hx
    | cons c calls ih =>
      rcases List.mem_cons.mp hx with rfl | hx
      · exact ⟨[], c, calls, rfl, rfl⟩
      · obtain ⟨before, c', later, rfl, rfl⟩ := ih hx
        exact ⟨c :: before, c', later, rfl, rfl⟩
  · rintro ⟨before, c, later, rfl, rfl⟩
    rw [answers_append, answers]
    exact List.mem_append_right _ List.mem_cons_self

theorem hasErrors_eq_false (hs : s.failures = #[]) : s.hasErrors = false := by
  rw [hasErrors, hs]
  rfl

/-- After any calls the flag of the session is down, so it says whether some
call has failed only if none has. -/
theorem hasErrors_after (o : Options) (calls : List Call) :
    let s := ofOptions o
    (s.after calls).hasErrors = false ∧
      (((s.after calls).hasErrors ↔ ∃ x ∈ s.answers calls, x.hasErrors) ↔
        ∀ before c later, calls = before ++ c :: later →
          ((s.after before).answer c).hasErrors = false) := by
  intro s
  have hdown : (s.after calls).hasErrors = false :=
    hasErrors_eq_false (failures_after rfl calls)
  refine ⟨hdown, ?_⟩
  rw [hdown, iff_comm, Bool.false_eq_true, false_iff, not_exists]
  constructor
  · intro hnone x ⟨hx, herrors⟩
    obtain ⟨before, c, later, hcalls, rfl⟩ := mem_answers_iff.mp hx
    rw [hnone before c later hcalls] at herrors
    cases herrors
  · intro hnone before c later hcalls
    refine Bool.eq_false_iff.mpr fun herrors => hnone _ ⟨?_, herrors⟩
    exact mem_answers_iff.mpr ⟨before, c, later, hcalls, rfl⟩

/-- A call that fails is answered so, and the flag of the session denies it. -/
theorem not_hasErrors_after_iff :
    let c : Call := ⟨{}, [.equal ⟨.int ⟨0⟩, .bool ⟨0⟩, ⟨0⟩, .exprType⟩]⟩
    ¬(((ofOptions {}).after [c]).hasErrors ↔ ∃ x ∈ (ofOptions {}).answers [c], x.hasErrors) := by
  intro c h
  have hfailed : ((ofOptions {}).answer c).hasErrors := by cbv
  have hraised := h.mpr ⟨_, List.mem_cons_self, hfailed⟩
  rw [hasErrors_eq_false (failures_after rfl [c])] at hraised
  cases hraised

end PlusCalTyping.Session
