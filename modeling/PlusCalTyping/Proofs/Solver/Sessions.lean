import Mathlib
import PlusCalTyping.Proofs.Solver.Soundness

/-! # Whole sessions

A session is given one list of constraints after the other. What was solved
without failures goes on to hold for the rest of the session: later lists may
fail and leave bindings behind, but they only add bindings of variables that had
none (`Session.satisfies_after_of_solved`).
-/

namespace PlusCalTyping

/-- A list of constraints with the options it is to be solved under. -/
structure Call where
  options : Options
  constraints : List Constraint

namespace Call

def Determined (c : Call) : Prop := ∀ k ∈ c.constraints, k.Determined

instance (c : Call) : Decidable c.Determined :=
  inferInstanceAs (Decidable (∀ k ∈ c.constraints, k.Determined))

end Call

namespace Session

def answer (s : Session) (c : Call) : Solution := s.solve c.options c.constraints

/-- The session after some calls, whether they failed or not. -/
def after (s : Session) (calls : List Call) : Session :=
  calls.foldl (fun s c => (s.answer c).session) s

variable {s : Session}

theorem after_append (calls more : List Call) :
    s.after (calls ++ more) = (s.after calls).after more := List.foldl_append

theorem Coherent.after (hs : s.Coherent) {calls : List Call} (h : ∀ c ∈ calls, c.Determined) :
    (s.after calls).Coherent ∧ s.substitution ≤ (s.after calls).substitution := by
  induction calls generalizing s with
  | nil => exact ⟨hs, Substitution.le_refl _⟩
  | cons c calls ih =>
    obtain ⟨hc, hcalls⟩ := List.forall_mem_cons.mp h
    have hanswer := hs.solved (o := c.options) hc
    obtain ⟨hcoherent, hle⟩ := ih hanswer.coherent hcalls
    exact ⟨hcoherent, Substitution.le_trans hanswer.le hle⟩

/-- A call that was answered without failures is satisfied from then on,
whatever comes of later calls. -/
theorem satisfies_after_of_solved (o : Options) (before later : List Call) (call : Call)
    (hdet : ∀ c ∈ before ++ call :: later, c.Determined)
    (hok : (((ofOptions o).after before).answer call).failures = []) :
    ∀ k ∈ call.constraints,
      ((ofOptions o).after (before ++ call :: later)).substitution.Satisfies k := by
  intro k hk
  obtain ⟨hbefore, hrest⟩ := List.forall_mem_append.mp hdet
  obtain ⟨hcall, hlater⟩ := List.forall_mem_cons.mp hrest
  obtain ⟨hs, _⟩ := (coherent_ofOptions o).after hbefore
  have hsolved := hs.solved (o := call.options) hcall
  obtain ⟨hend, hle⟩ := hsolved.coherent.after hlater
  rw [after_append, ← Substitution.satisfies_value_iff]
  -- The valuation that the last bindings give respects those right after the call.
  exact hsolved.satisfies hok _ ((Valuation.models_value hend.acyclic).mono hle) k hk

/-- The first call binds a set of a variable and decides what its elements are;
the second asks for other elements, fails, and takes nothing back. -/
theorem satisfies_after_of_solved_then_failed :
    let n : NodeId := ⟨0⟩
    let elem : Ty := .var ⟨0⟩
    let set : Ty := .var ⟨1⟩
    let eqn (s t : Ty) : Equation := ⟨s, t, n, .exprType⟩
    let first : Call := ⟨{}, [.equal (eqn (.set elem .none) set),
      .oneOf ⟨[[eqn elem (.bool n)], [eqn elem (.int n), eqn set (.set elem .none)]],
        n, .identity⟩]⟩
    let second : Call := ⟨{}, [.equal (eqn set (.set (.string n) .none))]⟩
    (((ofOptions {}).after [first]).answer second).hasErrors ∧
    ∀ k ∈ first.constraints,
      ((ofOptions {}).after ([] ++ first :: [second])).substitution.Satisfies k := by
  intro n elem set eqn first second
  refine ⟨by cbv, ?_⟩
  exact satisfies_after_of_solved {} [] [second] first (by decide) (by cbv)

end Session

end PlusCalTyping
