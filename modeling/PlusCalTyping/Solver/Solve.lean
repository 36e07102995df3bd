import PlusCalTyping.Solver.Session

/-! # Solving

Equations are made to hold first, one after the other. Then the choices are
gone through in rounds: a choice that a single candidate fits is decided, one
that none fits is reported, and the others wait for the next round. When a
round decides nothing, the first choice that waits takes its first fitting
candidate. Every round leaves fewer choices, so there is a last one.
-/

namespace PlusCalTyping

structure Progress where
  session : Session
  budget : Budget

/-- Part of a run. It stops at the first equation that the budget refuses, and
keeps what it has done so far. -/
abbrev Solving := EStateM Failure Progress

namespace Solving

def charge (e : Equation) : Solving Unit := fun p =>
  match p.budget.charge e with
  | (.ok (), budget) => .ok () { p with budget }
  | (.error f, budget) => .error f { p with budget }

def change (f : Session → Session) : Solving Unit := fun p =>
  .ok () { p with session := f p.session }

/-- Try an equation and keep what comes of it. -/
def enforce (e : Equation) : Solving Unit := do
  charge e
  change (·.unify e)

/-- Whether equations can hold together, tried up to the first that cannot.
Nothing is kept but what it costs. -/
def fits (σ : Substitution) : List Equation → Solving Bool
  | [] => return true
  | e :: es => do
    charge e
    let events := σ.unify e.expected e.actual
    if Unify.succeeded events then fits (Unify.extend σ events) es else return false

/-- The indices, counted from `i`, of the candidates that fit. -/
def viableFrom (σ : Substitution) (i : Nat) : List (List Equation) → Solving (List Nat)
  | [] => return []
  | candidate :: rest => do
    let fit ← fits σ candidate
    let later ← viableFrom σ (i + 1) rest
    return if fit then i :: later else later

/-- The indices of the candidates that fit what is known. -/
def viable (c : Choice) : Solving (List Nat) := do
  viableFrom (← get).session.substitution 0 c.candidates

/-- Decide a choice for the candidate at an index. -/
def commit (action : UnifyAction) (c : Choice) (i : Nat) : Solving Unit := do
  if let some candidate := c.candidates[i]? then
    change (·.log fun _ => [c.commitLine action i candidate])
    candidate.forM enforce

def exhaust (c : Choice) : Solving Unit := change (·.reportExhausted c)

/-- Go through choices once. The choices that have to wait are returned. -/
def pass : (cs : List Choice) → Solving { waiting : List Choice // waiting.length ≤ cs.length }
  | [] => return ⟨[], Nat.le_refl 0⟩
  | c :: cs => do
    match ← viable c with
    | [] =>
      exhaust c
      let ⟨waiting, h⟩ ← pass cs
      return ⟨waiting, Nat.le_succ_of_le h⟩
    | [i] =>
      commit .commitAlternative c i
      let ⟨waiting, h⟩ ← pass cs
      return ⟨waiting, Nat.le_succ_of_le h⟩
    | _ =>
      let ⟨waiting, h⟩ ← pass cs
      return ⟨c :: waiting, Nat.succ_le_succ h⟩

/-- Decide a choice that nothing forces. -/
def decideFirst (c : Choice) : Solving Unit := do
  match ← viable c with
  | [] => exhaust c
  | i :: _ => commit .defaultAlternative c i

/-- Go through choices until none is left. -/
def rounds (pending : List Choice) : Solving Unit := do
  match ← pass pending with
  | ⟨[], _⟩ => return ()
  | ⟨c :: rest, _⟩ =>
    if (c :: rest).length < pending.length then rounds (c :: rest)
    else
      decideFirst c
      rounds rest
termination_by pending.length
decreasing_by
  · assumption
  · assumption

def equations (cs : List Constraint) : List Equation :=
  cs.filterMap fun
    | .equal e => some e
    | .oneOf _ => none

def choices (cs : List Constraint) : List Choice :=
  cs.filterMap fun
    | .equal _ => none
    | .oneOf c => some c

def constraints (cs : List Constraint) : Solving Unit := do
  (equations cs).forM enforce
  rounds (choices cs)

end Solving

/-- A session after a list of constraints, with the failures of that list. -/
structure Solution where
  session : Session := {}
  failures : List Failure := []
deriving Inhabited

namespace Solution

def diagnostics (s : Solution) : List Diagnostic := s.failures.map (·.toDiagnostic)

def hasErrors (s : Solution) : Bool := !s.failures.isEmpty

def ofSession (s : Session) : Solution := ⟨{ s with failures := #[] }, s.failures.toList⟩

end Solution

/-- Solve constraints in a session, within the budget of some options. -/
def Session.solve (s : Session) (o : Options) (cs : List Constraint) : Solution :=
  match Solving.constraints cs ⟨s.constrain cs, .ofOptions o⟩ with
  | .ok _ p => .ofSession p.session
  | .error f p => .ofSession (p.session.fail f)

def Solution.ofConstraints (o : Options) (cs : List Constraint) : Solution :=
  (Session.ofOptions o).solve o cs

end PlusCalTyping
