import PlusCalTyping.Solver.Failure
import PlusCalTyping.Options

/-! # The budget of a run

A run may try so many equations and no more. Every equation is noted before it
is admitted, so that a report of an exhausted budget ends with the equation
that was refused.
-/

namespace PlusCalTyping

structure Budget where
  limit : Nat
  traceLimit : Nat
  used : Nat := 0
  /-- All equations tried, the last one first. -/
  attempted : List Equation := []

namespace Budget

def ofOptions (o : Options) : Budget where
  limit := o.maxIterations
  traceLimit := o.traceLimit

/-- The last equations tried, in the order they were tried. -/
def recent (b : Budget) : List Equation := (b.attempted.take b.traceLimit).reverse

def note (b : Budget) (e : Equation) : Budget := { b with attempted := e :: b.attempted }

/-- Admit one more equation, unless the limit is reached. The budget changes
in either case. -/
def charge (b : Budget) (e : Equation) : Except Failure Unit × Budget :=
  let noted := b.note e
  if b.used < b.limit then (.ok (), { noted with used := b.used + 1 })
  else (.error (.outOfBudget b.limit noted.recent e.provenance), noted)

theorem recent_length (b : Budget) : b.recent.length = min b.traceLimit b.attempted.length := by
  simp [recent]

end Budget

end PlusCalTyping
