import PlusCalTyping.Syntax.Build

/-! # Families of algorithms

Three families that grow in the dimensions inference is sensitive to: choices
between types, processes, and instances of one archetype. Each has at least
one member of whatever it counts.
-/

namespace PlusCalTyping.Family

/-- `0 + 1 + … + n` -/
def sum : Nat → Build Expr
  | 0 => Build.int 0
  | n + 1 => do
    let partialSum ← sum n
    let term ← Build.int (n + 1)
    Build.binary .add partialSum term

/-- One variable that begins as a sum. Every addition is a choice between integers
and reals. -/
def arithmeticChain (terms : Nat) : Algorithm := Build.run do
  let x ← Build.declareEq "x" (← sum (max terms 1))
  return { name := "ArithmeticChain", globals := [x] }

/-- A process over the identities 1 to 3 that increments the counter and waits
until the counter is beyond its own identity. -/
def fleetProcess (i : Nat) : Build Process := do
  let identities ← Build.range 1 3
  let name ← Build.declareIn s!"P{i}" identities
  let one ← Build.int 1
  let step ← Build.declareEq "step" one
  let current ← Build.ident "counter"
  let amount ← Build.ident "step"
  let next ← Build.binary .add current amount
  let increment ← Build.assignTo "counter" next
  let current ← Build.ident "counter"
  let me ← Build.ident "self"
  let ahead ← Build.binary .gt current me
  let wait ← Build.stmt (.await · ahead)
  let body ← Build.stmt (.labeled · "inc" [increment, wait])
  Build.process name [step] [body]

/-- Processes that share one counter. -/
def processFleet (count : Nat) : Algorithm := Build.run do
  let zero ← Build.int 0
  let counter ← Build.declareEq "counter" zero
  let processes ← (List.range (max count 1)).mapM fleetProcess
  return { name := "ProcessFleet", globals := [counter], processes := .multi processes }

/-- A global queue and an instance that works on it. -/
def worker (i : Nat) : Build (Decl × Instance) := do
  let zero ← Build.int 0
  let queue ← Build.declareEq s!"q{i}" zero
  let identity ← Build.int i
  let name ← Build.declareEq s!"W{i}" identity
  let arg ← Build.ref s!"q{i}"
  let mapping ← Build.mapping s!"q{i}" "Identity"
  return (queue, ← Build.inst name "Worker" [arg] [mapping])

/-- Instances of one archetype, each with a global of its own that is read and
written through one mapping macro. -/
def mappedInstances (count : Nat) : Algorithm := Build.run do
  let param ← Build.param "queue" true
  let queue ← Build.ident "queue"
  let one ← Build.int 1
  let next ← Build.binary .add queue one
  let body ← Build.assignTo "queue" next
  let archetype ← Build.archetype "Worker" [param] [] [body]
  let variableUse ← Build.ident "$variable"
  let readBody ← Build.stmt (.yield · variableUse)
  let valueUse ← Build.ident "$value"
  let writeBody ← Build.stmt (.yield · valueUse)
  let identity ← Build.mappingMacro "Identity" [readBody] [writeBody]
  let workers ← (List.range (max count 1)).mapM worker
  return {
    name := "MappedInstances"
    globals := workers.map (·.1)
    archetypes := [archetype]
    mappingMacros := [identity]
    instances := workers.map (·.2) }

end PlusCalTyping.Family
