import TensorShape.Logic.Context
import TensorShape.Logic.Engine

/-!
# TensorShape.Logic.Session

A session with an engine, as the wrapper `Solver` is one with Z3: assertions are made, scopes are
opened and closed, and the live assertions are checked. A model or a proof can be had only directly
after the check that found it: whatever changes the assertions, or might have, makes the session
forget the result.
-/

namespace TensorShape

structure Session (e : Engine) where
  context : Context
  state : e.State
  /-- The result of the last check, if nothing came after it. -/
  last : Option CheckResult

namespace Session

variable {e : Engine}

def start (e : Engine) (context : Context) : Session e := ⟨context, e.start, none⟩

/-! ## Changes -/

def assert (s : Session e) (f : Owned Formula) : Except ForeignExpression (Session e) :=
  (f.usedIn s.context.id).map fun node =>
    { s with state := e.assert s.state node, last := none }

/-- Open a scope. -/
def push (s : Session e) : Session e := { s with state := e.push s.state, last := none }

/-- Close `n` scopes. -/
def pop (s : Session e) (n : Nat) : Session e := { s with state := e.pop s.state n, last := none }

/-- Check the live assertions. -/
def check (s : Session e) : CheckResult × Session e :=
  let (result, state) := e.check s.state
  (result, { s with state := state, last := some result })

/-! ## Answers -/

/-- The model of the last check, if that was the last operation and found one. -/
def model? (s : Session e) : Option Model :=
  if s.last = some .sat then e.model? s.state else none

/-- The assertions that the last check refuted, if that was the last operation and proofs are
kept. -/
def refuted? (s : Session e) : Option (List Formula) :=
  if s.last = some .unsat ∧ s.context.proofs = true then e.refuted? s.state else none

/-- Why the last check was not decided. -/
def reasonUnknown? (s : Session e) : Option String :=
  if s.last = some .unknown then e.reasonUnknown? s.state else none

/-! ## Sessions with a solver -/

variable {solver : Solver}

/-- The assertions of a session whose engine keeps them in plain sight. -/
def stack (s : Session (.ofSolver solver)) : AssertionStack := Engine.Held.stack s.state

/-- The value of an expression, if the assertions leave just one value and it is a word; `m` is a
model of the assertions. -/
def forced? (s : Session (.ofSolver solver)) (m : Model) (x : Owned Term) :
    Except ForeignExpression (Option Int64) := do
  let x ← x.usedIn s.context.id
  return (solver.forced? s.stack.assertions m x).bind word?

end Session

end TensorShape
