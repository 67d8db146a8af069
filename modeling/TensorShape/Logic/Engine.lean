import TensorShape.Logic.Solver

/-!
# TensorShape.Logic.Engine

Solvers that keep their assertions themselves, as Z3's does.

* An `AssertionStack` is what such a solver is asked about: the live assertions, and for each open
  scope those that closing it brings back.
* An `Engine` is the solver as it is seen from outside, by its operations. What is relied on is
  named in `Engine.Exact`: it keeps an assertion stack, decides the live assertions, and has a model
  or a refutation of them right after the check that found it.
* `Engine.ofSolver` keeps a stack in plain sight and asks a `Solver` about it.
-/

namespace TensorShape

/-! ## Assertion stacks -/

structure AssertionStack where
  /-- The live assertions, in the order they were made. -/
  assertions : List Formula
  /-- For each open scope, innermost first, what was live when it was opened. -/
  saved : List (List Formula)

namespace AssertionStack

def empty : AssertionStack := ⟨[], []⟩

/-- The number of open scopes. -/
def depth (a : AssertionStack) : Nat := a.saved.length

def assert (a : AssertionStack) (f : Formula) : AssertionStack :=
  { a with assertions := a.assertions ++ [f] }

/-- Open a scope. -/
def push (a : AssertionStack) : AssertionStack := { a with saved := a.assertions :: a.saved }

/-- Close `n` scopes, which brings back the assertions of the time they were opened; if there are
not as many, none is closed. -/
def pop (a : AssertionStack) (n : Nat) : AssertionStack :=
  match n with
  | 0 => a
  | k + 1 =>
    match a.saved[k]? with
    | some assertions => ⟨assertions, a.saved.drop (k + 1)⟩
    | none => a

/-- The unknowns of the live assertions, each once. -/
def unknowns (a : AssertionStack) : List Unknown := (Formula.unknownsAll a.assertions).eraseDups

/-- The declarations of the unknowns, then the assertions. -/
def text (a : AssertionStack) : String :=
  " ".intercalate
    (a.unknowns.map Unknown.declaration ++ a.assertions.map fun f => "(assert " ++ f.text ++ ")")

/-- The values of the integer unknowns in a model. -/
def modelText (a : AssertionStack) (m : Model) : String :=
  "\n".intercalate (a.unknowns.filterMap fun u =>
    match u with
    | .int x => some (x.name ++ " -> " ++ integerText (m.int x))
    | .seq _ => none)

end AssertionStack

/-! ## Engines -/

/-- A solver that keeps its assertions itself. -/
structure Engine where
  State : Type
  start : State
  assert : State → Formula → State
  push : State → State
  pop : State → Nat → State
  check : State → CheckResult × State
  /-- The model at hand, whatever it is a model of. -/
  model? : State → Option Model
  /-- The assertions that the proof at hand refutes. -/
  refuted? : State → Option (List Formula)
  reasonUnknown? : State → Option String

namespace Engine

/-- The engine keeps an assertion stack, which `stack` shows, and decides the live assertions. Right
after a check it has a model of them, or the proof that there is none if it keeps proofs. -/
structure Exact (e : Engine) (proofs : Bool) (stack : e.State → AssertionStack) : Prop where
  start : stack e.start = .empty
  assert : ∀ st f, stack (e.assert st f) = (stack st).assert f
  push : ∀ st, stack (e.push st) = (stack st).push
  pop : ∀ st n, stack (e.pop st n) = (stack st).pop n
  check : ∀ st, stack (e.check st).2 = stack st
  sat_iff : ∀ st, (e.check st).1 = .sat ↔ ∃ m : Model, m.Satisfies (stack st).assertions
  unsat_iff : ∀ st, (e.check st).1 = .unsat ↔ ¬∃ m : Model, m.Satisfies (stack st).assertions
  model : ∀ st, (e.check st).1 = .sat →
    ∃ m, e.model? (e.check st).2 = some m ∧ m.Satisfies (stack st).assertions
  refuted : ∀ st, (e.check st).1 = .unsat → proofs = true →
    e.refuted? (e.check st).2 = some (stack st).assertions

/-- The state of an engine that asks a solver. -/
structure Held where
  stack : AssertionStack
  /-- What was asked last, and the answer to it. -/
  asked? : Option (List Formula × Answer)

/-- The engine that asks a solver about the stack it keeps. It holds on to the last answer, whatever
becomes of the stack. -/
def ofSolver (solver : Solver) : Engine where
  State := Held
  start := ⟨.empty, none⟩
  assert st f := { st with stack := st.stack.assert f }
  push st := { st with stack := st.stack.push }
  pop st n := { st with stack := st.stack.pop n }
  check st :=
    let answer := solver st.stack.assertions
    (answer.result, { st with asked? := some (st.stack.assertions, answer) })
  model? st :=
    match st.asked? with
    | some (_, .sat model?) => model?
    | _ => none
  refuted? st :=
    match st.asked? with
    | some (fs, .unsat) => some fs
    | _ => none
  reasonUnknown? st :=
    match st.asked? with
    | some (_, .unknown reason?) => reason?
    | _ => none

end Engine

end TensorShape
