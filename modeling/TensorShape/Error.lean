import TensorShape.CallGraph.Summary
import TensorShape.Check.EncodingError
import TensorShape.Program.WellFormed
import TensorShape.Symbolic.Builtin

/-!
# TensorShape.Error

All that can go wrong between reading a program and answering a question about it. An error of one
part is reported under its own message and code.
-/

namespace TensorShape

inductive Error where
  | flaw (f : Flaw)
  | step (e : StepError)
  | call (e : CallError)
  | encoding (e : EncodingError)
  /-- A question was put without a solver. -/
  | solverUnavailable
deriving DecidableEq

namespace Error

def message : Error → String
  | .flaw f => f.message
  | .step e => e.message
  | .call e => e.message
  | .encoding e => e.message
  | .solverUnavailable => "Z3 solver is not enabled"

/-- The code under which an error is reported. -/
def code : Error → String
  | .flaw f => f.code
  | .step e => e.code
  | .call e => e.code
  | .encoding e => e.code
  | .solverUnavailable => "shapecheck::verify::solver_unavailable"

/-- Advice, for the errors that have some. -/
def help? : Error → Option String
  | .encoding e => some e.help
  | .solverUnavailable => some "rebuild with `--features shapecheck-verify/z3`"
  | _ => none

end Error

end TensorShape
