import TensorShape.Symbolic.Value
import TensorShape.Table

/-!
# TensorShape.CallGraph.Summary

What the analysis learned of one function (`FunctionSummary`): its parameters, the registers it
returns, and the constraints of its blocks under function-wide names.
-/

namespace TensorShape

structure Summary where
  name : String
  params : List Register
  returns : List Register
  constraints : List Constraint
deriving DecidableEq, Inhabited

/-- The functions a summary calls, each once, in order. -/
def Summary.callees (s : Summary) : NameSet :=
  .ofList (s.constraints.filterMap Constraint.callee?)

/-- Why the calls of a function cannot be filled in. -/
inductive CallError where
  | unknownFunction (function : String)
  | arityMismatch (callee : String) (expected got : Nat)
deriving DecidableEq

namespace CallError

def message : CallError → String
  | .unknownFunction function => s!"function '{function}' has no summary"
  | .arityMismatch callee expected got =>
    s!"call of '{callee}' passes {got} operand(s) to {expected} parameter(s)"

/-- The code under which an error is reported. -/
def code : CallError → String
  | .unknownFunction .. => "shapecheck::verify::unknown_function"
  | .arityMismatch .. => "shapecheck::verify::arity_mismatch"

end CallError

end TensorShape
