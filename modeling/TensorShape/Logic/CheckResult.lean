/-!
# TensorShape.Logic.CheckResult

What a satisfiability check can come to (`SatResult`).
-/

namespace TensorShape

inductive CheckResult where
  | sat
  | unsat
  | unknown
deriving DecidableEq, Inhabited

def CheckResult.name : CheckResult → String
  | .sat => "Sat"
  | .unsat => "Unsat"
  | .unknown => "Unknown"

end TensorShape
