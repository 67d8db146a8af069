import TensorShape.Json
import TensorShape.Logic.CheckResult
import TensorShape.Symbolic.Value

/-!
# TensorShape.Event

The log of an analysis: what happened, in order, each event with its level, its message and its
fields.
-/

namespace TensorShape

inductive Level where
  | trace
  | debug
  | warn
deriving DecidableEq

def Level.name : Level → String
  | .trace => "trace"
  | .debug => "debug"
  | .warn => "warn"

inductive Event where
  /-- A register was bound to a value. -/
  | bound (register : Register) (value : Value)
  /-- Nothing is known of the register that a check asserts. -/
  | checkLost (register : Register)
  | summarized (function : String) (constraints : Nat)
  /-- A called function has no summary, so its call says nothing. -/
  | unknownCallee (caller callee : String)
  /-- A called function is already being expanded. -/
  | recursiveCall (caller callee : String)
  /-- A called function does not return one single register. -/
  | resultUnconstrained (callee : String) (returns : Nat)
  | contextCreated (proofs : Bool) (timeout : Option UInt64)
  /-- A fact cannot be put to the solver. -/
  | factDropped (fact : Value) (reason : String)
  | verifying (premises goals : Nat)
  | checkingConsistency (facts : Nat)
  | checked (result : CheckResult)
  /-- The solver found that there is a model, but handed out none. -/
  | modelMissing
deriving DecidableEq

namespace Event

def level : Event → Level
  | .bound .. => .trace
  | .checkLost .. | .recursiveCall .. | .factDropped .. | .modelMissing => .warn
  | _ => .debug

def message : Event → String
  | .bound .. => "valuation update"
  | .checkLost .. => "failed to recover a check"
  | .summarized .. => "function summarized"
  | .unknownCallee .. => "no summary for callee; call is opaque"
  | .recursiveCall .. => "recursive call skipped"
  | .resultUnconstrained .. => "call result left unconstrained"
  | .contextCreated .. => "z3 context created"
  | .factDropped .. => "fact dropped: cannot be lowered"
  | .verifying .. => "verifying"
  | .checkingConsistency .. => "checking consistency"
  | .checked .. => "z3 check"
  | .modelMissing => "satisfiable check produced no model; witness left empty"

def fields : Event → List (String × Json)
  | .bound register value => [("register", .str register), ("value", .str value.text)]
  | .checkLost register => [("register", .str register)]
  | .summarized function constraints =>
    [("function", .str function), ("constraints", .ofNat constraints)]
  | .unknownCallee caller callee => [("caller", .str caller), ("callee", .str callee)]
  | .recursiveCall caller callee => [("caller", .str caller), ("callee", .str callee)]
  | .resultUnconstrained callee returns => [("callee", .str callee), ("returns", .ofNat returns)]
  | .contextCreated proofs timeout =>
    let limit := match timeout with
      | none => "None"
      | some ms => "Some(" ++ toString ms.toNat ++ ")"
    [("proofs", .str (toString proofs)), ("timeout_ms", .str limit)]
  | .factDropped fact reason => [("fact", .str fact.text), ("error", .str reason)]
  | .verifying premises goals => [("premises", .ofNat premises), ("goals", .ofNat goals)]
  | .checkingConsistency facts => [("facts", .ofNat facts)]
  | .checked result => [("result", .str result.name)]
  | .modelMissing => []

/-- An event as a line of the log. -/
def toJson (e : Event) : Json := .arr [.str e.level.name, .str e.message, .obj e.fields]

end Event

end TensorShape
