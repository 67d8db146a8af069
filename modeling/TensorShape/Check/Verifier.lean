import TensorShape.CallGraph.Inlining
import TensorShape.Check.Query
import TensorShape.Error
import TensorShape.Logic.Settings

/-!
# TensorShape.Check.Verifier

Answers to questions about programs. A verifier may come without a solver; it then answers nothing,
but errors in the call graph are still found first.
-/

namespace TensorShape

inductive Verdict where
  /-- The goals follow from the assumptions. -/
  | verified
  /-- Ranks and extents that meet the assumptions and miss a goal. -/
  | counterexample (w : Witness)
  /-- The solver gave up, or a goal cannot be put to it. -/
  | inconclusive (reason : String)
deriving DecidableEq

inductive Consistency where
  | consistent (w : Witness)
  /-- The facts cannot hold together. Those of a function are the facts of all its blocks, also of
  blocks that no execution passes both of. -/
  | contradictory
  | unknown (reason : String)
deriving DecidableEq

structure Verifier where
  solver? : Option Solver
  /-- Are the laws of shapes on? -/
  shapeLaws : Bool

namespace Verifier

/-- A verifier without a solver. -/
def unavailable : Verifier := ⟨none, true⟩

def ofSettings (solver : Solver) (s : Settings) : Verifier := ⟨some solver, s.shapeLaws⟩

/-- Put a question to the solver. -/
def ask (solver : Solver) (q : Query) : Report Error Answer := do
  let answer := solver q.assertions
  Report.log (.checked answer.result)
  return answer

/-- The witness in an answer. It is empty, and the log says so, if the solver found that there is a
model and handed out none. -/
def witnessOf (enc : Encoder) : Option Model → Report Error Witness
  | some m => return enc.witness m
  | none => do
    Report.log .modelMissing
    return .empty

/-- The reason in an answer. -/
def reasonOf (reason? : Option String) : String := reason?.getD "unknown"

/-- Do the goals hold whenever the assumptions do? -/
def verify (v : Verifier) (assumptions goals : List Value) : Report Error Verdict :=
  match v.solver? with
  | none => Report.fail .solverUnavailable
  | some solver => do
    Report.logAll (droppedEvents assumptions)
    match Query.entailment v.shapeLaws assumptions goals with
    | .error e => return .inconclusive e.message
    | .ok q =>
      Report.log (.verifying q.premises.length (q.goals.getD []).length)
      match ← ask solver q with
      | .unsat => return .verified
      | .sat model? => return .counterexample (← witnessOf q.encoder model?)
      | .unknown reason? => return .inconclusive (reasonOf reason?)

/-- Can all facts hold at once? -/
def checkConsistency (v : Verifier) (facts : List Value) : Report Error Consistency :=
  match v.solver? with
  | none => Report.fail .solverUnavailable
  | some solver => do
    Report.logAll (droppedEvents facts)
    let q := Query.consistency v.shapeLaws facts
    Report.log (.checkingConsistency q.premises.length)
    match ← ask solver q with
    | .unsat => return .contradictory
    | .sat model? => return .consistent (← witnessOf q.encoder model?)
    | .unknown reason? => return .unknown (reasonOf reason?)

/-- Can all facts of a function hold at once, with its calls filled in? -/
def checkFunction (v : Verifier) (env : Environment) (function : String) :
    Report Error Consistency := do
  let facts ← (env.instantiate function).mapError Error.call
  v.checkConsistency facts

end Verifier

end TensorShape
