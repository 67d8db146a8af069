import TensorShape.CallGraph.Environment
import TensorShape.Error
import TensorShape.Symbolic.Interpreter

/-!
# TensorShape.CallGraph.Analysis

Summaries of functions and modules. Each block is interpreted on its own, from nothing, and its
constraints are put under function-wide names.

An `Analyzer` is changed in place, and what it has done before an error stays done: if a function of
a module cannot be interpreted, the summaries of those before it stay. A module is checked for flaws
before any of its functions is interpreted.
-/

namespace TensorShape

/-- The summary of a function, made of its own blocks alone. -/
def Function.summarize (f : Function) : Report StepError Summary := do
  let parts ← f.blocks.zipIdx.mapM fun p => do
    return (← p.1.constraints).map (Constraint.mapRegisters (f.scope p.2))
  let constraints := parts.flatten
  Report.log (.summarized f.name constraints.length)
  return ⟨f.name, f.params, f.returnedRegisters, constraints⟩

/-- An environment in the making, and the log. -/
structure Analyzer where
  environment : Environment
  log : List Event

namespace Analyzer

/-- Something that an analyzer does; an error does not undo it. -/
abbrev Action (ε : Type) := EStateM ε Analyzer

/-- Log what a computation logs, and go on with its result or stop with its error. -/
def follow {ε α : Type} (r : Report ε α) : Action ε α := do
  modify fun a => { a with log := a.log ++ r.events }
  match r.outcome with
  | .ok x => return x
  | .error e => throw e

def addSummary {ε : Type} (s : Summary) : Action ε Unit :=
  modify fun a => { a with environment := a.environment.addSummary s }

/-- Add the summary of a function. -/
def analyzeFunction (f : Function) : Action StepError Unit := do
  addSummary (← follow f.summarize)

/-- Add the summaries of functions, one after the other, up to the first that fails. -/
def analyzeFunctions (functions : List Function) : Action Error Unit :=
  functions.forM fun f => (analyzeFunction f).adaptExcept .step

/-- Stop if the module has a flaw. -/
def validate (m : Module) : Action Error Unit :=
  match m.flaw? with
  | some flaw => throw (.flaw flaw)
  | none => return ()

/-- Add the summaries of the functions of a well-formed module, in the order of their keys. -/
def analyzeModule (m : Module) : Action Error Unit := do
  validate m
  analyzeFunctions m.functions.values

end Analyzer

end TensorShape
