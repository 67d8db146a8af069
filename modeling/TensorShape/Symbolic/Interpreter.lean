import TensorShape.Program.Function
import TensorShape.Report
import TensorShape.Symbolic.Builtin

/-!
# TensorShape.Symbolic.Interpreter

Running a block on symbolic values.

A statement has one `Effect`, which depends on the valuation alone: it assigns values to its result
registers, emits a constraint, or does nothing. `effect` computes it, `State.perform` carries it out,
`Effect.events` is what the log says of it, and `step` is the two together. A failed step changes
nothing.
-/

namespace TensorShape

/-- What is known of each register; a register that is not bound is unknown. -/
abbrev Valuation := Table Register Value

namespace Valuation

/-- Bind a register, or forget it. -/
def set (v : Valuation) (r : Register) : Option Value → Valuation
  | some x => v.insert r x
  | none => v.erase r

/-- Set several registers, one after the other. -/
def setAll (v : Valuation) (bindings : List (Register × Option Value)) : Valuation :=
  bindings.foldl (fun v p => v.set p.1 p.2) v

/-- What the log says of setting a register: only that it was bound. -/
def setEvents (r : Register) : Option Value → List Event
  | some x => [.bound r x]
  | none => []

@[simp] theorem get?_set (v : Valuation) (r : Register) (x : Option Value) (r' : Register) :
    (v.set r x).get? r' = if r = r' then x else v.get? r' := by
  cases x <;> simp [set]

end Valuation

/-! ## Effects -/

inductive Effect where
  | nothing
  /-- Give each result register its value, or forget it. -/
  | assign (values : List (Option Value))
  | emit (c : Constraint)
  /-- A check of a register of which nothing is known. -/
  | lostCheck (r : Register)
deriving DecidableEq

/-- The assignment of known results, if results are known. -/
def Effect.ofResults : Option (List (Option Value)) → Effect
  | some values => .assign values
  | none => .nothing

/-- The effect of a call: of a library function its results, of `check` the constraint that its
argument holds, and of any other function the constraint that the call took place. -/
def callEffect (v : Valuation) (results : List Register) (callee : Register)
    (args : List Register) : Except StepError Effect :=
  match v.get? callee with
  | none => .ok .nothing
  | some (.functionRef name) =>
    match results with
    | [result] => .ok (.emit (.call name result args))
    | _ => .error (.callResultArity name results.length)
  | some (.builtinRef .check) =>
    match args with
    | [condition] =>
      match v.get? condition with
      | some x => .ok (.emit (.holds x))
      | none => .ok (.lostCheck condition)
    | _ => .error (.builtinArity .check 1 args.length)
  | some (.builtinRef b) => (b.interpretCall args (args.map v.get?)).map .ofResults
  | some value => .error (.nonFunctionCallee callee value)

/-- The effect of a statement before the number of its results is compared with the number of
registers that take them. -/
def rawEffect (v : Valuation) (s : Statement) : Except StepError Effect :=
  match s.instruction with
  | .integerLiteral ty value =>
    match ty.builtinMember? with
    | some member => .ok (if isIntegerType member then .assign [some (.int value)] else .nothing)
    | none => .ok .nothing
  | .builtin name operands _ =>
    let values := operands.map fun o => v.get? o.value
    .ok (.ofResults ((interpretOperation name values).map (·.map some)))
  | .functionRef name _ =>
    match Builtin.ofSymbol? name with
    | some b => .ok (.assign [some (.builtinRef b)])
    | none => .ok (.assign [some (.functionRef name)])
  | .apply callee args => callEffect v s.results callee args
  | .beginApply callee args => callEffect v s.results callee args
  | .aggregate ty operands =>
    if ty.nominalName? = some "Bool" ∨ ty.nominalName? = some "Int" then
      .ok (.assign (operands.map fun o => v.get? o.value))
    else .ok .nothing
  | .extract operand field =>
    if field.is ["Int", "_value"] then .ok (.assign [v.get? operand.value]) else .ok .nothing
  | .endApply _ => .ok .nothing
  | .other .. => .ok .nothing

/-- The effect of a statement. -/
def effect (v : Valuation) (s : Statement) : Except StepError Effect :=
  match rawEffect v s with
  | .ok (.assign values) =>
    if values.length = s.results.length then .ok (.assign values)
    else .error (.resultArity s.instruction.opcode values.length s.results.length)
  | x => x

/-- What the log says of an effect on the given result registers. -/
def Effect.events (results : List Register) : Effect → List Event
  | .assign values => (results.zip values).flatMap fun p => Valuation.setEvents p.1 p.2
  | .lostCheck r => [.checkLost r]
  | _ => []

/-! ## Steps -/

/-- An interpreter: what is known, and the constraints emitted so far. -/
structure State where
  valuation : Valuation
  constraints : List Constraint
deriving DecidableEq, Inhabited

namespace State

def start : State := ⟨∅, []⟩

/-- Carry out an effect on the given result registers. -/
def perform (st : State) (results : List Register) : Effect → State
  | .assign values => { st with valuation := st.valuation.setAll (results.zip values) }
  | .emit c => { st with constraints := st.constraints ++ [c] }
  | _ => st

/-- Interpret one statement. -/
def step (st : State) (s : Statement) : Except StepError State :=
  (effect st.valuation s).map (st.perform s.results)

/-- Interpret one statement, with its log. -/
def stepReport (st : State) (s : Statement) : Report StepError State := do
  let e ← Report.ofExcept (effect st.valuation s)
  Report.logAll (e.events s.results)
  return st.perform s.results e

/-- Interpret statements in order, up to the first error. -/
def run (st : State) (statements : List Statement) : Report StepError State :=
  statements.foldlM stepReport st

theorem outcome_stepReport (st : State) (s : Statement) :
    (st.stepReport s).outcome = st.step s := by
  simp only [stepReport, step, Report.outcome_bind, Report.outcome_ofExcept]
  cases effect st.valuation s <;> rfl

end State

/-- The constraints of a block. It starts with nothing known, and only its constraints are kept. -/
def Block.constraints (b : Block) : Report StepError (List Constraint) := do
  let st ← State.start.run b.statements
  return st.constraints

end TensorShape
