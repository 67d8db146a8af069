import TensorShape.Symbolic.Interpreter

/-!
# TensorShape.Symbolic.Machine

The interpreter as a machine that is changed in place, statement by statement, also past errors.

What a machine does is an `Action`. It may stop with an error, and what was done before the error
stays done. A call emits its constraint, or reports a lost check, while the results of the statement
are looked for; only then their number is compared with the number of registers that take them, and
the registers are written one after the other. `Machine.execute` is one statement, and
`Machine.executeAll` goes on past errors.
-/

namespace TensorShape

/-- An interpreter at work, and its log. -/
structure Machine where
  state : State
  log : List Event

namespace Machine

def start : Machine := ⟨.start, []⟩

/-- Something that a machine does; an error does not undo it. -/
abbrev Action := EStateM StepError Machine

/-! ## What a machine can do -/

/-- Look up what is known of a register. -/
def read (r : Register) : Action (Option Value) := do
  return (← get).state.valuation.get? r

/-- Bind a register, or forget it. -/
def write (r : Register) (x : Option Value) : Action Unit :=
  modify fun m =>
    ⟨{ m.state with valuation := m.state.valuation.set r x }, m.log ++ Valuation.setEvents r x⟩

def emit (c : Constraint) : Action Unit :=
  modify fun m => { m with state.constraints := m.state.constraints ++ [c] }

def report (e : Event) : Action Unit :=
  modify fun m => { m with log := m.log ++ [e] }

/-! ## Statements -/

/-- Look for the results of a library function other than `check`. -/
def callLibrary (b : Builtin) (args : List Register) : Action (Option (List (Option Value))) := do
  match b.interpretCall args (← args.mapM read) with
  | .ok slots => return slots
  | .error e => throw e

/-- Carry out a call. Gives a slot for each result, if anything is known of the results. -/
def call (results : List Register) (callee : Register) (args : List Register) :
    Action (Option (List (Option Value))) := do
  match ← read callee with
  | none => return none
  | some (.functionRef name) =>
    match results with
    | [result] =>
      emit (.call name result args)
      return none
    | _ => throw (.callResultArity name results.length)
  | some (.builtinRef .check) =>
    match args with
    | [condition] =>
      match ← read condition with
      | some x => emit (.holds x)
      | none => report (.checkLost condition)
      return none
    | _ => throw (.builtinArity .check 1 args.length)
  | some (.builtinRef b) => callLibrary b args
  | some value => throw (.nonFunctionCallee callee value)

/-- Find the results of a statement: a slot for each, if anything is known of them. -/
def findResults (s : Statement) : Action (Option (List (Option Value))) :=
  match s.instruction with
  | .integerLiteral ty value =>
    match ty.builtinMember? with
    | some member => return if isIntegerType member then some [some (.int value)] else none
    | none => return none
  | .builtin name operands _ => do
    let values ← operands.mapM fun o => read o.value
    return (interpretOperation name values).map (·.map some)
  | .functionRef name _ =>
    match Builtin.ofSymbol? name with
    | some b => return some [some (.builtinRef b)]
    | none => return some [some (.functionRef name)]
  | .apply callee args => call s.results callee args
  | .beginApply callee args => call s.results callee args
  | .aggregate ty operands =>
    if ty.nominalName? = some "Bool" ∨ ty.nominalName? = some "Int" then do
      return some (← operands.mapM fun o => read o.value)
    else return none
  | .extract operand field =>
    if field.is ["Int", "_value"] then do return some [← read operand.value] else return none
  | .endApply _ => return none
  | .other .. => return none

/-- Execute a statement. -/
def execute (s : Statement) : Action Unit := do
  match ← findResults s with
  | none => return ()
  | some values =>
    if values.length = s.results.length then
      (s.results.zip values).forM fun p => write p.1 p.2
    else throw (.resultArity s.instruction.opcode values.length s.results.length)

/-- The machine that an action leaves, whether it failed or not. -/
def leftBy : EStateM.Result StepError Machine Unit → Machine
  | .ok _ m => m
  | .error _ m => m

/-- Execute statements one after the other, also past errors. -/
def executeAll (m : Machine) (statements : List Statement) : Machine :=
  statements.foldl (fun m s => leftBy ((execute s).run m)) m

end Machine

end TensorShape
