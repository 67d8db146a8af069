import TensorShape.Program.Instruction

/-!
# TensorShape.Symbolic.Value

What the analysis knows of a register: a symbolic value, built from integers, the ranks, shapes and
extents of tensors, functions, and equalities between such values. What it collects along a block
are constraints (`FrontendConstraint`): a value that has to hold, or a call whose effect is filled
in later.
-/

namespace TensorShape

/-- The functions of the tensor library that the analysis gives a meaning to. -/
inductive Builtin where
  /-- The assertion function: its argument has to hold. -/
  | check
  | rankGetter
  | shapeGetter
  | shapeSubscript
deriving DecidableEq, Inhabited

def Builtin.name : Builtin → String
  | .check => "Check"
  | .rankGetter => "RankGetter"
  | .shapeGetter => "ShapeGetter"
  | .shapeSubscript => "ShapeSubscript"

inductive Value where
  /-- An integer; truth values are integers too. -/
  | int (v : Int64)
  /-- The shape of the tensor in a register. -/
  | shapeOf (r : Register)
  /-- The rank of the tensor in a register. -/
  | rankOf (r : Register)
  /-- The extent along one axis of the tensor in a register. -/
  | dimOf (axis : Int64) (r : Register)
  | builtinRef (b : Builtin)
  | functionRef (name : String)
  | equals (a b : Value)
deriving DecidableEq, Inhabited

namespace Value

def text : Value → String
  | .int v => toString v.toInt
  | .shapeOf r => s!"shape({r})"
  | .rankOf r => s!"rank({r})"
  | .dimOf axis r => "shape(" ++ r ++ ")[" ++ toString axis.toInt ++ "]"
  | .builtinRef b => "<builtin " ++ b.name ++ ">"
  | .functionRef name => "@" ++ name
  | .equals a b => "(" ++ a.text ++ " == " ++ b.text ++ ")"

/-- Rename every register by `f`. -/
def mapRegisters (f : Register → Register) : Value → Value
  | .int v => .int v
  | .shapeOf r => .shapeOf (f r)
  | .rankOf r => .rankOf (f r)
  | .dimOf axis r => .dimOf axis (f r)
  | .builtinRef b => .builtinRef b
  | .functionRef name => .functionRef name
  | .equals a b => .equals (a.mapRegisters f) (b.mapRegisters f)

/-- Rename every register by an action, from left to right. -/
def mapRegistersM {m : Type → Type} [Monad m] (f : Register → m Register) : Value → m Value
  | .int v => pure (.int v)
  | .shapeOf r => do return .shapeOf (← f r)
  | .rankOf r => do return .rankOf (← f r)
  | .dimOf axis r => do return .dimOf axis (← f r)
  | .builtinRef b => pure (.builtinRef b)
  | .functionRef name => pure (.functionRef name)
  | .equals a b => do
    let a ← a.mapRegistersM f
    let b ← b.mapRegistersM f
    return .equals a b

end Value

inductive Constraint where
  /-- The value has to hold. -/
  | holds (v : Value)
  /-- `result` is what `function` gives for `operands`. -/
  | call (function : String) (result : Register) (operands : List Register)
deriving DecidableEq, Inhabited

namespace Constraint

def text : Constraint → String
  | .holds v => "assert " ++ v.text
  | .call function result operands =>
    result ++ " = apply @" ++ function ++ "(" ++ ", ".intercalate operands ++ ")"

/-- Rename every register by `f`. -/
def mapRegisters (f : Register → Register) : Constraint → Constraint
  | .holds v => .holds (v.mapRegisters f)
  | .call function result operands => .call function (f result) (operands.map f)

/-- Rename every register by an action, the result of a call before its operands. -/
def mapRegistersM {m : Type → Type} [Monad m] (f : Register → m Register) :
    Constraint → m Constraint
  | .holds v => do return .holds (← v.mapRegistersM f)
  | .call function result operands => do
    let result ← f result
    return .call function result (← operands.mapM f)

/-- The function a constraint calls. -/
def callee? : Constraint → Option String
  | .holds _ => none
  | .call function _ _ => some function

end Constraint

end TensorShape
