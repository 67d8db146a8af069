import TensorShape.Program.Ty

/-!
# TensorShape.Program.Instruction

Instructions of a basic block. An instruction reads registers; a statement (`InstructionDef`) gives
the registers that hold its results, and a declaration is referred to by its path (`DeclRef`). The
analysis models literals, comparisons, calls and the two shapes of aggregate that carry integers and
booleans; everything else is kept as `other`.
-/

namespace TensorShape

/-- The name of a value. A block defines a register at most once; another block may reuse it. -/
abbrev Register := String

/-- A register that is read, with the type it is read at. -/
structure Operand where
  value : Register
  ty : Ty
deriving DecidableEq, Inhabited

/-- A declaration by its qualified path, such as `Int`, `_value`. -/
structure DeclPath where
  path : List String
deriving DecidableEq, Inhabited

/-- Is this the declaration with that path? -/
def DeclPath.is (d : DeclPath) (path : List String) : Bool := d.path = path

inductive Instruction where
  /-- An integer literal of the given type. -/
  | integerLiteral (ty : Ty) (value : Int64)
  /-- A low-level operation by name, such as `cmp_eq_Int64`. -/
  | builtin (name : String) (operands : List Operand) (ty : Ty)
  /-- A reference to a function by its name. -/
  | functionRef (name : String) (ty : Ty)
  /-- A call of the function held in `callee`. -/
  | apply (callee : Register) (args : List Register)
  /-- The start of a coroutine call; its last result is the token that ends it. -/
  | beginApply (callee : Register) (args : List Register)
  /-- The end of the coroutine call that `token` stands for. -/
  | endApply (token : Register)
  /-- The construction of an aggregate. -/
  | aggregate (ty : Ty) (operands : List Operand)
  /-- A field of an aggregate. -/
  | extract (operand : Operand) (field : DeclPath)
  /-- An instruction the analysis knows nothing of. -/
  | other (opcode : String) (operands : List Register)
deriving DecidableEq, Inhabited

namespace Instruction

def opcode : Instruction → String
  | .integerLiteral .. => "integer_literal"
  | .builtin .. => "builtin"
  | .functionRef .. => "function_ref"
  | .apply .. => "apply"
  | .beginApply .. => "begin_apply"
  | .endApply .. => "end_apply"
  | .aggregate .. => "struct"
  | .extract .. => "struct_extract"
  | .other opcode _ => opcode

/-- The registers an instruction reads. -/
def reads : Instruction → List Register
  | .integerLiteral .. => []
  | .builtin _ operands _ => operands.map Operand.value
  | .functionRef .. => []
  | .apply callee args => callee :: args
  | .beginApply callee args => callee :: args
  | .endApply token => [token]
  | .aggregate _ operands => operands.map Operand.value
  | .extract operand _ => [operand.value]
  | .other _ operands => operands

end Instruction

/-- An instruction and the registers its results go to. -/
structure Statement where
  results : List Register
  instruction : Instruction
deriving DecidableEq, Inhabited

end TensorShape
