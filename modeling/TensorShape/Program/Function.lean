import TensorShape.Program.Instruction
import TensorShape.Table

/-!
# TensorShape.Program.Function

Blocks, functions and modules.

A register belongs to the block that defines it, so one name may stand for different values in
different blocks. `Function.scope` gives every register of a block a name that is good for the whole
function: the entry block keeps its names, and a later block that defines a name some other block
defines too speaks of it as `label::register`.
-/

namespace TensorShape

inductive Terminator where
  | ret (operand : Operand)
  | branch (target : String) (args : List Register)
  | condBranch (condition : Register) (thenTarget elseTarget : String)
  | unreachable
deriving DecidableEq, Inhabited

namespace Terminator

/-- The labels control may go to, in order. -/
def targets : Terminator → List String
  | .ret _ => []
  | .branch target _ => [target]
  | .condBranch _ thenTarget elseTarget => [thenTarget, elseTarget]
  | .unreachable => []

/-- The register a terminator returns. -/
def returned? : Terminator → Option Register
  | .ret operand => some operand.value
  | _ => none

end Terminator

structure Block where
  label : String
  arguments : List Operand
  statements : List Statement
  terminator : Terminator
deriving DecidableEq, Inhabited

/-- The registers a block defines: its arguments, then the results of its statements. -/
def Block.definedRegisters (b : Block) : List Register :=
  b.arguments.map Operand.value ++ b.statements.flatMap Statement.results

structure Function where
  name : String
  blocks : List Block
deriving DecidableEq, Inhabited

namespace Function

/-- The block where execution begins. -/
def entry? (f : Function) : Option Block := f.blocks.head?

/-- The parameters are the arguments of the entry block. -/
def params (f : Function) : List Register :=
  match f.entry? with
  | some b => b.arguments.map Operand.value
  | none => []

def labels (f : Function) : List String := f.blocks.map Block.label

/-- Does a block other than the one at `index` define the register? -/
def definedElsewhere (f : Function) (index : Nat) (r : Register) : Bool :=
  f.blocks.zipIdx.any fun p => p.2 != index && p.1.definedRegisters.contains r

/-- The function-wide name of a register of the block at `index`. -/
def scope (f : Function) (index : Nat) (r : Register) : Register :=
  match f.blocks[index]? with
  | none => r
  | some b =>
    if index ≠ 0 ∧ r ∈ b.definedRegisters ∧ f.definedElsewhere index r = true then
      b.label ++ "::" ++ r
    else r

/-- The function-wide names of the registers the function returns, in block order, each once. -/
def returnedRegisters (f : Function) : List Register :=
  (f.blocks.zipIdx.filterMap fun p => p.1.terminator.returned?.map (f.scope p.2)).eraseDups

end Function

/-- Functions by key. In a well-formed module the key of a function is its name. -/
structure Module where
  functions : Table String Function
deriving DecidableEq, Inhabited

namespace Module

def empty : Module := ⟨∅⟩

/-- Add a function under its own name, over one that was there. -/
def insert (m : Module) (f : Function) : Module := ⟨m.functions.insert f.name f⟩

end Module

end TensorShape
