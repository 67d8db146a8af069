import TensorShape.Program.Function

/-!
# TensorShape.Program.WellFormed

What the analysis relies on: every function stands under its name, has a block, has distinct block
labels, branches only to its own blocks, and no block defines a register twice.

`Function.WellFormed` and `Module.WellFormed` say so; `flaw?` finds the first violation, functions
in key order, labels before blocks, and within a block registers before branches.
-/

namespace TensorShape

/-! ## Flaws -/

/-- A way in which a program is not well formed. -/
inductive Flaw where
  | nameMismatch (key name : String)
  | noBlocks (function : String)
  | duplicateBlock (function label : String)
  | missingBlock (function target : String)
  | duplicateRegister (function block register : String)
deriving DecidableEq

namespace Flaw

def message : Flaw → String
  | .nameMismatch key name => s!"function key '{key}' mismatches Function.name='{name}'"
  | .noBlocks function => s!"function '{function}' has no blocks"
  | .duplicateBlock function label => s!"function '{function}' has duplicate block label '{label}'"
  | .missingBlock function target => s!"function '{function}' branches to missing block '{target}'"
  | .duplicateRegister function block register =>
    s!"block '{block}' of function '{function}' defines register '{register}' more than once"

/-- The code under which a flaw is reported. -/
def code : Flaw → String
  | .nameMismatch .. => "shapecheck::ir::name_mismatch"
  | .noBlocks .. => "shapecheck::ir::no_blocks"
  | .duplicateBlock .. => "shapecheck::ir::duplicate_block"
  | .missingBlock .. => "shapecheck::ir::missing_block"
  | .duplicateRegister .. => "shapecheck::ir::duplicate_register"

end Flaw

/-! ## Well-formed programs -/

structure Function.WellFormed (f : Function) : Prop where
  blocks_ne_nil : f.blocks ≠ []
  labels_nodup : f.labels.Nodup
  targets_mem : ∀ b ∈ f.blocks, ∀ t ∈ b.terminator.targets, t ∈ f.labels
  registers_nodup : ∀ b ∈ f.blocks, b.definedRegisters.Nodup

structure Module.WellFormed (m : Module) : Prop where
  key_eq_name : ∀ p ∈ m.functions.entries, p.1 = p.2.name
  function : ∀ p ∈ m.functions.entries, p.2.WellFormed

/-! ## Finding a flaw -/

/-- The first element of a list that is in `seen` or repeats an earlier one. -/
def firstRepeatedFrom (seen : List String) : List String → Option String
  | [] => none
  | x :: xs => if x ∈ seen then some x else firstRepeatedFrom (x :: seen) xs

def firstRepeated (l : List String) : Option String := firstRepeatedFrom [] l

/-- The registers that are looked at for repetitions: the value of each argument, then each result
of each statement. -/
def Block.listedRegisters (b : Block) : List Register :=
  (b.arguments.map fun a => a.value) ++ b.statements.flatMap fun s => s.results

/-- Those are the registers that the block defines. -/
theorem Block.listedRegisters_eq (b : Block) : b.listedRegisters = b.definedRegisters := rfl

/-- The first flaw of a block of `f`. -/
def Function.blockFlaw? (f : Function) (b : Block) : Option Flaw :=
  match firstRepeated b.listedRegisters with
  | some r => some (.duplicateRegister f.name b.label r)
  | none => (b.terminator.targets.find? fun t => t ∉ f.labels).map (.missingBlock f.name)

/-- The first flaw of a function. -/
def Function.flaw? (f : Function) : Option Flaw :=
  if f.blocks = [] then some (.noBlocks f.name)
  else
    match firstRepeated f.labels with
    | some label => some (.duplicateBlock f.name label)
    | none => f.blocks.findSome? f.blockFlaw?

/-- The first flaw of a module, in the order of its keys. -/
def Module.flaw? (m : Module) : Option Flaw :=
  m.functions.entries.findSome? fun p =>
    if p.2.name ≠ p.1 then some (.nameMismatch p.1 p.2.name) else p.2.flaw?

end TensorShape
