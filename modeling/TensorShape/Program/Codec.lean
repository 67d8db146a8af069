import TensorShape.Json
import TensorShape.Program.Function

/-!
# TensorShape.Program.Codec

Programs as JSON. Each type has a writer `toJson` and a reader `ofJson?`; the reader accepts what
the writer produces and, for records, the array form and left-off fields too.
-/

namespace TensorShape

open Json

/-! ## Types -/

namespace Ty

mutual

def toJson : Ty → Json
  | .named name => tagged "Named" (.str name)
  | .select base member => tagged "Select" (.arr [base.toJson, .str member])
  | .generic base args => tagged "Generic" (.arr [base.toJson, .arr (toJsonList args)])
  | .function params result => tagged "Function" (.arr [.arr (toJsonList params), result.toJson])
  | .tuple items => tagged "Tuple" (.arr (toJsonList items))

def toJsonList : List Ty → List Json
  | [] => []
  | t :: ts => t.toJson :: toJsonList ts

end

mutual

def ofJson? : Json → Option Ty
  | .obj [(case, data)] =>
    match case, data with
    | "Named", .str name => some (.named name)
    | "Select", .arr [base, .str member] => do some (.select (← ofJson? base) member)
    | "Generic", .arr [base, .arr args] => do some (.generic (← ofJson? base) (← ofJsonList? args))
    | "Function", .arr [.arr params, result] => do
      some (.function (← ofJsonList? params) (← ofJson? result))
    | "Tuple", .arr items => do some (.tuple (← ofJsonList? items))
    | _, _ => none
  | _ => none
termination_by structural j => j

def ofJsonList? : List Json → Option (List Ty)
  | [] => some []
  | j :: js => do some ((← ofJson? j) :: (← ofJsonList? js))
termination_by structural js => js

end

end Ty

/-! ## Instructions -/

namespace Operand

def toJson (o : Operand) : Json := .obj [("value", .str o.value), ("ty", o.ty.toJson)]

def ofJson? (j : Json) : Option Operand :=
  match j.record? ["value", "ty"] with
  | some [value, ty] => do some ⟨← required string? value, ← required Ty.ofJson? ty⟩
  | _ => none

end Operand

namespace DeclPath

def toJson (d : DeclPath) : Json := .obj [("path", ofStrings d.path)]

def ofJson? (j : Json) : Option DeclPath :=
  match j.record? ["path"] with
  | some [path] => do some ⟨← required (listOf? string?) path⟩
  | _ => none

end DeclPath

namespace Instruction

def operandsToJson (l : List Operand) : Json := .arr (l.map Operand.toJson)

def toJson : Instruction → Json
  | .integerLiteral ty value =>
    tagged "IntegerLiteral" (.obj [("ty", ty.toJson), ("value", ofInt64 value)])
  | .builtin name operands ty =>
    tagged "Builtin"
      (.obj [("name", .str name), ("operands", operandsToJson operands), ("ty", ty.toJson)])
  | .functionRef name ty => tagged "FunctionRef" (.obj [("name", .str name), ("ty", ty.toJson)])
  | .apply callee args => tagged "Apply" (.obj [("callee", .str callee), ("args", ofStrings args)])
  | .beginApply callee args =>
    tagged "BeginApply" (.obj [("callee", .str callee), ("args", ofStrings args)])
  | .endApply token => tagged "EndApply" (.obj [("token", .str token)])
  | .aggregate ty operands =>
    tagged "Struct" (.obj [("ty", ty.toJson), ("operands", operandsToJson operands)])
  | .extract operand field =>
    tagged "StructExtract" (.obj [("operand", operand.toJson), ("field", field.toJson)])
  | .other opcode operands =>
    tagged "Other" (.obj [("opcode", .str opcode), ("operands", ofStrings operands)])

/-- The data of an instruction of the given case. -/
def ofData? (case : String) (data : Json) : Option Instruction :=
  match case with
  | "IntegerLiteral" =>
    match data.fields? ["ty", "value"] with
    | some [ty, value] => do some (.integerLiteral (← required Ty.ofJson? ty) (← required int64? value))
    | _ => none
  | "Builtin" =>
    match data.fields? ["name", "operands", "ty"] with
    | some [name, operands, ty] => do
      some (.builtin (← required string? name) (← required (listOf? Operand.ofJson?) operands)
        (← required Ty.ofJson? ty))
    | _ => none
  | "FunctionRef" =>
    match data.fields? ["name", "ty"] with
    | some [name, ty] => do some (.functionRef (← required string? name) (← required Ty.ofJson? ty))
    | _ => none
  | "Apply" =>
    match data.fields? ["callee", "args"] with
    | some [callee, args] => do
      some (.apply (← required string? callee) (← required (listOf? string?) args))
    | _ => none
  | "BeginApply" =>
    match data.fields? ["callee", "args"] with
    | some [callee, args] => do
      some (.beginApply (← required string? callee) (← required (listOf? string?) args))
    | _ => none
  | "EndApply" =>
    match data.fields? ["token"] with
    | some [token] => do some (.endApply (← required string? token))
    | _ => none
  | "Struct" =>
    match data.fields? ["ty", "operands"] with
    | some [ty, operands] => do
      some (.aggregate (← required Ty.ofJson? ty) (← required (listOf? Operand.ofJson?) operands))
    | _ => none
  | "StructExtract" =>
    match data.fields? ["operand", "field"] with
    | some [operand, field] => do
      some (.extract (← required Operand.ofJson? operand) (← required DeclPath.ofJson? field))
    | _ => none
  | "Other" =>
    match data.fields? ["opcode", "operands"] with
    | some [opcode, operands] => do
      some (.other (← required string? opcode) (← required (listOf? string?) operands))
    | _ => none
  | _ => none

def ofJson? (j : Json) : Option Instruction :=
  match j.variant? with
  | some (case, some data) => ofData? case data
  | _ => none

end Instruction

namespace Statement

def toJson (s : Statement) : Json :=
  .obj [("results", ofStrings s.results), ("instruction", s.instruction.toJson)]

def ofJson? (j : Json) : Option Statement :=
  match j.record? ["results", "instruction"] with
  | some [results, instruction] => do
    some ⟨← optional (listOf? string?) [] results, ← required Instruction.ofJson? instruction⟩
  | _ => none

end Statement

/-! ## Blocks, functions, modules -/

namespace Terminator

def toJson : Terminator → Json
  | .ret operand => tagged "Return" operand.toJson
  | .branch target args => tagged "Branch" (.obj [("target", .str target), ("args", ofStrings args)])
  | .condBranch condition thenTarget elseTarget =>
    tagged "CondBranch" (.obj [("condition", .str condition), ("then_target", .str thenTarget),
      ("else_target", .str elseTarget)])
  | .unreachable => .str "Unreachable"

/-- The data of a terminator of the given case. -/
def ofData? (case : String) (data : Json) : Option Terminator :=
  match case with
  | "Return" => do some (.ret (← Operand.ofJson? data))
  | "Branch" =>
    match data.fields? ["target", "args"] with
    | some [target, args] => do
      some (.branch (← required string? target) (← optional (listOf? string?) [] args))
    | _ => none
  | "CondBranch" =>
    match data.fields? ["condition", "then_target", "else_target"] with
    | some [condition, thenTarget, elseTarget] => do
      some (.condBranch (← required string? condition) (← required string? thenTarget)
        (← required string? elseTarget))
    | _ => none
  | _ => none

def ofJson? (j : Json) : Option Terminator :=
  match j.variant? with
  | some (case, some data) => ofData? case data
  | some ("Unreachable", none) => some .unreachable
  | _ => none

end Terminator

namespace Block

def toJson (b : Block) : Json :=
  .obj [("label", .str b.label), ("arguments", .arr (b.arguments.map Operand.toJson)),
    ("instructions", .arr (b.statements.map Statement.toJson)),
    ("terminator", b.terminator.toJson)]

def ofJson? (j : Json) : Option Block :=
  match j.record? ["label", "arguments", "instructions", "terminator"] with
  | some [label, arguments, statements, terminator] => do
    some ⟨← required string? label, ← optional (listOf? Operand.ofJson?) [] arguments,
      ← required (listOf? Statement.ofJson?) statements, ← required Terminator.ofJson? terminator⟩
  | _ => none

end Block

namespace Function

def toJson (f : Function) : Json :=
  .obj [("name", .str f.name), ("blocks", .arr (f.blocks.map Block.toJson))]

def ofJson? (j : Json) : Option Function :=
  match j.record? ["name", "blocks"] with
  | some [name, blocks] => do
    some ⟨← required string? name, ← required (listOf? Block.ofJson?) blocks⟩
  | _ => none

end Function

namespace Module

def toJson (m : Module) : Json :=
  .obj [("functions", .obj (m.functions.entries.map fun p => (p.1, p.2.toJson)))]

def ofJson? (j : Json) : Option Module :=
  match j.record? ["functions"] with
  | some [functions] => do
    some ⟨Table.ofList (← required (entriesOf? Function.ofJson?) functions)⟩
  | _ => none

end Module

end TensorShape
