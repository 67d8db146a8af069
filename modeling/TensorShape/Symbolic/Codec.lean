import TensorShape.Json
import TensorShape.Symbolic.Value

/-!
# TensorShape.Symbolic.Codec

Symbolic values and constraints as JSON.
-/

namespace TensorShape

open Json

namespace Builtin

def toJson (b : Builtin) : Json := .str b.name

def ofName? : String → Option Builtin
  | "Check" => some .check
  | "RankGetter" => some .rankGetter
  | "ShapeGetter" => some .shapeGetter
  | "ShapeSubscript" => some .shapeSubscript
  | _ => none

def ofJson? (j : Json) : Option Builtin :=
  match j.variant? with
  | some (case, none) => ofName? case
  | _ => none

end Builtin

namespace Value

def toJson : Value → Json
  | .int v => tagged "Int" (ofInt64 v)
  | .shapeOf r => tagged "ShapeOf" (.str r)
  | .rankOf r => tagged "RankOf" (.str r)
  | .dimOf axis r => tagged "DimOf" (.arr [ofInt64 axis, .str r])
  | .builtinRef b => tagged "BuiltinFunctionRef" b.toJson
  | .functionRef name => tagged "FunctionRef" (.str name)
  | .equals a b => tagged "Equals" (.arr [a.toJson, b.toJson])

def ofJson? : Json → Option Value
  | .obj [(case, data)] =>
    match case, data with
    | "Int", j => do some (.int (← j.int64?))
    | "ShapeOf", .str r => some (.shapeOf r)
    | "RankOf", .str r => some (.rankOf r)
    | "DimOf", .arr [axis, .str r] => do some (.dimOf (← axis.int64?) r)
    | "BuiltinFunctionRef", j => do some (.builtinRef (← Builtin.ofJson? j))
    | "FunctionRef", .str name => some (.functionRef name)
    | "Equals", .arr [a, b] => do some (.equals (← ofJson? a) (← ofJson? b))
    | _, _ => none
  | _ => none
termination_by structural j => j

end Value

namespace Constraint

def toJson : Constraint → Json
  | .holds v => tagged "Value" v.toJson
  | .call function result operands =>
    tagged "Apply" (.obj [("function", .str function), ("result", .str result),
      ("operands", ofStrings operands)])

def ofJson? (j : Json) : Option Constraint :=
  match j.variant? with
  | some ("Value", some data) => do some (.holds (← Value.ofJson? data))
  | some ("Apply", some data) =>
    match data.fields? ["function", "result", "operands"] with
    | some [function, result, operands] => do
      some (.call (← required string? function) (← required string? result)
        (← required (listOf? string?) operands))
    | _ => none
  | _ => none

end Constraint

end TensorShape
