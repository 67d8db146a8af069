import TensorShape.Symbolic.Value

/-!
# TensorShape.Symbolic.Builtin

The meaning of builtin operations and of calls into the tensor library, on symbolic values. Where
the values are not known well enough the answer is that nothing is known; a call with the wrong
number of arguments is an error, because the number is part of the library's interface.
-/

namespace TensorShape

/-- A statement that no well-typed program contains: going on after it would make up facts. -/
inductive StepError where
  | resultArity (opcode : String) (produced declared : Nat)
  | callResultArity (function : String) (results : Nat)
  | builtinArity (builtin : Builtin) (expected got : Nat)
  | nonFunctionCallee (register : Register) (value : Value)
  /-- A call of `check` has no value: it is turned into a constraint instead. -/
  | checkNotIntercepted
deriving DecidableEq

namespace StepError

def message : StepError → String
  | .resultArity opcode produced declared =>
    s!"{opcode}: produced {produced} value(s) for {declared} declared result(s)"
  | .callResultArity function results =>
    s!"call of '{function}' must declare exactly one result, found {results}"
  | .builtinArity builtin expected got =>
    builtin.name ++ s!" expects {expected} argument(s), got {got}"
  | .nonFunctionCallee register value =>
    "calling non-function value " ++ value.text ++ s!" held in '{register}'"
  | .checkNotIntercepted => "check calls must be intercepted before builtin dispatch"

/-- The code under which an error is reported. -/
def code : StepError → String
  | .resultArity .. => "shapecheck::frontend::result_arity"
  | .callResultArity .. => "shapecheck::frontend::call_result_arity"
  | .builtinArity .. => "shapecheck::frontend::builtin_arity"
  | .nonFunctionCallee .. => "shapecheck::frontend::non_function_callee"
  | .checkNotIntercepted => "shapecheck::frontend::check_not_intercepted"

end StepError

/-- The builtin integer types whose literals are followed; `Int1` holds truth values. -/
def integerTypes : List String := ["Int1", "Int16", "Int32", "Int64", "Word"]

def isIntegerType (name : String) : Bool := integerTypes.contains name

namespace Builtin

/-- The library function that a symbol names. -/
def ofSymbol? : String → Option Builtin
  | "check" => some .check
  | "$s10TensorFlow0A0V5shapeAA0A5ShapeVvg" => some .shapeGetter
  | "$s10TensorFlow0A5ShapeVyS2icir" => some .shapeSubscript
  | "$s10TensorFlow0A0V4rankSivg" => some .rankGetter
  | _ => none

/-- The results of a call of a library function other than `check`, given its arguments and what is
known of them: one slot per result, or `none` if nothing is known. The subscript yields the extent
and, without a value, the token of its coroutine. -/
def interpretCall (b : Builtin) (args : List Register) (values : List (Option Value)) :
    Except StepError (Option (List (Option Value))) :=
  match b, args with
  | .shapeGetter, [tensor] => .ok (some [some (.shapeOf tensor)])
  | .shapeGetter, _ => .error (.builtinArity .shapeGetter 1 args.length)
  | .rankGetter, [tensor] => .ok (some [some (.rankOf tensor)])
  | .rankGetter, _ => .error (.builtinArity .rankGetter 1 args.length)
  | .shapeSubscript, [_, _] =>
    match values with
    | some (.int axis) :: some (.shapeOf tensor) :: _ =>
      .ok (some [some (.dimOf axis tensor), none])
    | _ => .ok none
  | .shapeSubscript, _ => .error (.builtinArity .shapeSubscript 2 args.length)
  | .check, _ => .error .checkNotIntercepted

end Builtin

/-- The results of a builtin operation, if they are known: only the comparison of two integers for
equality is modelled. -/
def interpretOperation (name : String) (operands : List (Option Value)) : Option (List Value) :=
  match name, operands with
  | "cmp_eq_Int64", [some a, some b] => some [.equals a b]
  | _, _ => none

end TensorShape
