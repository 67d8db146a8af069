/-!
# TensorShape.Program.Ty

Types of the values a program computes (`Type`), their text, and the two questions the analysis asks
of a type: is it a builtin, and is it a plain named type?
-/

namespace TensorShape

inductive Ty where
  /-- A type by its name, such as `Int`, `Bool` or `Tensor`. -/
  | named (name : String)
  /-- A member of a namespace, such as `Builtin.Int64`. -/
  | select (base : Ty) (member : String)
  /-- A generic type with its arguments, such as `Tensor<Float>`. -/
  | generic (base : Ty) (args : List Ty)
  | function (params : List Ty) (result : Ty)
  | tuple (items : List Ty)
deriving Inhabited

namespace Ty

/-- The type `Builtin.member`. -/
def builtin (member : String) : Ty := .select (.named "Builtin") member

/-- The member, if the type is `Builtin.member`. -/
def builtinMember? : Ty → Option String
  | .select (.named base) member => if base = "Builtin" then some member else none
  | _ => none

/-- The name of a type that is nothing but a name. -/
def nominalName? : Ty → Option String
  | .named name => some name
  | _ => none

/-! ## Text -/

mutual

/-- A type as it is written: arguments in angle brackets, parameters and tuples in parentheses. -/
def text : Ty → String
  | .named name => name
  | .select base member => base.text ++ "." ++ member
  | .generic base args => base.text ++ "<" ++ ", ".intercalate (texts args) ++ ">"
  | .function params result => "(" ++ ", ".intercalate (texts params) ++ ") -> " ++ result.text
  | .tuple items => "(" ++ ", ".intercalate (texts items) ++ ")"

def texts : List Ty → List String
  | [] => []
  | t :: ts => t.text :: texts ts

end

/-! ## Equality -/

mutual

/-- Are two types the same? -/
def same : Ty → Ty → Bool
  | .named a, .named b => a == b
  | .select a m, .select b n => a.same b && m == n
  | .generic a as, .generic b bs => a.same b && sameList as bs
  | .function as a, .function bs b => sameList as bs && a.same b
  | .tuple as, .tuple bs => sameList as bs
  | _, _ => false

def sameList : List Ty → List Ty → Bool
  | [], [] => true
  | a :: as, b :: bs => a.same b && sameList as bs
  | _, _ => false

end

mutual

theorem same_iff : ∀ a b : Ty, a.same b = true ↔ a = b
  | .named a, b => by cases b <;> simp [same]
  | .select a m, b => by cases b <;> simp [same, same_iff a]
  | .generic a as, b => by cases b <;> simp [same, same_iff a, sameList_iff as]
  | .function as a, b => by cases b <;> simp [same, same_iff a, sameList_iff as]
  | .tuple as, b => by cases b <;> simp [same, sameList_iff as]

theorem sameList_iff : ∀ as bs : List Ty, sameList as bs = true ↔ as = bs
  | [], bs => by cases bs <;> simp [sameList]
  | a :: as, bs => by cases bs <;> simp [sameList, same_iff a, sameList_iff as]

end

instance : DecidableEq Ty := fun a b => decidable_of_iff _ (same_iff a b)

end Ty

end TensorShape
