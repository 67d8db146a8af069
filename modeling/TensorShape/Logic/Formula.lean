import TensorShape.Logic.Symbol

/-!
# TensorShape.Logic.Formula

Integer terms and formulas over integer unknowns and unknown integer sequences, their truth in a
model, and their SMT-LIB text.

Integers are unbounded. Division leaves a remainder that is never negative; a division by zero has
whatever value the model gives it.
-/

namespace TensorShape

inductive Term where
  | var (s : Symbol)
  | lit (n : Int)
  | add (a b : Term)
  | sub (a b : Term)
  | mul (a b : Term)
  | div (a b : Term)
  /-- The element of a sequence at an index. -/
  | item (s : Symbol) (index : Term)
deriving DecidableEq, Inhabited

inductive Formula where
  | const (b : Bool)
  | eq (a b : Term)
  | gt (a b : Term)
  | iff (a b : Formula)
  | not (a : Formula)
  | and (items : List Formula)
  | or (a b : Formula)
  | implies (a b : Formula)
deriving Inhabited

/-- The conjunction of a list of formulas; of none it is truth. -/
def Formula.conj : List Formula → Formula
  | [] => .const true
  | items => .and items

/-! ## Models -/

/-- Values for all unknowns: for a variable, for a sequence at each index, and for each number
divided by zero. -/
structure Model where
  int : Symbol → Int
  seq : Symbol → Int → Int
  divZero : Int → Int

def Term.eval (m : Model) : Term → Int
  | .var s => m.int s
  | .lit n => n
  | .add a b => a.eval m + b.eval m
  | .sub a b => a.eval m - b.eval m
  | .mul a b => a.eval m * b.eval m
  | .div a b => if b.eval m = 0 then m.divZero (a.eval m) else a.eval m / b.eval m
  | .item s index => m.seq s (index.eval m)

mutual

/-- Is the formula true in the model? -/
def Formula.eval (m : Model) : Formula → Bool
  | .const b => b
  | .eq a b => a.eval m = b.eval m
  | .gt a b => b.eval m < a.eval m
  | .iff a b => a.eval m == b.eval m
  | .not a => !a.eval m
  | .and items => Formula.evalAll m items
  | .or a b => a.eval m || b.eval m
  | .implies a b => !a.eval m || b.eval m

/-- Are all formulas of a list true in the model? -/
def Formula.evalAll (m : Model) : List Formula → Bool
  | [] => true
  | f :: fs => f.eval m && Formula.evalAll m fs

end

/-- A model of a list of formulas makes all of them true. -/
def Model.Satisfies (m : Model) (fs : List Formula) : Prop := ∀ f ∈ fs, f.eval m = true

theorem Formula.evalAll_eq_true_iff (m : Model) (fs : List Formula) :
    Formula.evalAll m fs = true ↔ m.Satisfies fs := by
  induction fs with
  | nil => simp [Formula.evalAll, Model.Satisfies]
  | cons f fs ih => simp [Formula.evalAll, Model.Satisfies, ih]

instance (m : Model) (fs : List Formula) : Decidable (m.Satisfies fs) :=
  decidable_of_iff _ (Formula.evalAll_eq_true_iff m fs)

/-! ## Text -/

/-- An integer in SMT-LIB, where negative numbers are negations. -/
def integerText (n : Int) : String :=
  if n < 0 then s!"(- {n.natAbs})" else toString n

def Term.text : Term → String
  | .var s => s.text
  | .lit n => integerText n
  | .add a b => "(+ " ++ a.text ++ " " ++ b.text ++ ")"
  | .sub a b => "(- " ++ a.text ++ " " ++ b.text ++ ")"
  | .mul a b => "(* " ++ a.text ++ " " ++ b.text ++ ")"
  | .div a b => "(div " ++ a.text ++ " " ++ b.text ++ ")"
  | .item s index => "(" ++ s.text ++ " " ++ index.text ++ ")"

mutual

def Formula.text : Formula → String
  | .const b => toString b
  | .eq a b => "(= " ++ a.text ++ " " ++ b.text ++ ")"
  | .gt a b => "(> " ++ a.text ++ " " ++ b.text ++ ")"
  | .iff a b => "(= " ++ a.text ++ " " ++ b.text ++ ")"
  | .not a => "(not " ++ a.text ++ ")"
  | .and items => "(and" ++ Formula.textAll items ++ ")"
  | .or a b => "(or " ++ a.text ++ " " ++ b.text ++ ")"
  | .implies a b => "(=> " ++ a.text ++ " " ++ b.text ++ ")"

/-- The texts of formulas, each after a blank. -/
def Formula.textAll : List Formula → String
  | [] => ""
  | f :: fs => " " ++ f.text ++ Formula.textAll fs

end

/-! ## Unknowns -/

/-- An unknown of a formula, with what it stands for. -/
inductive Unknown where
  | int (s : Symbol)
  | seq (s : Symbol)
deriving DecidableEq

namespace Unknown

/-- The declaration of an unknown. -/
def declaration : Unknown → String
  | .int s => "(declare-fun " ++ s.text ++ " () Int)"
  | .seq s => "(declare-fun " ++ s.text ++ " (Int) Int)"

end Unknown

/-- The unknowns of a term, from left to right. -/
def Term.unknowns : Term → List Unknown
  | .var s => [.int s]
  | .lit _ => []
  | .add a b | .sub a b | .mul a b | .div a b => a.unknowns ++ b.unknowns
  | .item s index => .seq s :: index.unknowns

mutual

/-- The unknowns of a formula, from left to right. -/
def Formula.unknowns : Formula → List Unknown
  | .const _ => []
  | .eq a b | .gt a b => a.unknowns ++ b.unknowns
  | .iff a b | .or a b | .implies a b => a.unknowns ++ b.unknowns
  | .not a => a.unknowns
  | .and items => Formula.unknownsAll items

def Formula.unknownsAll : List Formula → List Unknown
  | [] => []
  | f :: fs => f.unknowns ++ Formula.unknownsAll fs

end

end TensorShape
