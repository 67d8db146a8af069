import TensorShape.Word

/-!
# TensorShape.Counter

Counting in 64-bit words: `start`, `start + by`, `start + 2 * by`, … The value after the one handed
out is computed first, so a counter stops one value before it leaves the range, and it never wraps.
-/

namespace TensorShape

/-- A sum that is not a 64-bit word. -/
structure Overflow where
deriving DecidableEq

def Overflow.message (_ : Overflow) : String := "attempt to add with overflow"

/-- The sum of two words, if it is one. -/
def addWords (a b : Int64) : Except Overflow Int64 :=
  match word? (a.toInt + b.toInt) with
  | some sum => .ok sum
  | none => .error ⟨⟩

structure Counter where
  /-- The value that is handed out next. -/
  current : Int64
  step : Int64
deriving DecidableEq

namespace Counter

/-- Hand out the current value and move on. A counter that cannot move on hands out nothing and
stays as it is. -/
def next (c : Counter) : Except Overflow (Int64 × Counter) :=
  (addWords c.current c.step).map fun n => (c.current, { c with current := n })

/-- Hand out the current value in another form. -/
def nextAs {α : Type} (f : Int64 → α) (c : Counter) : Except Overflow (α × Counter) :=
  c.next.map fun p => (f p.1, p.2)

/-- What a list of `n` calls of `call` hands out. A failed call leaves the counter as it is. -/
def calls {α : Type} (call : Counter → Except Overflow (α × Counter)) :
    Nat → Counter → List (Except Overflow α)
  | 0, _ => []
  | n + 1, c =>
    match call c with
    | .ok (a, c) => .ok a :: calls call n c
    | .error e => .error e :: calls call n c

end Counter

end TensorShape
