/-!
# TensorShape.Logic.Linear

Linear expressions over numbered unknowns, in normal form: each unknown stands once, in ascending
order, with a coefficient that is not zero.
-/

namespace TensorShape

/-- Values of numbered unknowns; an unknown that is not listed is zero. -/
structure Assignment where
  values : List (Nat × Int)
deriving Inhabited

namespace Assignment

def zero : Assignment := ⟨[]⟩

def get (ρ : Assignment) (x : Nat) : Int := (ρ.values.lookup x).getD 0

def set (ρ : Assignment) (x : Nat) (v : Int) : Assignment := ⟨(x, v) :: ρ.values⟩

@[simp] theorem get_zero (x : Nat) : zero.get x = 0 := rfl

@[simp] theorem get_set (ρ : Assignment) (x : Nat) (v : Int) (y : Nat) :
    (ρ.set x v).get y = if y = x then v else ρ.get y := by
  by_cases h : y = x
  · simp [get, set, h]
  · have hb : (y == x) = false := by simpa using h
    simp [get, set, List.lookup_cons, h, hb]

end Assignment

/-- A constant plus a sum of unknowns with coefficients. -/
structure Linear where
  constant : Int
  terms : List (Nat × Int)
deriving DecidableEq, Inhabited

namespace Linear

def const (c : Int) : Linear := ⟨c, []⟩

def unknown (x : Nat) : Linear := ⟨0, [(x, 1)]⟩

/-- The value of an expression. -/
def eval (e : Linear) (ρ : Assignment) : Int :=
  e.terms.foldl (fun sum p => sum + p.2 * ρ.get p.1) e.constant

/-- The constant an expression is, if it has no unknowns. -/
def const? (e : Linear) : Option Int := if e.terms.isEmpty then some e.constant else none

/-! ## Arithmetic -/

def addTerms : List (Nat × Int) → List (Nat × Int) → List (Nat × Int)
  | [], ts => ts
  | ss, [] => ss
  | (x, a) :: ss, (y, b) :: ts =>
    if x < y then (x, a) :: addTerms ss ((y, b) :: ts)
    else if y < x then (y, b) :: addTerms ((x, a) :: ss) ts
    else if a + b = 0 then addTerms ss ts
    else (x, a + b) :: addTerms ss ts

def add (d e : Linear) : Linear := ⟨d.constant + e.constant, addTerms d.terms e.terms⟩

def scale (c : Int) (e : Linear) : Linear :=
  if c = 0 then const 0 else ⟨c * e.constant, e.terms.map fun p => (p.1, c * p.2)⟩

def neg (e : Linear) : Linear := e.scale (-1)

def sub (d e : Linear) : Linear := d.add e.neg

def addConst (e : Linear) (c : Int) : Linear := { e with constant := e.constant + c }

/-! ## Substitution -/

/-- The coefficient of an unknown. -/
def coeff (e : Linear) (x : Nat) : Int := (e.terms.lookup x).getD 0

/-- The expression without one of its unknowns. -/
def without (e : Linear) (x : Nat) : Linear := { e with terms := e.terms.filter fun p => p.1 ≠ x }

/-- Replace an unknown by an expression. -/
def subst (e : Linear) (x : Nat) (t : Linear) : Linear :=
  let a := e.coeff x
  if a = 0 then e else (e.without x).add (t.scale a)

/-! ## Divisors -/

/-- The greatest common divisor of the coefficients. -/
def content (e : Linear) : Nat := e.terms.foldl (fun g p => Nat.gcd g p.2.natAbs) 0

/-- The quotients of all coefficients and of the constant by `d`, each leaving a remainder that is
not negative. -/
def divideBy (e : Linear) (d : Int) : Linear :=
  ⟨e.constant / d, (e.terms.map fun p => (p.1, p.2 / d)).filter fun p => p.2 ≠ 0⟩

/-- The unknown with the coefficient of least absolute value. -/
def leastTerm? (e : Linear) : Option (Nat × Int) :=
  e.terms.foldl (fun least p =>
    match least with
    | none => some p
    | some q => if p.2.natAbs < q.2.natAbs then some p else some q) none

end Linear

end TensorShape
