import TensorShape.Logic.Linear

/-!
# TensorShape.Logic.System

Systems of linear equations and inequalities over the integers, decided by eliminating one unknown
after the other. Every step keeps solvability in both directions, and a solution of what is left is
turned back into a solution of the whole.

* An **equation** is solved for an unknown with coefficient one. If none has it, the unknown with
  the least coefficient is replaced by itself less multiples of the others, which leaves the
  remainders of their coefficients: the Euclidean algorithm, on the coefficients.
* Without equations, an unknown is eliminated from the **bounds**. What they say of the other
  unknowns is that each lower bound lies below each upper one. If that can be met, and there is an
  integer in between, the system is solved; there always is if on one side of the unknown all
  coefficients are one. Else the unknown lies less than its coefficient above the tightest of the
  lower bounds, and each distance is tried as an equation.
-/

namespace TensorShape

structure System where
  /-- Expressions that have to be zero. -/
  zeros : List Linear
  /-- Expressions that must not be negative. -/
  bounds : List Linear
deriving Inhabited

namespace System

def empty : System := ⟨[], []⟩

/-- Does the assignment solve the system? -/
def holds (s : System) (ρ : Assignment) : Bool :=
  s.zeros.all (fun e => e.eval ρ = 0) && s.bounds.all fun e => 0 ≤ e.eval ρ

/-! ## Normal form -/

/-- An equation divided by its content, `none` if it has no integer solution; an equation that
always holds is left out. -/
def reduceZero (e : Linear) : Option (List Linear) :=
  if e.terms.isEmpty then if e.constant = 0 then some [] else none
  else
    let g : Int := e.content
    if e.constant % g = 0 then some [e.divideBy g] else none

/-- A bound divided by its content and tightened to integers, `none` if it never holds; a bound that
always holds is left out. -/
def reduceBound (e : Linear) : Option (List Linear) :=
  if e.terms.isEmpty then if 0 ≤ e.constant then some [] else none
  else some [e.divideBy e.content]

/-- Add a bound; of two bounds that differ in the constant only, the tighter one stays. -/
def insertBound (e : Linear) : List Linear → List Linear
  | [] => [e]
  | d :: rest =>
    if d.terms = e.terms then (if e.constant < d.constant then e else d) :: rest
    else d :: insertBound e rest

def reduce (s : System) : Option System := do
  let zeros ← s.zeros.mapM reduceZero
  let bounds ← s.bounds.mapM reduceBound
  some ⟨zeros.flatten, bounds.flatten.foldl (fun l e => insertBound e l) []⟩

/-! ## Equations -/

/-- The replacements that solve an equation with content one: the last one removes an unknown, the
others exchange it. Each round makes the least coefficient smaller. -/
def solveEquation : Nat → Linear → List (Nat × Linear)
  | 0, _ => []
  | fuel + 1, e =>
    match e.leastTerm? with
    | none => []
    | some (x, a) =>
      if a.natAbs = 1 then [(x, (e.without x).scale (-a))]
      else
        let t := (Linear.unknown x).sub ((e.without x).divideBy a)
        (x, t) :: solveEquation fuel (e.subst x t)

/-- The replacements that solve an equation. -/
def replacements (e : Linear) : List (Nat × Linear) :=
  match e.leastTerm? with
  | none => []
  | some (_, a) => solveEquation a.natAbs e

def subst (s : System) (x : Nat) (t : Linear) : System :=
  ⟨s.zeros.map (·.subst x t), s.bounds.map (·.subst x t)⟩

/-- Carry out replacements, the first one first. -/
def substAll (s : System) (l : List (Nat × Linear)) : System :=
  l.foldl (fun s p => s.subst p.1 p.2) s

/-- The values of the replaced unknowns, from those of the unknowns that are left. -/
def restore (l : List (Nat × Linear)) (ρ : Assignment) : Assignment :=
  l.foldr (fun p ρ => ρ.set p.1 (p.2.eval ρ)) ρ

/-! ## Bounds -/

/-- The bounds on an unknown: those below it, those above it, and those that do not speak of it. -/
structure Split where
  lower : List Linear
  upper : List Linear
  rest : List Linear

def split (bounds : List Linear) (x : Nat) : Split where
  lower := bounds.filter fun e => 0 < e.coeff x
  upper := bounds.filter fun e => e.coeff x < 0
  rest := bounds.filter fun e => e.coeff x = 0

namespace Split

/-- Is there sure to be an integer between the bounds wherever there is a number? -/
def isExact (p : Split) (x : Nat) : Bool :=
  p.lower.all (fun e => e.coeff x = 1) || p.upper.all (fun e => e.coeff x = -1)

/-- What the bounds say of the other unknowns. -/
def shadow (p : Split) (x : Nat) : List Linear :=
  p.rest ++ p.lower.flatMap fun l =>
    p.upper.map fun u => (l.scale (-u.coeff x)).add (u.scale (l.coeff x))

/-- The least integer that the lower bounds allow, or the greatest that the upper ones do. -/
def pick (p : Split) (x : Nat) (ρ : Assignment) : Int :=
  let floors := p.lower.map fun l => -((l.without x).eval ρ / l.coeff x)
  let ceilings := p.upper.map fun u => (u.without x).eval ρ / -u.coeff x
  match floors, ceilings with
  | v :: vs, _ => vs.foldl max v
  | [], v :: vs => vs.foldl min v
  | [], [] => 0

/-- The sum of the coefficients of `x`, as absolute values. -/
def width (bounds : List Linear) (x : Nat) : Nat :=
  bounds.foldl (fun n e => n + (e.coeff x).natAbs) 0

/-- Equations of which one holds, if the bounds can be met at all: the unknown lies close to a lower
bound, or to an upper one if that leaves fewer to try. -/
def tries (p : Split) (x : Nat) : List Linear :=
  let side := if width p.lower x ≤ width p.upper x then p.lower else p.upper
  side.flatMap fun e => (List.range (e.coeff x).natAbs).map fun j => e.addConst (-(j : Int))

/-- The cost of eliminating the unknown: first whether there may be cases to try, then how many
bounds or cases there will be. -/
def cost (p : Split) (x : Nat) : Nat × Nat :=
  if p.isExact x then (0, p.lower.length * p.upper.length)
  else (1, min (width p.lower x) (width p.upper x))

end Split

/-- Of unknowns with their costs, the cheapest; one that costs nothing is taken at once. -/
def cheapestOf (bounds : List Linear) : List Nat → Option (Nat × Nat × Nat) → Option Nat
  | [], best => best.map Prod.fst
  | x :: rest, best =>
    let cost := (split bounds x).cost x
    if cost = (0, 0) then some x
    else
      match best with
      | none => cheapestOf bounds rest (some (x, cost))
      | some (y, least) =>
        let better := cost.1 < least.1 || (cost.1 == least.1 && cost.2 < least.2)
        cheapestOf bounds rest (some (if better then (x, cost) else (y, least)))

/-- The unknown that is cheapest to eliminate from the bounds. -/
def cheapest? (bounds : List Linear) : Option Nat :=
  cheapestOf bounds (bounds.flatMap fun e => e.terms.map Prod.fst).eraseDups none

/-! ## The procedure -/

/-- A solution of a system with at most `n` unknowns, if it has one. -/
def solve : Nat → System → Option Assignment
  | 0, s => if s.holds .zero then some .zero else none
  | n + 1, s =>
    match s.reduce with
    | none => none
    | some s =>
      match s.zeros with
      | e :: _ =>
        let l := replacements e
        (solve n (s.substAll l)).map (restore l)
      | [] =>
        match cheapest? s.bounds with
        | none => some .zero
        | some x =>
          let p := split s.bounds x
          match solve n ⟨[], p.shadow x⟩ with
          | none => none
          | some ρ =>
            let ρ := ρ.set x (p.pick x ρ)
            if s.holds ρ then some ρ
            else
              ((p.tries x).filterMap reduceZero).flatten.findSome? fun e =>
                let l := replacements e
                (solve n (s.substAll l)).map (restore l)

end System

end TensorShape
