import TensorShape.Logic.Formula
import TensorShape.Logic.Search

/-!
# TensorShape.Logic.Flattening

From formulas to linear conditions. Every subterm that is not linear becomes a numbered unknown with
a description, an `Atom`; equal descriptions share their unknown. What the descriptions mean is then
said by conditions:

* a quotient times the divisor is at most the dividend, and by less than the divisor;
* two elements of one sequence at equal indices are equal, and so are two equal numbers divided by
  zero.

A product of two unknowns, or a division by one, is outside of what can be flattened.
-/

namespace TensorShape

/-- What a numbered unknown stands for. -/
inductive Atom where
  | int (s : Symbol)
  /-- An element of a sequence. -/
  | item (s : Symbol) (index : Linear)
  /-- The quotient by a number other than zero. -/
  | quotient (dividend : Linear) (divisor : Int)
  /-- A number divided by zero. -/
  | byZero (dividend : Linear)
deriving DecidableEq

/-- Flattening keeps the atoms met so far; an atom's number is its position. It fails on what is not
linear. -/
abbrev Flatten := StateT (List Atom) Option

namespace Flatten

/-- The unknown of an atom, a new one if the atom is new. -/
def unknown (a : Atom) : Flatten Linear := do
  let atoms ← get
  match atoms.idxOf? a with
  | some x => return .unknown x
  | none =>
    set (atoms ++ [a])
    return .unknown atoms.length

def term : Term → Flatten Linear
  | .var s => unknown (.int s)
  | .lit n => return .const n
  | .add a b => do
    let a ← term a
    let b ← term b
    return a.add b
  | .sub a b => do
    let a ← term a
    let b ← term b
    return a.sub b
  | .mul a b => do
    let a ← term a
    let b ← term b
    match a.const?, b.const? with
    | some c, _ => return b.scale c
    | none, some c => return a.scale c
    | none, none => failure
  | .div a b => do
    let a ← term a
    let b ← term b
    match a.const?, b.const? with
    | some c, some d => if d = 0 then unknown (.byZero a) else return .const (c / d)
    | none, some d => if d = 0 then unknown (.byZero a) else unknown (.quotient a d)
    | _, none => failure
  | .item s index => do
    let index ← term index
    unknown (.item s index)

mutual

def formula : Formula → Flatten Condition
  | .const b => return .const b
  | .eq a b => do
    let a ← term a
    let b ← term b
    return .zero (a.sub b)
  | .gt a b => do
    let a ← term a
    let b ← term b
    return .nonneg ((a.sub b).addConst (-1))
  | .iff a b => do
    let a ← formula a
    let b ← formula b
    return .iff a b
  | .not a => do
    let a ← formula a
    return .not a
  | .and items => formulas items
  | .or a b => do
    let a ← formula a
    let b ← formula b
    return .or a b
  | .implies a b => do
    let a ← formula a
    let b ← formula b
    return .or (.not a) b

/-- The conjunction of a list of formulas. -/
def formulas : List Formula → Flatten Condition
  | [] => return .const true
  | [f] => formula f
  | f :: fs => do
    let c ← formula f
    let d ← formulas fs
    return .and c d

end

end Flatten

/-! ## What atoms mean -/

/-- The conditions on a quotient. -/
def quotientConditions (x : Nat) : Atom → List Condition
  | .quotient dividend divisor =>
    let remainder := dividend.sub ((Linear.unknown x).scale divisor)
    [.nonneg remainder, .nonneg (remainder.neg.addConst (divisor.natAbs - 1))]
  | _ => []

/-- The arguments of two atoms that are equal if their arguments are. -/
def sameFunction? : Atom → Atom → Option (Linear × Linear)
  | .item s i, .item t j => if s = t then some (i, j) else none
  | .byZero d, .byZero e => some (d, e)
  | _, _ => none

/-- Equal arguments, equal values; nothing is said of arguments that are never equal. -/
def congruence (p q : Atom × Nat) : List Condition :=
  match sameFunction? p.1 q.1 with
  | none => []
  | some (i, j) =>
    let difference := i.sub j
    match difference.const? with
    | some c => if c = 0 then [.zero ((Linear.unknown p.2).sub (.unknown q.2))] else []
    | none => [.or (.not (.zero difference)) (.zero ((Linear.unknown p.2).sub (.unknown q.2)))]

/-- The congruences of each atom with those after it. -/
def congruences : List (Atom × Nat) → List Condition
  | [] => []
  | p :: rest => rest.flatMap (congruence p) ++ congruences rest

def atomConditions (atoms : List Atom) : List Condition :=
  atoms.zipIdx.flatMap (fun p => quotientConditions p.2 p.1) ++ congruences atoms.zipIdx

/-! ## Models -/

/-- The model that gives each atom the value of its unknown, and all else zero. -/
def Model.ofAtoms (atoms : List Atom) (ρ : Assignment) : Model where
  int s := (atoms.zipIdx.findSome? fun p =>
    if p.1 = .int s then some (ρ.get p.2) else none).getD 0
  seq s i := (atoms.zipIdx.findSome? fun p =>
    match p.1 with
    | .item t index => if t = s ∧ index.eval ρ = i then some (ρ.get p.2) else none
    | _ => none).getD 0
  divZero n := (atoms.zipIdx.findSome? fun p =>
    match p.1 with
    | .byZero dividend => if dividend.eval ρ = n then some (ρ.get p.2) else none
    | _ => none).getD 0

end TensorShape
