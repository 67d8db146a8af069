import TensorShape.Check.EncodingError
import TensorShape.Logic.Formula
import TensorShape.Table

/-!
# TensorShape.Check.Encoding

Symbolic values as terms and formulas: one integer unknown `rank(r)` and one sequence `shape(r)` for
each register `r`. Encoding mirrors `Lowering` as far as its results go: `Value.asFact` is what
`lower_fact` returns, and an `Encoder` is what is left behind in the caches.

What a value is encoded as depends on the value alone. Beside it, an `Encoder` keeps track of the
ranks and dimensions that were reached. If the laws of shapes are on, each rank and each dimension
contributes when it is first reached

* a *law*, which is true of every tensor: ranks and extents are not negative;
* for a dimension two *obligations*: the axis is not negative and below the rank. Who speaks of a
  dimension has to see to it that it is there.
-/

namespace TensorShape

/-- One axis of the tensor in a register. -/
structure Axis where
  register : Register
  index : Int64
deriving DecidableEq, Inhabited

/-- By register, then by index. -/
def Axis.before (a b : Axis) : Bool :=
  if a.register = b.register then decide (a.index.toInt < b.index.toInt)
  else KeyOrder.before a.register b.register

instance : KeyOrder Axis where
  before := Axis.before
  before_irrefl a := by simp [Axis.before]
  before_trans {a b c} hab hbc := by
    unfold Axis.before at *
    split at hab
    · next h₁ =>
      split at hbc
      · next h₂ =>
        rw [if_pos (h₁.trans h₂)]
        simp only [decide_eq_true_eq] at *
        omega
      · next h₂ => rwa [h₁, if_neg h₂]
    · next h₁ =>
      split at hbc
      · next h₂ => rwa [← h₂, if_neg h₁]
      · have htrans := KeyOrder.before_trans hab hbc
        rw [if_neg, htrans]
        intro h
        rw [h, KeyOrder.before_irrefl] at htrans
        cases htrans
  eq_of_not_before {a b} hab hba := by
    unfold Axis.before at *
    obtain ⟨r, i⟩ := a
    obtain ⟨s, j⟩ := b
    by_cases h : r = s
    · subst h
      simp only [if_true, decide_eq_false_iff_not] at hab hba
      have hij : i.toInt = j.toInt := by omega
      rw [Int64.toInt_inj.1 hij]
    · simp only [h, Ne.symm h, if_false] at hab hba
      exact absurd (KeyOrder.eq_of_not_before hab hba) h

/-! ## Terms and formulas -/

def rankTerm (r : Register) : Term := .var (.ofName s!"rank({r})")

def dimTerm (a : Axis) : Term := .item (.ofName ("shape(" ++ a.register ++ ")")) (.lit a.index.toInt)

/-- A side of an equality: integers are compared with integers, truth values with truth values. -/
inductive Side where
  | term (t : Term)
  | formula (f : Formula)

namespace Value

/-- An integer as a term. -/
def asTerm : Value → Except EncodingError Term
  | .int k => .ok (.lit k.toInt)
  | .rankOf r => .ok (rankTerm r)
  | .dimOf k r => .ok (dimTerm ⟨r, k⟩)
  | v => .error (.unsupported v "an integer")

/-- A side of an equality: an equality is a formula, all else a term. -/
def asSide : Value → Except EncodingError Side
  | .equals a b =>
    match a.asSide, b.asSide with
    | .error e, _ => .error e
    | .ok _, .error e => .error e
    | .ok (.term s), .ok (.term t) => .ok (.formula (.eq s t))
    | .ok (.formula f), .ok (.formula g) => .ok (.formula (.iff f g))
    | .ok _, .ok _ => .error (.unsupported (.equals a b) "an equality of mixed kinds")
  | v => v.asTerm.map .term

/-- A value that has to hold: an equality, or an integer other than zero. -/
def asFact (v : Value) : Except EncodingError Formula :=
  match v with
  | .equals .. =>
    match v.asSide with
    | .ok (.formula f) => .ok f
    | .ok (.term _) => .error (.unsupported v "a boolean")
    | .error e => .error e
  | .int k => .ok (.not (.eq (.lit k.toInt) (.lit 0)))
  | _ => .error (.unsupported v "a boolean")

end Value

/-! ## What is reached -/

/-- A rank or a dimension that an encoding speaks of. -/
inductive Reached where
  | rank (r : Register)
  | dim (a : Axis)
deriving DecidableEq

namespace Value

/-- What the encoding as a term reaches. -/
def reachedAsTerm : Value → List Reached
  | .rankOf r => [.rank r]
  | .dimOf k r => [.dim ⟨r, k⟩]
  | _ => []

/-- What the encoding as a side reaches, left before right, up to the point where it fails. -/
def reachedAsSide : Value → List Reached
  | .equals a b =>
    a.reachedAsSide ++
      match a.asSide with
      | .ok _ => b.reachedAsSide
      | .error _ => []
  | v => v.reachedAsTerm

/-- What the encoding as a fact reaches, up to the point where it fails. -/
def reachedAsFact : Value → List Reached
  | .equals a b => (Value.equals a b).reachedAsSide
  | _ => []

end Value

/-! ## Encoders -/

structure Encoder where
  /-- Are the laws of shapes on? -/
  shapeLaws : Bool
  ranks : NameSet
  dims : Table Axis Unit
  laws : List Formula
  /-- The obligations of dimensions reached since they were last taken. -/
  obligations : List Formula

namespace Encoder

def start (shapeLaws : Bool) : Encoder := ⟨shapeLaws, ∅, ∅, [], []⟩

/-- The law of a term that is not negative. -/
def notNegative (t : Term) : Formula := .gt t (.lit (-1))

/-- An axis lies within the rank. -/
def axisObligations (a : Axis) : List Formula :=
  [.gt (rankTerm a.register) (.lit a.index.toInt), notNegative (.lit a.index.toInt)]

def reachRank (enc : Encoder) (r : Register) : Encoder :=
  if enc.ranks.contains r then enc
  else
    { enc with
      ranks := enc.ranks.insert r ()
      laws := if enc.shapeLaws then enc.laws ++ [notNegative (rankTerm r)] else enc.laws }

def reachDim (enc : Encoder) (a : Axis) : Encoder :=
  if enc.dims.contains a then enc
  else
    let enc := enc.reachRank a.register
    { enc with
      dims := enc.dims.insert a ()
      laws := if enc.shapeLaws then enc.laws ++ [notNegative (dimTerm a)] else enc.laws
      obligations :=
        if enc.shapeLaws then enc.obligations ++ axisObligations a else enc.obligations }

def reach (enc : Encoder) : Reached → Encoder
  | .rank r => enc.reachRank r
  | .dim a => enc.reachDim a

def reachAll (enc : Encoder) (l : List Reached) : Encoder := l.foldl reach enc

/-- Encode a value that has to hold. -/
def fact (enc : Encoder) (v : Value) : Except EncodingError Formula × Encoder :=
  (v.asFact, enc.reachAll v.reachedAsFact)

/-- Encode an integer. -/
def term (enc : Encoder) (v : Value) : Except EncodingError Term × Encoder :=
  (v.asTerm, enc.reachAll v.reachedAsTerm)

/-- Hand out the obligations that were not taken yet. -/
def takeObligations (enc : Encoder) : List Formula × Encoder :=
  (enc.obligations, { enc with obligations := [] })

end Encoder

end TensorShape
