import TensorShape.Check.Witness
import TensorShape.Memo

/-!
# TensorShape.Check.Translator

Encoding in place, with every term made once. The translator mirrors `Lowering`, with its caches,
its `axioms` (here laws) and its `take_obligations`: `Translator.fact` is `lower_fact`, and
`Translator.term` is `lower_term`.

A `Translator` keeps the terms it has made: one for each rank, one for each dimension, and the symbol
of each sequence of extents. What is there is handed out again; what is not is made, and only then
does it bring its laws and obligations. To translate a value is an `Action`. It may stop with an
error, and what was made before the error stays.

`Translator.consistency` and `Translator.entailment` give all that is asserted for a question, in
the order in which it is made, and `Translator.witness` reads the terms that were kept out of a model.
-/

namespace TensorShape

/-- The sequence of the extents of the tensor in a register. -/
def shapeSymbol (r : Register) : Symbol := .ofName ("shape(" ++ r ++ ")")

structure Translator where
  /-- Are the laws of shapes on? -/
  shapeLaws : Bool
  ranks : Memo Unit Register Term
  shapes : Memo Unit Register Symbol
  dims : Table Axis Term
  laws : List Formula
  /-- The obligations of dimensions made since they were last taken. -/
  obligations : List Formula

namespace Translator

def start (shapeLaws : Bool) : Translator where
  shapeLaws := shapeLaws
  ranks := .start (fun _ r => (rankTerm r, ())) ()
  shapes := .start (fun _ r => (shapeSymbol r, ())) ()
  dims := ∅
  laws := []
  obligations := []

/-- Something that a translator does; an error does not undo it. -/
abbrev Action := EStateM EncodingError Translator

/-! ## Ranks and dimensions -/

/-- The term of a rank. A new one brings its law. -/
def rank (r : Register) : Action Term :=
  modifyGet fun t =>
    let isNew := (t.ranks.lookup r).isNone
    let (term, ranks) := t.ranks.get r
    (term,
      { t with
        ranks := ranks
        laws := if isNew && t.shapeLaws then t.laws ++ [Encoder.notNegative term] else t.laws })

/-- The symbol of a sequence of extents. -/
def shape (r : Register) : Action Symbol :=
  modifyGet fun t =>
    let (symbol, shapes) := t.shapes.get r
    (symbol, { t with shapes := shapes })

/-- Keep the term of a dimension that is new, with its law and its obligations. -/
def keepDim (a : Axis) (dim rank index : Term) : Action Unit :=
  modify fun t =>
    { t with
      dims := t.dims.insert a dim
      laws := if t.shapeLaws then t.laws ++ [Encoder.notNegative dim] else t.laws
      obligations :=
        if t.shapeLaws then t.obligations ++ [.gt rank index, Encoder.notNegative index]
        else t.obligations }

/-- The term of a dimension. A new one also makes the rank of its tensor, if there is none yet. -/
def dim (a : Axis) : Action Term := do
  match (← get).dims.get? a with
  | some term => return term
  | none =>
    let index := Term.lit a.index.toInt
    let term := Term.item (← shape a.register) index
    keepDim a term (← rank a.register) index
    return term

/-! ## Values -/

/-- Translate an integer. -/
def term : Value → Action Term
  | .int k => return .lit k.toInt
  | .rankOf r => rank r
  | .dimOf k r => dim ⟨r, k⟩
  | v => throw (.unsupported v "an integer")

/-- The equality of two sides, which have to be of one kind. -/
def equate (v : Value) : Side → Side → Action Formula
  | .term s, .term t => return .eq s t
  | .formula f, .formula g => return .iff f g
  | _, _ => throw (.unsupported v "an equality of mixed kinds")

/-- Translate a side of an equality, the left part of an equality before the right one. -/
def side : Value → Action Side
  | .equals a b => do
    let left ← side a
    let right ← side b
    return .formula (← equate (.equals a b) left right)
  | v => return .term (← term v)

/-- Translate a value that has to hold. -/
def fact : Value → Action Formula
  | .equals a b => do
    let left ← side a
    let right ← side b
    equate (.equals a b) left right
  | .int k => return .not (.eq (.lit k.toInt) (.lit 0))
  | v => throw (.unsupported v "a boolean")

/-- Hand out the obligations that were not taken yet. -/
def takeObligations : Action (List Formula) :=
  modifyGet fun t => (t.obligations, { t with obligations := [] })

/-! ## Questions -/

/-- Translate facts. One that cannot be translated is dropped, but not what it has made. -/
def facts : List Value → Action (List Formula)
  | [] => return []
  | v :: rest => do
    let formula ← try some <$> fact v catch _ => pure none
    return formula.toList ++ (← facts rest)

/-- The premises of a question. -/
def assume (l : List Value) : Action (List Formula) := do
  let formulas ← facts l
  return formulas ++ (← takeObligations)

/-- All that is asserted to see if facts can hold at once. -/
def consistency (l : List Value) : Action (List Formula) := do
  let premises ← assume l
  return premises ++ (← get).laws

/-- All that is asserted to see if goals follow from assumptions. A goal that cannot be translated is
an error. -/
def entailment (assumptions goals : List Value) : Action (List Formula) := do
  let premises ← assume assumptions
  let formulas ← goals.mapM fact
  let obligations ← takeObligations
  return premises ++ (← get).laws ++ [.not (.conj (formulas ++ obligations))]

/-! ## Witnesses -/

/-- Every term that was kept, read out of a model. -/
def witness (t : Translator) (m : Model) : Witness where
  model := "\n".intercalate
    ((t.ranks.entries.values ++ t.dims.values).map fun term =>
      term.text ++ " -> " ++ integerText (term.eval m))
  ranks := .ofList (t.ranks.entries.entries.filterMap fun p =>
    (word? (p.2.eval m)).map (p.1, ·))
  dims := .ofList (t.dims.entries.filterMap fun p =>
    (word? (p.2.eval m)).map (p.1, ·))

end Translator

end TensorShape
