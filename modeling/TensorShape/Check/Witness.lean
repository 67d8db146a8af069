import TensorShape.Check.Encoding
import TensorShape.Logic.Solver

/-!
# TensorShape.Check.Witness

The ranks and extents that a model gives to the tensors a question speaks of. Values that are not
64-bit words are left out.
-/

namespace TensorShape

structure Witness where
  /-- The model, as text. -/
  model : String
  ranks : Table Register Int64
  dims : Table Axis Int64
deriving DecidableEq, Inhabited

namespace Witness

def empty : Witness := ⟨"", ∅, ∅⟩

def rank? (w : Witness) (r : Register) : Option Int64 := w.ranks.get? r

def dim? (w : Witness) (r : Register) (index : Int64) : Option Int64 := w.dims.get? ⟨r, index⟩

end Witness

namespace Encoder

/-- Every reached rank and dimension, read out of a model. -/
def witness (enc : Encoder) (m : Model) : Witness where
  model := "\n".intercalate
    ((enc.ranks.keys.map rankTerm ++ enc.dims.keys.map dimTerm).map fun t =>
      t.text ++ " -> " ++ integerText (t.eval m))
  ranks := .ofList (enc.ranks.keys.filterMap fun r =>
    (word? ((rankTerm r).eval m)).map (r, ·))
  dims := .ofList (enc.dims.keys.filterMap fun a =>
    (word? ((dimTerm a).eval m)).map (a, ·))

end Encoder

end TensorShape
