import TensorShape.Json
import TensorShape.Table

/-!
# TensorShape.Logic.Settings

The settings of a solver (`SmtConfig`), the profiles that come with a time limit (`SmtProfile`), and
both as JSON. The fields keep their names there: `timeout_ms` is the time limit, and `shape_axioms`
says whether the laws of shapes are on.
-/

namespace TensorShape

open Json

structure Settings where
  /-- Are models made? -/
  model : Bool := true
  /-- Are proofs made? -/
  proof : Bool := true
  /-- The time limit of one check, in milliseconds. -/
  timeout : Option UInt64 := none
  /-- Do ranks and extents obey the laws of shapes? -/
  shapeLaws : Bool := true
  /-- Further parameters, handed on as they are. -/
  params : Table String String := ∅
deriving DecidableEq, Inhabited

namespace Settings

def default : Settings := {}

/-- All parameters in a fixed order: those the settings name, then the others in the order of their
keys. -/
def parameters (s : Settings) : List (String × String) :=
  [("model", toString s.model), ("proof", toString s.proof)] ++
    (s.timeout.toList.map fun ms => ("timeout", toString ms.toNat)) ++ s.params.entries

def toJson (s : Settings) : Json :=
  .obj [("model", .bool s.model), ("proof", .bool s.proof),
    ("timeout_ms", ofOption ofUInt64 s.timeout), ("shape_axioms", .bool s.shapeLaws),
    ("params", .obj (s.params.entries.map fun p => (p.1, .str p.2)))]

def ofJson? (j : Json) : Option Settings :=
  match j.record? ["model", "proof", "timeout_ms", "shape_axioms", "params"] with
  | some [model, proof, timeout, shapeLaws, params] => do
    some {
      model := ← optional bool? true model
      proof := ← optional bool? true proof
      timeout := ← optional (nullOr? uint64?) none timeout
      shapeLaws := ← optional bool? true shapeLaws
      params := .ofList (← optional (entriesOf? string?) [] params) }
  | _ => none

end Settings

/-! ## Profiles -/

inductive Profile where
  | fast
  | ci
  | thorough
deriving DecidableEq, Inhabited

namespace Profile

/-- The time limit of a profile, in milliseconds. -/
def timeout : Profile → UInt64
  | .fast => 50
  | .ci => 250
  | .thorough => 2000

/-- The default settings with the time limit of the profile. -/
def settings (p : Profile) : Settings := { timeout := some p.timeout }

def toJson : Profile → Json
  | .fast => .str "fast"
  | .ci => .str "ci"
  | .thorough => .str "thorough"

def ofJson? (j : Json) : Option Profile :=
  match j.variant? with
  | some ("fast", none) => some .fast
  | some ("ci", none) => some .ci
  | some ("thorough", none) => some .thorough
  | _ => none

end Profile

end TensorShape
