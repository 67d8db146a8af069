import TensorShape.Logic.Settings
import TensorShape.Toml.Document

/-!
# TensorShape.Logic.SettingsFile

Settings from a TOML document. What the document does not give has its default; keys that mean
nothing are passed over.
-/

namespace TensorShape

/-- Why a document holds no settings. -/
inductive SettingsError where
  | malformed
  /-- The value of a key is not of the kind it has to be. -/
  | unfit (key : String)
deriving DecidableEq

namespace SettingsError

def message : SettingsError → String
  | .malformed => "invalid solver configuration: not a TOML document"
  | .unfit key => s!"invalid solver configuration: unexpected value of '{key}'"

/-- The code under which an error is reported. -/
def code (_ : SettingsError) : String := "shapecheck::smt::config"

end SettingsError

namespace Settings

open Toml

/-- A truth value, or the default of a missing key. -/
def flag (fields : Fields) (key : String) (value : Bool) : Except SettingsError Bool :=
  match fields.get? key with
  | none => .ok value
  | some (.boolean b) => .ok b
  | some _ => .error (.unfit key)

/-- A number of milliseconds, which is not negative. -/
def limit (fields : Fields) (key : String) : Except SettingsError (Option UInt64) :=
  match fields.get? key with
  | none => .ok none
  | some (.integer n) =>
    if 0 ≤ n.toInt then .ok (some (UInt64.ofNat n.toInt.toNat)) else .error (.unfit key)
  | some _ => .error (.unfit key)

/-- The key that a date or time has when it is read as a table. -/
def momentKey : String := "$__toml_private_datetime"

/-- A table of strings. A date or time is one too, of its own text. -/
def strings (fields : Fields) (key : String) : Except SettingsError (Table String String) :=
  match fields.get? key with
  | none => .ok ∅
  | some (.table _ entries) => do
    let pairs ← entries.mapM fun p =>
      match p.2 with
      | .string s => .ok (p.1, s)
      | _ => .error (.unfit key)
    return .ofList pairs
  | some (.moment text) => .ok (.ofList [(momentKey, text)])
  | some _ => .error (.unfit key)

/-- The settings a document holds. -/
def ofToml (text : String) : Except SettingsError Settings :=
  match document? text with
  | none => .error .malformed
  | some fields => do
    return {
      model := ← flag fields "model" true
      proof := ← flag fields "proof" true
      timeout := ← limit fields "timeout_ms"
      shapeLaws := ← flag fields "shape_axioms" true
      params := ← strings fields "params" }

end Settings

end TensorShape
