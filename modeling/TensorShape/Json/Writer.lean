import TensorShape.Json

/-!
# TensorShape.Json.Writer

Writing JSON text on one line, without blanks. Characters below U+0020, the quote and the backslash
are escaped, by a letter if there is one for them; all others stand as they are.
-/

namespace TensorShape.Json

/-- A character as it stands inside quotes. -/
def escape (c : Char) : String :=
  match c with
  | '"' => "\\\""
  | '\\' => "\\\\"
  | '\x08' => "\\b"
  | '\t' => "\\t"
  | '\n' => "\\n"
  | '\x0c' => "\\f"
  | '\r' => "\\r"
  | c =>
    if c.toNat < 0x20 then
      let digit (n : Nat) : Char := Nat.digitChar n
      String.ofList ['\\', 'u', '0', '0', digit (c.toNat / 16), digit (c.toNat % 16)]
    else c.toString

def quote (s : String) : String :=
  (s.foldl (fun text c => text ++ escape c) "\"").push '"'

mutual

/-- The text of a value, written after `text`. -/
def writeTo (text : String) : Json → String
  | .null => text ++ "null"
  | .bool true => text ++ "true"
  | .bool false => text ++ "false"
  | .int n => text ++ toString n
  | .real number => text ++ number
  | .str s => text ++ quote s
  | .arr items => (writeItems (text.push '[') items true).push ']'
  | .obj fields => (writeFields (text.push '\x7b') fields true).push '\x7d'

def writeItems (text : String) : List Json → Bool → String
  | [], _ => text
  | item :: items, first =>
    writeItems (writeTo (if first then text else text.push ',') item) items false

def writeFields (text : String) : List (String × Json) → Bool → String
  | [], _ => text
  | (name, value) :: fields, first =>
    let text := (if first then text else text.push ',') ++ quote name
    writeFields (writeTo (text.push ':') value) fields false

end

def toText (j : Json) : String := j.writeTo ""

end TensorShape.Json
