/-!
# TensorShape.Toml.Item

The data of a TOML document. A table remembers how it came to be, because that decides what may
still be added to it.
-/

namespace TensorShape.Toml

/-- How a table came to be. -/
inductive Origin where
  /-- Written out in braces; nothing can be added. -/
  | inline
  /-- Named by a header; it has its header once. -/
  | header
  /-- Implied by the header of a table inside it. -/
  | implied
  /-- Implied by a dotted key. -/
  | dotted
deriving DecidableEq

inductive Item where
  | string (s : String)
  | integer (n : Int64)
  /-- A floating-point number, as it is written. -/
  | float (text : String)
  | boolean (b : Bool)
  /-- A date, a time, or both, with a `T` between them and no needless digits. -/
  | moment (text : String)
  | array (items : List Item)
  | table (origin : Origin) (fields : List (String × Item))
  /-- An array of tables that headers add to. -/
  | tables (elements : List (List (String × Item)))
deriving Inhabited

abbrev Fields := List (String × Item)

/-- The value of a key. -/
def Fields.get? (fields : Fields) (key : String) : Option Item := fields.lookup key

/-- Put a value for a key in place of the one that is there, or at the end. -/
def Fields.put (fields : Fields) (key : String) (item : Item) : Fields :=
  if fields.any (fun p => p.1 = key) then
    fields.map fun p => if p.1 = key then (key, item) else p
  else fields ++ [(key, item)]

end TensorShape.Toml
