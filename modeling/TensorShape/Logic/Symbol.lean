/-!
# TensorShape.Logic.Symbol

Names of unknowns. A name loses its NUL characters when it becomes a symbol, so names that differ in
NULs only are one symbol. `Symbol.text` writes a symbol in SMT-LIB: bare where the grammar allows it,
else between bars.
-/

namespace TensorShape

structure Symbol where
  name : String
deriving DecidableEq, Inhabited

namespace Symbol

/-- The symbol of a name. -/
def ofName (name : String) : Symbol := ⟨String.ofList (name.toList.filter fun c => c.toNat ≠ 0)⟩

/-- The characters of a bare symbol. -/
def isSimple (c : Char) : Bool := c.isAlphanum || "~!@$%^&*_-+=<>.?/".toList.contains c

/-- Does a bar or backslash stand unescaped in the text between two bars? -/
def hasStray : List Char → Bool
  | [] => false
  | '\\' :: '\\' :: rest => hasStray rest
  | '\\' :: '|' :: rest => hasStray rest
  | c :: rest => c = '\\' || c = '|' || hasStray rest

/-- Must the symbol be put between bars? One that is between bars already need not. -/
def needsBars (cs : List Char) : Bool :=
  match cs with
  | [] => false
  | c :: rest =>
    if c.isDigit then true
    else if c = '|' && rest.getLast? = some '|' then hasStray rest.dropLast
    else cs.any fun c => !isSimple c

/-- A symbol as it is written; the empty one has a name of its own. -/
def text (s : Symbol) : String :=
  let cs := s.name.toList
  if cs = [] then "null"
  else if needsBars cs then
    "|" ++ String.ofList (cs.flatMap fun c => if c = '|' || c = '\\' then ['\\', c] else [c]) ++ "|"
  else s.name

end Symbol

end TensorShape
