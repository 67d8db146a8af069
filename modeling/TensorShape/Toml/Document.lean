import TensorShape.Toml.Number

/-!
# TensorShape.Toml.Document

Reading a whole TOML document.

A document is a list of sections: the entries before the first header, then each header with its
entries. `Section`s are read from the text; `addSection` puts them together, and refuses what defines
a key twice or adds to a table that is closed:

* a header names a table that is new, or that other headers implied, or a new element of an array of
  tables;
* a dotted key goes through tables that headers or dotted keys implied, and ends in one that dotted
  keys made.
-/

namespace TensorShape.Toml

/-! ## Entries -/

/-- Add a value under a key with the given path before its last part. A key without dots goes into a
table as it is, the last part of a dotted one only into a table that dotted keys made: `takes` tells
whether these fields take it. -/
def insertAt (fields : Fields) (takes : Bool) (path : List String) (key : String) (item : Item) :
    Option Fields :=
  match path with
  | [] =>
    if takes && (fields.get? key).isNone then some (fields.put key item) else none
  | part :: path =>
    match fields.get? part with
    | none => do
      let inner ← insertAt [] true path key item
      some (fields.put part (.table .dotted inner))
    | some (.table origin inner) =>
      if origin = .implied ∨ origin = .dotted then do
        let inner ← insertAt inner (origin = .dotted) path key item
        some (fields.put part (.table origin inner))
      else none
    | some (.tables elements) => do
      let last ← elements.getLast?
      let last ← insertAt last false path key item
      some (fields.put part (.tables (elements.dropLast ++ [last])))
    | some _ => none

/-- A key with its value. -/
structure Entry where
  path : List String
  key : String
  item : Item

/-- Add entries to a table, one after the other. -/
def fill (fields : Fields) (entries : List Entry) : Option Fields :=
  entries.foldlM (fun fields e => insertAt fields true e.path e.key e.item) fields

/-! ## Values -/

/-- A key and the sign that its value follows. -/
def entryKey? (cs : List Char) : Option (List String × String × List Char) := do
  let (parts, rest) ← key? cs
  let key ← parts.getLast?
  let rest ← expect? '=' rest
  some (parts.dropLast, key, skipBlanks rest)

mutual

/-- A value at the given depth. -/
def item? : Nat → Nat → List Char → Option (Item × List Char)
  | 0, _, _ => none
  | fuel + 1, depth, cs =>
    match cs with
    | 't' :: 'r' :: 'u' :: 'e' :: rest => some (.boolean true, rest)
    | 'f' :: 'a' :: 'l' :: 's' :: 'e' :: rest => some (.boolean false, rest)
    | '[' :: rest =>
      if depth + 1 < depthLimit then do
        let (items, rest) ← arrayItems? fuel (depth + 1) rest
        some (.array items, rest)
      else none
    | '\x7b' :: rest =>
      if depth + 1 < depthLimit then
        match skipBlanks rest with
        | '\x7d' :: rest => some (.table .inline [], rest)
        | rest => do
          let (entries, rest) ← inlineEntries? fuel (depth + 1) rest
          some (.table .inline (← fill [] entries), rest)
      else none
    | '"' :: _ => (string? cs).map fun p => (.string p.1, p.2)
    | '\'' :: _ => (string? cs).map fun p => (.string p.1, p.2)
    | _ => number? cs

/-- The items of an array and its closing bracket; a comma may follow the last one. -/
def arrayItems? : Nat → Nat → List Char → Option (List Item × List Char)
  | 0, _, _ => none
  | fuel + 1, depth, cs => do
    match ← skipLines? (cs.length + 1) cs with
    | ']' :: rest => some ([], rest)
    | cs => do
      let (item, rest) ← item? fuel depth cs
      match ← skipLines? (rest.length + 1) rest with
      | ',' :: rest => do
        let (items, rest) ← arrayItems? fuel depth rest
        some (item :: items, rest)
      | ']' :: rest => some ([item], rest)
      | _ => none

/-- The entries of a table in braces and its closing brace; no comma follows the last one. -/
def inlineEntries? : Nat → Nat → List Char → Option (List Entry × List Char)
  | 0, _, _ => none
  | fuel + 1, depth, cs => do
    let (path, key, rest) ← entryKey? cs
    let (item, rest) ← item? fuel depth rest
    match skipBlanks rest with
    | ',' :: rest => do
      let (entries, rest) ← inlineEntries? fuel depth rest
      some (⟨path, key, item⟩ :: entries, rest)
    | '\x7d' :: rest => some ([⟨path, key, item⟩], rest)
    | _ => none

end

/-! ## Lines -/

inductive Header where
  | root
  /-- A table. -/
  | table (path : List String)
  /-- A new element of an array of tables. -/
  | element (path : List String)

/-- What a line of a document says. -/
inductive Line where
  | header (h : Header)
  | entry (e : Entry)

/-- The lines of a document that say something. -/
def lines? : Nat → List Char → Option (List Line)
  | 0, _ => none
  | fuel + 1, cs =>
    match skipBlanks cs with
    | [] => some []
    | '#' :: rest => do lines? fuel (← lineEnd? ('#' :: rest))
    | '\n' :: rest => lines? fuel rest
    | '\r' :: '\n' :: rest => lines? fuel rest
    | '[' :: '[' :: rest => do
      let (path, rest) ← key? rest
      let rest ← expect? ']' rest
      let rest ← expect? ']' rest
      let lines ← lines? fuel (← lineEnd? rest)
      some (.header (.element path) :: lines)
    | '[' :: rest => do
      let (path, rest) ← key? rest
      let rest ← expect? ']' rest
      let lines ← lines? fuel (← lineEnd? rest)
      some (.header (.table path) :: lines)
    | cs => do
      let (path, key, rest) ← entryKey? cs
      let (item, rest) ← item? (2 * rest.length + 2) 0 rest
      let lines ← lines? fuel (← lineEnd? rest)
      some (.entry ⟨path, key, item⟩ :: lines)

/-! ## Sections -/

/-- A header and the entries after it. -/
structure Section where
  header : Header
  entries : List Entry

/-- The sections of a list of lines, the first one with the given header. -/
def sections (header : Header) : List Line → List Section
  | [] => [⟨header, []⟩]
  | .header h :: lines => ⟨header, []⟩ :: sections h lines
  | .entry e :: lines =>
    match sections header lines with
    | s :: rest => { s with entries := e :: s.entries } :: rest
    | [] => [⟨header, [e]⟩]

/-- Change the table that a header's path leads to; tables that are not there are implied. -/
def updateAt (fields : Fields) (path : List String) (change : Fields → Option Fields) :
    Option Fields :=
  match path with
  | [] => change fields
  | part :: path =>
    match fields.get? part with
    | none => do
      let inner ← updateAt [] path change
      some (fields.put part (.table .implied inner))
    | some (.table origin inner) =>
      if origin = .inline then none
      else do
        let inner ← updateAt inner path change
        some (fields.put part (.table origin inner))
    | some (.tables elements) => do
      let last ← elements.getLast?
      let last ← updateAt last path change
      some (fields.put part (.tables (elements.dropLast ++ [last])))
    | some _ => none

def addSection (root : Fields) (s : Section) : Option Fields :=
  match s.header with
  | .root => fill root s.entries
  | .table path => do
    let key ← path.getLast?
    updateAt root path.dropLast fun parent =>
      match parent.get? key with
      | none => do some (parent.put key (.table .header (← fill [] s.entries)))
      | some (.table .implied inner) => do
        some (parent.put key (.table .header (← fill inner s.entries)))
      | some _ => none
  | .element path => do
    let key ← path.getLast?
    updateAt root path.dropLast fun parent =>
      match parent.get? key with
      | none => do some (parent.put key (.tables [← fill [] s.entries]))
      | some (.tables elements) => do
        some (parent.put key (.tables (elements ++ [← fill [] s.entries])))
      | some _ => none

/-- The table that a document is. A byte order mark at the start is passed over. -/
def document? (text : String) : Option Fields := do
  let cs := match text.toList with
    | '\uFEFF' :: rest => rest
    | cs => cs
  let lines ← lines? (cs.length + 1) cs
  (sections .root lines).foldlM addSection []

end TensorShape.Toml
