import TensorShape.Json

/-!
# TensorShape.Json.Reader

Reading JSON text. The reader works on the list of characters; every function returns the value it
read and the characters after it. Values nest through `readValue?`, which is given as much fuel as
there are characters: each level of nesting takes up at least one of them.

A reader may be set a limit to how many arrays and objects can be open at once; text that opens more
is refused.
-/

namespace TensorShape.Json

/-! ## Tokens -/

def isBlank (c : Char) : Bool := c = ' ' || c = '\t' || c = '\n' || c = '\r'

def skipBlanks (cs : List Char) : List Char := cs.dropWhile isBlank

/-- The value of a hexadecimal digit, of either case. -/
def hexDigit? (c : Char) : Option Nat :=
  let n := c.toNat
  if 48 ≤ n ∧ n ≤ 57 then some (n - 48)
  else if 97 ≤ n ∧ n ≤ 102 then some (n - 87)
  else if 65 ≤ n ∧ n ≤ 70 then some (n - 55)
  else none

/-- Four hexadecimal digits. -/
def readUnit? : List Char → Option (Nat × List Char)
  | a :: b :: c :: d :: rest => do
    let n := (((← hexDigit? a) * 16 + (← hexDigit? b)) * 16 + (← hexDigit? c)) * 16 + (← hexDigit? d)
    some (n, rest)
  | _ => none

/-- The character of an escape after its backslash. Characters beyond the basic plane take two
units. -/
def readEscape? : List Char → Option (Char × List Char)
  | '"' :: rest => some ('"', rest)
  | '\\' :: rest => some ('\\', rest)
  | '/' :: rest => some ('/', rest)
  | 'b' :: rest => some ('\x08', rest)
  | 'f' :: rest => some ('\x0c', rest)
  | 'n' :: rest => some ('\n', rest)
  | 'r' :: rest => some ('\r', rest)
  | 't' :: rest => some ('\t', rest)
  | 'u' :: rest => do
    let (hi, rest) ← readUnit? rest
    if 0xD800 ≤ hi ∧ hi < 0xDC00 then
      match rest with
      | '\\' :: 'u' :: rest => do
        let (lo, rest) ← readUnit? rest
        if 0xDC00 ≤ lo ∧ lo < 0xE000 then
          some (Char.ofNat (0x10000 + (hi - 0xD800) * 0x400 + (lo - 0xDC00)), rest)
        else none
      | _ => none
    else if 0xDC00 ≤ hi ∧ hi < 0xE000 then none
    else some (Char.ofNat hi, rest)
  | _ => none

/-- The rest of a string after its opening quote; `read` holds the characters so far, last first. -/
def readString? : Nat → List Char → List Char → Option (String × List Char)
  | 0, _, _ => none
  | _ + 1, _, [] => none
  | _ + 1, read, '"' :: rest => some (String.ofList read.reverse, rest)
  | fuel + 1, read, '\\' :: rest => do
    let (c, rest) ← readEscape? rest
    readString? fuel (c :: read) rest
  | fuel + 1, read, c :: rest => if c.toNat < 0x20 then none else readString? fuel (c :: read) rest

/-- A number. It counts as an integer if it has neither fraction nor exponent and is not a negative
zero. -/
def readNumber? (cs : List Char) : Option (Json × List Char) := do
  let (sign, cs) := match cs with
    | '-' :: rest => (['-'], rest)
    | _ => ([], cs)
  let whole := cs.takeWhile Char.isDigit
  let cs := cs.dropWhile Char.isDigit
  if whole = [] ∨ (whole.head? = some '0' ∧ whole.length ≠ 1) then none
  let (fraction, cs) ← match cs with
    | '.' :: rest =>
      let digits := rest.takeWhile Char.isDigit
      if digits = [] then none else some ('.' :: digits, rest.dropWhile Char.isDigit)
    | _ => some ([], cs)
  let (exponent, cs) ← match cs with
    | c :: rest =>
      if c = 'e' ∨ c = 'E' then
        let (mark, rest) := match rest with
          | '+' :: rest => ([c, '+'], rest)
          | '-' :: rest => ([c, '-'], rest)
          | _ => ([c], rest)
        let digits := rest.takeWhile Char.isDigit
        if digits = [] then none else some (mark ++ digits, rest.dropWhile Char.isDigit)
      else some ([], cs)
    | [] => some ([], cs)
  let magnitude : Nat := whole.foldl (fun n d => n * 10 + (d.toNat - 48)) 0
  if fraction = [] ∧ exponent = [] ∧ ¬(sign = ['-'] ∧ magnitude = 0) then
    some (.int (if sign = [] then magnitude else -magnitude), cs)
  else
    some (.real (String.ofList (sign ++ whole ++ fraction ++ exponent)), cs)

/-! ## Values -/

/-- The fields of an object, of each name the last one. -/
def lastFields : List (String × Json) → List (String × Json)
  | [] => []
  | (name, value) :: fields =>
    if fields.any (·.1 = name) then lastFields fields else (name, value) :: lastFields fields

mutual

/-- A value in which no more than `room` arrays and objects are open at once. -/
def readValue? : Nat → Nat → List Char → Option (Json × List Char)
  | 0, _, _ => none
  | fuel + 1, room, cs =>
    match skipBlanks cs with
    | 'n' :: 'u' :: 'l' :: 'l' :: rest => some (.null, rest)
    | 't' :: 'r' :: 'u' :: 'e' :: rest => some (.bool true, rest)
    | 'f' :: 'a' :: 'l' :: 's' :: 'e' :: rest => some (.bool false, rest)
    | '"' :: rest => do
      let (s, rest) ← readString? (rest.length + 1) [] rest
      some (.str s, rest)
    | '[' :: rest =>
      match room with
      | 0 => none
      | room + 1 =>
        match skipBlanks rest with
        | ']' :: rest => some (.arr [], rest)
        | rest => do
          let (items, rest) ← readItems? fuel room rest
          some (.arr items, rest)
    | '\x7b' :: rest =>
      match room with
      | 0 => none
      | room + 1 =>
        match skipBlanks rest with
        | '\x7d' :: rest => some (.obj [], rest)
        | rest => do
          let (fields, rest) ← readFields? fuel room rest
          some (.obj (lastFields fields), rest)
    | cs => readNumber? cs

/-- The items of an array and its closing bracket. -/
def readItems? : Nat → Nat → List Char → Option (List Json × List Char)
  | 0, _, _ => none
  | fuel + 1, room, cs => do
    let (item, rest) ← readValue? fuel room cs
    match skipBlanks rest with
    | ',' :: rest => do
      let (items, rest) ← readItems? fuel room rest
      some (item :: items, rest)
    | ']' :: rest => some ([item], rest)
    | _ => none

/-- The fields of an object and its closing brace. -/
def readFields? : Nat → Nat → List Char → Option (List (String × Json) × List Char)
  | 0, _, _ => none
  | fuel + 1, room, cs =>
    match skipBlanks cs with
    | '"' :: rest => do
      let (name, rest) ← readString? (rest.length + 1) [] rest
      match skipBlanks rest with
      | ':' :: rest => do
        let (value, rest) ← readValue? fuel room rest
        match skipBlanks rest with
        | ',' :: rest => do
          let (fields, rest) ← readFields? fuel room rest
          some ((name, value) :: fields, rest)
        | '\x7d' :: rest => some ([(name, value)], rest)
        | _ => none
      | _ => none
    | _ => none

end

/-- The value a text holds, if it holds one and nothing else but blanks, and never opens more arrays
and objects than the limit allows. Without a limit there is room for as many as there are
characters. -/
def ofText? (limit : Option Nat) (text : String) : Option Json := do
  let cs := text.toList
  let (value, rest) ← readValue? (2 * cs.length + 2) (limit.getD cs.length) cs
  if (skipBlanks rest).isEmpty then some value else none

end TensorShape.Json
