/-!
# TensorShape.Toml.Lexeme

The pieces of a TOML document below the level of values: blanks, comments, line ends, strings and
keys. A reader takes the characters that are left and returns what it read and the characters after
it, or nothing if the text is not of its form.
-/

namespace TensorShape.Toml

/-! ## Characters -/

def isBlank (c : Char) : Bool := c = ' ' || c = '\t'

/-- The characters that may stand in a comment: all but control characters, and the tab. -/
def isPrintable (c : Char) : Bool :=
  c = '\t' || (0x20 ≤ c.toNat && c.toNat ≠ 0x7F)

/-- The characters of a key without quotes. -/
def isBare (c : Char) : Bool := c.isAlphanum || c = '_' || c = '-'

def isHexDigit (c : Char) : Bool :=
  c.isDigit || (97 ≤ c.toNat && c.toNat ≤ 102) || (65 ≤ c.toNat && c.toNat ≤ 70)

/-- The value of a digit in a base of up to sixteen. -/
def digitValue (c : Char) : Nat :=
  if c.isDigit then c.toNat - 48 else if c.toNat < 97 then c.toNat - 55 else c.toNat - 87

/-- The number that digits denote in a base. -/
def number (base : Nat) (digits : List Char) : Nat :=
  digits.foldl (fun n c => n * base + digitValue c) 0

/-! ## Blanks, comments, line ends -/

def skipBlanks (cs : List Char) : List Char := cs.dropWhile isBlank

/-- A line feed, also after a carriage return. -/
def newline? : List Char → Option (List Char)
  | '\n' :: rest => some rest
  | '\r' :: '\n' :: rest => some rest
  | _ => none

/-- Leave out a comment, if one begins here. -/
def skipComment (cs : List Char) : List Char :=
  match cs with
  | '#' :: rest => rest.dropWhile isPrintable
  | _ => cs

/-- The rest of a line that holds nothing more than blanks and a comment, with its end. -/
def lineEnd? (cs : List Char) : Option (List Char) :=
  match skipComment (skipBlanks cs) with
  | [] => some []
  | cs => newline? cs

/-- Leave out blanks, comments and line ends; a comment has to have its line end. -/
def skipLines? : Nat → List Char → Option (List Char)
  | 0, _ => none
  | fuel + 1, cs =>
    match skipBlanks cs with
    | '#' :: rest => do skipLines? fuel (← newline? (rest.dropWhile isPrintable))
    | cs =>
      match newline? cs with
      | some rest => skipLines? fuel rest
      | none => some cs

/-! ## Strings -/

/-- The character with a code given by `n` hexadecimal digits. -/
def codePoint? (n : Nat) (cs : List Char) : Option (Char × List Char) :=
  let digits := cs.take n
  let code := number 16 digits
  if digits.length = n ∧ digits.all isHexDigit ∧ code.isValidChar then
    some (Char.ofNat code, cs.drop n)
  else none

/-- The character of an escape, after its backslash. -/
def escape? : List Char → Option (Char × List Char)
  | 'b' :: rest => some ('\x08', rest)
  | 't' :: rest => some ('\t', rest)
  | 'n' :: rest => some ('\n', rest)
  | 'f' :: rest => some ('\x0c', rest)
  | 'r' :: rest => some ('\r', rest)
  | '"' :: rest => some ('"', rest)
  | '\\' :: rest => some ('\\', rest)
  | 'u' :: rest => codePoint? 4 rest
  | 'U' :: rest => codePoint? 8 rest
  | _ => none

/-- The rest of a string in double quotes; `read` holds its characters so far, last first. -/
def basicString? : Nat → List Char → List Char → Option (String × List Char)
  | 0, _, _ => none
  | fuel + 1, read, cs =>
    match cs with
    | [] => none
    | '"' :: rest => some (String.ofList read.reverse, rest)
    | '\\' :: rest => do
      let (c, rest) ← escape? rest
      basicString? fuel (c :: read) rest
    | c :: rest => if isPrintable c then basicString? fuel (c :: read) rest else none

/-- The rest of a string in single quotes, which has no escapes. -/
def literalString? (cs : List Char) : Option (String × List Char) :=
  let body := cs.takeWhile fun c => isPrintable c && c ≠ '\''
  match cs.drop body.length with
  | '\'' :: rest => some (String.ofList body, rest)
  | _ => none

/-- A backslash at the end of a line stands for nothing, with all blanks and line ends after it. -/
def continuation? (cs : List Char) : Option (List Char) := do
  let rest ← newline? (skipBlanks cs)
  skipLineBreaks (rest.length + 1) rest
where
  skipLineBreaks : Nat → List Char → Option (List Char)
    | 0, _ => none
    | fuel + 1, cs =>
      let cs := skipBlanks cs
      match newline? cs with
      | some rest => skipLineBreaks fuel rest
      | none => some cs

/-- The rest of a string of several lines, in which single and, with `escapes`, double quotes end it
when three stand in a row. Up to two more before the end belong to the string. -/
def multilineString? (quote : Char) (escapes : Bool) :
    Nat → List Char → List Char → Option (String × List Char)
  | 0, _, _ => none
  | fuel + 1, read, cs =>
    match newline? cs with
    | some rest => multilineString? quote escapes fuel ('\n' :: read) rest
    | none =>
      match cs with
      | [] => none
      | c :: rest =>
        if c = quote then
          let run := min 5 (cs.takeWhile (· = quote)).length
          if 3 ≤ run then
            some (String.ofList (List.replicate (run - 3) quote ++ read).reverse, cs.drop run)
          else multilineString? quote escapes fuel (c :: read) rest
        else if escapes ∧ c = '\\' then
          match continuation? rest with
          | some rest => multilineString? quote escapes fuel read rest
          | none =>
            match escape? rest with
            | some (c, rest) => multilineString? quote escapes fuel (c :: read) rest
            | none => none
        else if isPrintable c then multilineString? quote escapes fuel (c :: read) rest
        else none

/-- A line end right after the opening quotes is not part of the string. -/
def skipNewline (cs : List Char) : List Char := (newline? cs).getD cs

/-- A string of any of the four forms. -/
def string? (cs : List Char) : Option (String × List Char) :=
  let fuel := cs.length + 1
  match cs with
  | '"' :: '"' :: '"' :: rest => multilineString? '"' true fuel [] (skipNewline rest)
  | '"' :: rest => basicString? fuel [] rest
  | '\'' :: '\'' :: '\'' :: rest => multilineString? '\'' false fuel [] (skipNewline rest)
  | '\'' :: rest => literalString? rest
  | _ => none

/-! ## Keys -/

/-- One part of a key: a string on one line, or bare characters. -/
def keyPart? (cs : List Char) : Option (String × List Char) :=
  match cs with
  | '"' :: rest => basicString? (rest.length + 1) [] rest
  | '\'' :: rest => literalString? rest
  | _ =>
    let body := cs.takeWhile isBare
    if body = [] then none else some (String.ofList body, cs.drop body.length)

/-- The parts of a key, between dots, with blanks around them. -/
def keyParts? : Nat → List Char → Option (List String × List Char)
  | 0, _ => none
  | fuel + 1, cs => do
    let (part, rest) ← keyPart? (skipBlanks cs)
    match skipBlanks rest with
    | '.' :: rest => do
      let (parts, rest) ← keyParts? fuel rest
      some (part :: parts, rest)
    | rest => some ([part], rest)

/-- Keys and values nest less deep than this. -/
def depthLimit : Nat := 80

def key? (cs : List Char) : Option (List String × List Char) := do
  let (parts, rest) ← keyParts? (cs.length + 1) cs
  if parts.length < depthLimit then some (parts, rest) else none

end TensorShape.Toml
