import TensorShape.Toml.Item
import TensorShape.Toml.Lexeme
import TensorShape.Word

/-!
# TensorShape.Toml.Number

Numbers, dates and times of TOML.
-/

namespace TensorShape.Toml

/-! ## Digits -/

/-- Digits of a class, single underscores between them. -/
def digits? (isDigit : Char → Bool) : Nat → List Char → Option (List Char × List Char)
  | 0, _ => none
  | fuel + 1, cs =>
    match cs with
    | c :: rest =>
      if isDigit c then
        match rest with
        | '_' :: more => do
          let (ds, rest) ← digits? isDigit fuel more
          some (c :: ds, rest)
        | d :: _ =>
          if isDigit d then do
            let (ds, rest) ← digits? isDigit fuel rest
            some (c :: ds, rest)
          else some ([c], rest)
        | [] => some ([c], [])
      else none
    | [] => none

def decimals? (cs : List Char) : Option (List Char × List Char) := digits? Char.isDigit (cs.length + 1) cs

/-- A sign, if there is one: is the number negative? -/
def sign (cs : List Char) : Bool × List Char :=
  match cs with
  | '+' :: rest => (false, rest)
  | '-' :: rest => (true, rest)
  | _ => (false, cs)

/-- The digits of a whole number, which has no leading zero. -/
def whole? (cs : List Char) : Option (List Char × List Char) :=
  match cs with
  | '0' :: rest => some (['0'], rest)
  | _ => decimals? cs

/-! ## Integers -/

def integer? (n : Int) : Option Item := (word? n).map .integer

/-- An integer in base sixteen, eight or two, after its mark. -/
def basedInteger? (base : Nat) (isDigit : Char → Bool) (cs : List Char) :
    Option (Item × List Char) := do
  let (ds, rest) ← digits? isDigit (cs.length + 1) cs
  some (← integer? (number base ds), rest)

/-! ## Floating-point numbers -/

/-- Does the decimal `m * 10 ^ e` round to infinity as a double? It does from the middle between the
greatest double and the power of two above it. -/
def overflowsDouble (m : Nat) (e : Int) : Bool :=
  let size := (toString m).length + e
  if m = 0 ∨ size < 300 then false
  else if 320 < size then true
  else
    let limit := Nat.pow 2 1024 - Nat.pow 2 970
    if 0 ≤ e then limit ≤ m * Nat.pow 10 e.toNat else limit * Nat.pow 10 (-e).toNat ≤ m

/-- The digits after a decimal point, if there is one. -/
def fraction? (cs : List Char) : Option (List Char × List Char) :=
  match cs with
  | '.' :: rest => decimals? rest
  | _ => some ([], cs)

/-- The exponent, if there is one. -/
def exponent? (cs : List Char) : Option (Option Int × List Char) :=
  match cs with
  | c :: rest =>
    if c = 'e' ∨ c = 'E' then do
      let (negative, rest) := sign rest
      let (ds, rest) ← decimals? rest
      let n : Int := number 10 ds
      some (some (if negative then -n else n), rest)
    else some (none, cs)
  | [] => some (none, cs)

/-- A decimal number: an integer if it has neither fraction nor exponent. A floating-point number
must not be too great; it may be too small. -/
def decimal? (cs : List Char) : Option (Item × List Char) := do
  let (negative, afterSign) := sign cs
  let (ds, rest) ← whole? afterSign
  let (fraction, rest) ← fraction? rest
  let (exponent, rest) ← exponent? rest
  if fraction = [] ∧ exponent = none then
    let n : Int := number 10 ds
    some (← integer? (if negative then -n else n), rest)
  else if !negative && overflowsDouble (number 10 (ds ++ fraction)) (exponent.getD 0 - fraction.length)
  then none
  else some (.float (String.ofList (cs.take (cs.length - rest.length))), rest)

/-- Infinity or not-a-number, with or without a sign. -/
def special? (cs : List Char) : Option (Item × List Char) :=
  match sign cs with
  | (_, 'i' :: 'n' :: 'f' :: rest) => some (.float "inf", rest)
  | (_, 'n' :: 'a' :: 'n' :: rest) => some (.float "nan", rest)
  | _ => none

/-! ## Dates and times -/

/-- A number of `n` digits within a range. -/
def fixed? (n low high : Nat) (cs : List Char) : Option (Nat × List Char) :=
  let ds := cs.take n
  let v := number 10 ds
  if ds.length = n ∧ ds.all Char.isDigit ∧ low ≤ v ∧ v ≤ high then some (v, cs.drop n) else none

/-- One expected character. -/
def expect? (c : Char) : List Char → Option (List Char)
  | [] => none
  | d :: rest => if d = c then some rest else none

def daysInMonth (year month : Nat) : Nat :=
  if month = 2 then
    if year % 4 = 0 ∧ (year % 100 ≠ 0 ∨ year % 400 = 0) then 29 else 28
  else if month = 4 ∨ month = 6 ∨ month = 9 ∨ month = 11 then 30
  else 31

/-- Year, month and day. -/
def date? (cs : List Char) : Option (String × List Char) := do
  let (year, rest) ← fixed? 4 0 9999 cs
  let (month, rest) ← fixed? 2 1 12 (← expect? '-' rest)
  let (_, rest) ← fixed? 2 1 (daysInMonth year month) (← expect? '-' rest)
  some (String.ofList (cs.take 10), rest)

/-- A fraction of a second: nine digits count, and zeros at the end are left out. -/
def secondsFraction (ds : List Char) : String :=
  match ((ds.take 9).reverse.dropWhile (· = '0')).reverse with
  | [] => ""
  | ds => "." ++ String.ofList ds

/-- Hour, minute and second, which may be a leap second and have a fraction. -/
def time? (cs : List Char) : Option (String × List Char) := do
  let (_, rest) ← fixed? 2 0 23 cs
  let (_, rest) ← fixed? 2 0 59 (← expect? ':' rest)
  let (_, rest) ← fixed? 2 0 60 (← expect? ':' rest)
  let seconds := String.ofList (cs.take 8)
  match rest with
  | '.' :: rest =>
    let ds := rest.takeWhile Char.isDigit
    if ds = [] then none else some (seconds ++ secondsFraction ds, rest.drop ds.length)
  | _ => some (seconds, rest)

/-- The distance from universal time, if it is given. No distance has a positive sign. -/
def offset? (cs : List Char) : Option (String × List Char) :=
  match cs with
  | c :: rest =>
    if c = 'Z' ∨ c = 'z' then some ("Z", rest)
    else if c = '+' ∨ c = '-' then do
      let (hours, after) ← fixed? 2 0 23 rest
      let (minutes, after) ← fixed? 2 0 59 (← expect? ':' after)
      let mark := if hours = 0 ∧ minutes = 0 then '+' else c
      some (String.ofList (mark :: rest.take 5), after)
    else some ("", cs)
  | [] => some ("", cs)

/-- A time after a date, if one follows. -/
def timeAfterDate? (cs : List Char) : Option (String × List Char) :=
  match cs with
  | c :: rest =>
    if c = 'T' ∨ c = 't' ∨ c = ' ' then
      match time? rest with
      | some (time, rest) => (offset? rest).map fun p => ("T" ++ time ++ p.1, p.2)
      | none => some ("", cs)
    else some ("", cs)
  | [] => some ("", cs)

/-- A date, a time, or both. -/
def moment? (cs : List Char) : Option (Item × List Char) :=
  match date? cs with
  | some (date, rest) => (timeAfterDate? rest).map fun p => (.moment (date ++ p.1), p.2)
  | none => (time? cs).map fun p => (.moment p.1, p.2)

/-- A number, a date or a time. -/
def number? (cs : List Char) : Option (Item × List Char) :=
  match moment? cs with
  | some r => some r
  | none =>
    match cs with
    | '0' :: 'x' :: rest => basedInteger? 16 isHexDigit rest
    | '0' :: 'o' :: rest => basedInteger? 8 (fun c => c.isDigit && c.toNat < 56) rest
    | '0' :: 'b' :: rest => basedInteger? 2 (fun c => c = '0' || c = '1') rest
    | _ =>
      match special? cs with
      | some r => some r
      | none => decimal? cs

end TensorShape.Toml
