import TensorShape.Json.Reader
import TensorShape.Json.Writer

/-!
# TensorShape.Proofs.JsonText

Text that was written can be read, unless the reader is set a limit and the value nests deeper than
that: `ofText?_toText`.

The writer appends to a text; `chars` says which characters it appends for a value, and
`toList_writeTo` that it does. For the reader each lemma has the form "what was written, with
anything behind it, is read if there is room for it, and what is behind it is left". A number is read
as far as it goes, so behind a value there must be nothing that could go on with it (`Stops`).

A number that is not an integer stands in a value as its text, which may be any text. The values
that data is laid out in have none, and their objects have each name once (`Plain`).
-/

namespace TensorShape.Json

/-! ## What is written -/

/-- A string between its quotes. -/
def quotedChars (s : String) : List Char :=
  '"' :: (s.toList.flatMap (fun c => (escape c).toList) ++ ['"'])

mutual

/-- The characters of a value. -/
def chars : Json → List Char
  | .null => ['n', 'u', 'l', 'l']
  | .bool true => ['t', 'r', 'u', 'e']
  | .bool false => ['f', 'a', 'l', 's', 'e']
  | .int n => (toString n).toList
  | .real number => number.toList
  | .str s => quotedChars s
  | .arr [] => ['[', ']']
  | .arr (item :: items) => '[' :: (chars item ++ moreItems items ++ [']'])
  | .obj [] => ['\x7b', '\x7d']
  | .obj ((name, value) :: fields) =>
    '\x7b' :: (quotedChars name ++ ':' :: chars value ++ moreFields fields ++ ['\x7d'])

/-- The characters of the items after the first. -/
def moreItems : List Json → List Char
  | [] => []
  | item :: items => ',' :: (chars item ++ moreItems items)

/-- The characters of the fields after the first. -/
def moreFields : List (String × Json) → List Char
  | [] => []
  | (name, value) :: fields => ',' :: (quotedChars name ++ ':' :: chars value ++ moreFields fields)

end

theorem toList_foldl_escape (cs : List Char) (text : String) :
    (cs.foldl (fun text c => text ++ escape c) text).toList =
      text.toList ++ cs.flatMap fun c => (escape c).toList := by
  induction cs generalizing text with
  | nil => simp
  | cons c cs ih => simp [ih]

theorem toList_quote (s : String) : (quote s).toList = quotedChars s := by
  rw [quote, String.toList_push, String.foldl_eq_foldl_toList, toList_foldl_escape, quotedChars]
  rfl

mutual

/-- The writer appends the characters of a value. -/
theorem toList_writeTo (text : String) :
    ∀ j : Json, (j.writeTo text).toList = text.toList ++ chars j
  | .null => by simp [writeTo, chars]
  | .bool true => by simp [writeTo, chars]
  | .bool false => by simp [writeTo, chars]
  | .int n => by simp [writeTo, chars]
  | .real number => by simp [writeTo, chars]
  | .str s => by simp [writeTo, chars, toList_quote]
  | .arr [] => by simp [writeTo, writeItems, chars]
  | .arr (item :: items) => by
    simp [writeTo, writeItems, chars, toList_writeItems _ items, toList_writeTo _ item]
  | .obj [] => by simp [writeTo, writeFields, chars]
  | .obj ((name, value) :: fields) => by
    simp [writeTo, writeFields, chars, toList_writeFields _ fields, toList_writeTo _ value,
      toList_quote]

/-- The writer appends the items after the first, each behind a comma. -/
theorem toList_writeItems (text : String) :
    ∀ items : List Json, (writeItems text items false).toList = text.toList ++ moreItems items
  | [] => by simp [writeItems, moreItems]
  | item :: items => by
    simp [writeItems, moreItems, toList_writeItems _ items, toList_writeTo _ item]

/-- The writer appends the fields after the first, each behind a comma. -/
theorem toList_writeFields (text : String) :
    ∀ fields : List (String × Json),
      (writeFields text fields false).toList = text.toList ++ moreFields fields
  | [] => by simp [writeFields, moreFields]
  | (name, value) :: fields => by
    simp [writeFields, moreFields, toList_writeFields _ fields, toList_writeTo _ value,
      toList_quote]

end

theorem toList_toText (j : Json) : j.toText.toList = chars j := by
  rw [toText, toList_writeTo]
  rfl

/-! ## Strings -/

theorem hexDigit?_digitChar : ∀ n, n < 16 → hexDigit? n.digitChar = some n := by decide

/-- The escape of a control character, after its backslash. -/
theorem readEscape?_control {c : Char} (h : c.toNat < 0x20) (rest : List Char) :
    readEscape? ('u' :: '0' :: '0' :: (c.toNat / 16).digitChar :: (c.toNat % 16).digitChar ::
      rest) = some (c, rest) := by
  have hzero : hexDigit? '0' = some 0 := rfl
  have hhigh := hexDigit?_digitChar (c.toNat / 16) (by omega)
  have hlow := hexDigit?_digitChar (c.toNat % 16) (by omega)
  have hvalue : c.toNat / 16 * 16 + c.toNat % 16 = c.toNat := by omega
  have hunit : readUnit? ('0' :: '0' :: (c.toNat / 16).digitChar :: (c.toNat % 16).digitChar ::
      rest) = some (c.toNat, rest) := by
    simp [readUnit?, hzero, hhigh, hlow, hvalue]
  have hhalf : ¬(0xD800 ≤ c.toNat ∧ c.toNat < 0xDC00) := by omega
  have hhalf' : ¬(0xDC00 ≤ c.toNat ∧ c.toNat < 0xE000) := by omega
  simp [readEscape?, hunit, hhalf, hhalf']

/-- An escaped character is read as one character. -/
theorem readString?_escape (c : Char) (fuel : Nat) (read rest : List Char) :
    readString? (fuel + 1) read ((escape c).toList ++ rest) =
      readString? fuel (c :: read) rest := by
  unfold escape
  split
  case h_8 hquote hslash hb ht hn hf hr =>
    by_cases hcontrol : c.toNat < 0x20
    · have hescape : (String.ofList ['\\', 'u', '0', '0', (c.toNat / 16).digitChar,
          (c.toNat % 16).digitChar]).toList ++ rest = '\\' :: 'u' :: '0' :: '0' ::
          (c.toNat / 16).digitChar :: (c.toNat % 16).digitChar :: rest := by simp
      rw [if_pos hcontrol, hescape]
      simp [readString?, readEscape?_control hcontrol]
    · simp [readString?, hcontrol]
  -- The others are escaped by a letter.
  all_goals rfl

/-- No character vanishes when it is escaped. -/
theorem length_escape_pos (c : Char) : 0 < (escape c).toList.length := by
  unfold escape
  split
  case h_8 => split <;> simp
  all_goals decide

/-- A string that was escaped is read up to its closing quote. -/
theorem readString?_flatMap_escape (cs : List Char) {fuel : Nat} (read rest : List Char)
    (hfuel : cs.length < fuel) :
    readString? fuel read (cs.flatMap (fun c => (escape c).toList) ++ '"' :: rest) =
      some (String.ofList (read.reverse ++ cs), rest) := by
  induction cs generalizing fuel read with
  | nil =>
    obtain ⟨n, rfl⟩ : ∃ n, fuel = n + 1 := ⟨fuel - 1, by simp at hfuel; omega⟩
    simp [readString?]
  | cons c cs ih =>
    obtain ⟨n, rfl⟩ : ∃ n, fuel = n + 1 := ⟨fuel - 1, by simp at hfuel; omega⟩
    rw [List.flatMap_cons, List.append_assoc, readString?_escape,
      ih (c :: read) (by simpa using hfuel)]
    simp

/-- Escaping makes no text shorter. -/
theorem length_le_length_flatMap_escape (cs : List Char) :
    cs.length ≤ (cs.flatMap fun c => (escape c).toList).length := by
  induction cs with
  | nil => simp
  | cons c cs ih =>
    have hpos := length_escape_pos c
    simp only [List.flatMap_cons, List.length_append, List.length_cons]
    omega

/-- What stands behind the opening quote of a string. -/
def afterQuote (s : String) (rest : List Char) : List Char :=
  s.toList.flatMap (fun c => (escape c).toList) ++ '"' :: rest

theorem quotedChars_append (s : String) (rest : List Char) :
    quotedChars s ++ rest = '"' :: afterQuote s rest := by
  simp [quotedChars, afterQuote]

/-- The fuel that the reader gives for a string is enough. -/
theorem readString?_afterQuote (s : String) (rest : List Char) :
    readString? ((afterQuote s rest).length + 1) [] (afterQuote s rest) = some (s, rest) := by
  have hlength := length_le_length_flatMap_escape s.toList
  rw [afterQuote,
    readString?_flatMap_escape s.toList [] rest (by simp only [List.length_append]; omega)]
  simp

/-! ## Numbers -/

/-- Nothing at the beginning of the text could go on with a number. -/
def Stops (rest : List Char) : Prop :=
  ∀ c ∈ rest.head?, c.isDigit = false ∧ c ≠ '.' ∧ c ≠ 'e' ∧ c ≠ 'E'

theorem stops_nil : Stops [] := by
  intro c hc
  cases hc

theorem stops_cons {c : Char} (hc : c.isDigit = false ∧ c ≠ '.' ∧ c ≠ 'e' ∧ c ≠ 'E')
    (rest : List Char) : Stops (c :: rest) := by
  intro d hd
  cases hd
  exact hc

/-- The digits of a number begin with a zero only if it is zero. -/
theorem eq_zero_of_head?_toDigits {n : Nat} (h : (Nat.toDigits 10 n).head? = some '0') : n = 0 := by
  induction n using Nat.strongRecOn with
  | _ n ih =>
    by_cases hn : n < 10
    · rw [Nat.toDigits_of_lt_base hn] at h
      simpa using h
    · rw [Nat.toDigits_of_base_le (by decide) (by omega)] at h
      have hhead : (Nat.toDigits 10 (n / 10)).head? = some '0' := by
        rw [List.head?_append, List.head?_eq_some_head Nat.toDigits_ne_nil, Option.some_or] at h
        rw [List.head?_eq_some_head Nat.toDigits_ne_nil, h]
      have hzero := ih (n / 10) (by omega) hhead
      omega

/-- The digits of a number are read as far as they go, and no further. -/
theorem takeWhile_toDigits (n : Nat) {rest : List Char} (hrest : Stops rest) :
    (Nat.toDigits 10 n ++ rest).takeWhile Char.isDigit = Nat.toDigits 10 n ∧
      (Nat.toDigits 10 n ++ rest).dropWhile Char.isDigit = rest := by
  have hdigits : ∀ c ∈ Nat.toDigits 10 n, c.isDigit = true :=
    fun c hc => Nat.isDigit_of_mem_toDigits (by decide) (by decide) hc
  have hstop : rest.takeWhile Char.isDigit = [] ∧ rest.dropWhile Char.isDigit = rest := by
    cases rest with
    | nil => exact ⟨rfl, rfl⟩
    | cons c rest =>
      have hc := (hrest c rfl).1
      simp [hc]
  rw [List.takeWhile_append_of_pos hdigits, List.dropWhile_append_of_pos hdigits, hstop.1, hstop.2,
    List.append_nil]
  exact ⟨rfl, rfl⟩

/-- The digits of a number have its value. -/
theorem foldl_toDigits (n : Nat) :
    (Nat.toDigits 10 n).foldl (fun m d => m * 10 + (d.toNat - 48)) 0 = n := by
  have hvalue := Nat.ofDigitChars_ten_toDigits (n := n)
  rw [Nat.ofDigitChars_eq_foldl] at hvalue
  simpa [Nat.mul_comm] using hvalue

/-- The digits of a number are what the reader asks for before a fraction or an exponent. -/
theorem toDigits_admissible (n : Nat) :
    ¬(Nat.toDigits 10 n = [] ∨
      (Nat.toDigits 10 n).head? = some '0' ∧ (Nat.toDigits 10 n).length ≠ 1) := by
  rintro (hnil | ⟨hhead, hlength⟩)
  · exact Nat.toDigits_ne_nil hnil
  · rw [eq_zero_of_head?_toDigits hhead] at hlength
    exact hlength rfl

/-- Digits do not begin with a sign. -/
theorem toDigits_append_ne_minus (n : Nat) (rest cs : List Char) :
    Nat.toDigits 10 n ++ rest ≠ '-' :: cs := by
  intro heq
  obtain ⟨d, ds, hds⟩ := List.exists_cons_of_ne_nil (Nat.toDigits_ne_nil (n := n) (b := 10))
  have hdigit : d.isDigit = true :=
    Nat.isDigit_of_mem_toDigits (by decide) (by decide) (hds ▸ List.mem_cons_self)
  rw [hds, List.cons_append] at heq
  rw [List.head_eq_of_cons_eq heq] at hdigit
  exact absurd hdigit (by decide)

/-- A natural number that was written is read. -/
theorem readNumber?_toDigits (n : Nat) {rest : List Char} (hrest : Stops rest) :
    readNumber? (Nat.toDigits 10 n ++ rest) = some (.int n, rest) := by
  obtain ⟨htake, hdrop⟩ := takeWhile_toDigits n hrest
  have hsign := toDigits_append_ne_minus n rest
  generalize Nat.toDigits 10 n ++ rest = cs at htake hdrop hsign
  unfold readNumber?
  simp only [htake, hdrop, if_neg (toDigits_admissible n), foldl_toDigits]
  cases rest with
  | nil => simp
  | cons c rest =>
    obtain ⟨-, hpoint, he, hE⟩ := hrest c rfl
    simp [hpoint, he, hE]

/-- A negative zero would be no integer. -/
theorem readNumber?_minus_toDigits {n : Nat} (hn : n ≠ 0) {rest : List Char} (hrest : Stops rest) :
    readNumber? ('-' :: (Nat.toDigits 10 n ++ rest)) = some (.int (-n), rest) := by
  obtain ⟨htake, hdrop⟩ := takeWhile_toDigits n hrest
  unfold readNumber?
  simp only [htake, hdrop, if_neg (toDigits_admissible n), foldl_toDigits]
  cases rest with
  | nil => simp [hn]
  | cons c rest =>
    obtain ⟨-, hpoint, he, hE⟩ := hrest c rfl
    simp [hpoint, he, hE, hn]

/-- An integer that was written is read. -/
theorem readNumber?_toString (n : Int) {rest : List Char} (hrest : Stops rest) :
    readNumber? ((toString n).toList ++ rest) = some (.int n, rest) := by
  rw [Int.toString_eq_repr, Int.repr_eq_if]
  split
  · next hn =>
    rw [Nat.toList_repr, readNumber?_toDigits n.toNat hrest, Int.toNat_of_nonneg hn]
  · next hn =>
    have hsign : ("-" ++ (-n).toNat.repr).toList = '-' :: Nat.toDigits 10 (-n).toNat := by
      rw [String.toList_append, Nat.toList_repr]
      rfl
    rw [hsign, List.cons_append, readNumber?_minus_toDigits (by omega) hrest,
      Int.toNat_of_nonneg (by omega), Int.neg_neg]

/-! ## Values -/

/-- Values without numbers that are no integers, and with each name once in an object. -/
inductive Plain : Json → Prop
  | null : Plain .null
  | bool (b : Bool) : Plain (.bool b)
  | int (n : Int) : Plain (.int n)
  | str (s : String) : Plain (.str s)
  | arr {items : List Json} (h : ∀ j ∈ items, Plain j) : Plain (.arr items)
  | obj {fields : List (String × Json)} (hnames : (fields.map Prod.fst).Nodup)
    (h : ∀ p ∈ fields, Plain p.2) : Plain (.obj fields)

mutual

/-- How many arrays and objects of a value are open at once. -/
def depth : Json → Nat
  | .arr items => depthItems items + 1
  | .obj fields => depthFields fields + 1
  | _ => 0

def depthItems : List Json → Nat
  | [] => 0
  | item :: items => max (depth item) (depthItems items)

def depthFields : List (String × Json) → Nat
  | [] => 0
  | (_, value) :: fields => max (depth value) (depthFields fields)

end

/-- There is room for the items if there is room for each of them. -/
theorem depthItems_cons_le_iff {item : Json} {items : List Json} {n : Nat} :
    depthItems (item :: items) ≤ n ↔ depth item ≤ n ∧ depthItems items ≤ n := by
  rw [depthItems, Nat.max_le]

/-- There is room for the fields if there is room for the value of each of them. -/
theorem depthFields_cons_le_iff {name : String} {value : Json} {fields : List (String × Json)}
    {n : Nat} :
    depthFields ((name, value) :: fields) ≤ n ↔ depth value ≤ n ∧ depthFields fields ≤ n := by
  rw [depthFields, Nat.max_le]

mutual

/-- Each array and object takes up a character. -/
theorem depth_le_length_chars : ∀ j : Json, depth j ≤ (chars j).length
  | .null => Nat.zero_le _
  | .bool _ => Nat.zero_le _
  | .int _ => Nat.zero_le _
  | .real _ => Nat.zero_le _
  | .str _ => Nat.zero_le _
  | .arr [] => by simp [depth, depthItems, chars]
  | .arr (item :: items) => by
    have hitem := depth_le_length_chars item
    have hitems := depthItems_le_length_moreItems items
    simp only [depth, depthItems, chars, List.length_cons, List.length_append]
    omega
  | .obj [] => by simp [depth, depthFields, chars]
  | .obj ((name, value) :: fields) => by
    have hvalue := depth_le_length_chars value
    have hfields := depthFields_le_length_moreFields fields
    simp only [depth, depthFields, chars, List.length_cons, List.length_append]
    omega

theorem depthItems_le_length_moreItems :
    ∀ items : List Json, depthItems items ≤ (moreItems items).length
  | [] => Nat.zero_le _
  | item :: items => by
    have hitem := depth_le_length_chars item
    have hitems := depthItems_le_length_moreItems items
    simp only [depthItems, moreItems, List.length_cons, List.length_append]
    omega

theorem depthFields_le_length_moreFields :
    ∀ fields : List (String × Json), depthFields fields ≤ (moreFields fields).length
  | [] => Nat.zero_le _
  | (name, value) :: fields => by
    have hvalue := depth_le_length_chars value
    have hfields := depthFields_le_length_moreFields fields
    simp only [depthFields, moreFields, List.length_cons, List.length_append]
    omega

end

/-- What is written for a value is read as that value, as far as it goes, if there is room for it,
and else refused. Each character pays for two levels of nesting: an item is two levels below its
array. -/
def Readable (j : Json) : Prop :=
  ∀ fuel room rest, 2 * (chars j).length ≤ fuel + 1 → Stops rest →
    readValue? (fuel + 1) room (chars j ++ rest) = if depth j ≤ room then some (j, rest) else none

@[simp] theorem skipBlanks_cons {c : Char} (hc : isBlank c = false) (cs : List Char) :
    skipBlanks (c :: cs) = c :: cs := by
  rw [skipBlanks, List.dropWhile_cons_of_neg (by simp [hc])]

/-- The first character of a number. -/
theorem exists_toString_eq_cons (n : Int) :
    ∃ c cs, (toString n).toList = c :: cs ∧ (c.isDigit = true ∨ c = '-') := by
  rw [Int.toString_eq_repr, Int.repr_eq_if]
  split
  · obtain ⟨d, ds, hds⟩ := List.exists_cons_of_ne_nil (Nat.toDigits_ne_nil (n := n.toNat) (b := 10))
    have hdigit : d.isDigit = true :=
      Nat.isDigit_of_mem_toDigits (by decide) (by decide) (hds ▸ List.mem_cons_self)
    exact ⟨d, ds, by rw [Nat.toList_repr, hds], .inl hdigit⟩
  · exact ⟨'-', _, by rw [String.toList_append]; rfl, .inr rfl⟩

/-- A number begins with a digit or a sign, and with nothing else. -/
theorem ne_of_begins_number {c : Char} (hc : c.isDigit = true ∨ c = '-') (d : Char)
    (hd : d.isDigit = false ∧ d ≠ '-') : c ≠ d := by
  rintro rfl
  rcases hc with hc | hc
  · rw [hc] at hd
    exact absurd hd.1 (by decide)
  · exact hd.2 hc

theorem isBlank_of_begins_number {c : Char} (hc : c.isDigit = true ∨ c = '-') :
    isBlank c = false := by
  have hne := ne_of_begins_number hc
  simp [isBlank, hne ' ' (by decide), hne '\t' (by decide), hne '\n' (by decide),
    hne '\r' (by decide)]

/-- What begins with a digit or a sign is read as a number. -/
theorem readValue?_number {c : Char} (hc : c.isDigit = true ∨ c = '-') (fuel room : Nat)
    (cs : List Char) : readValue? (fuel + 1) room (c :: cs) = readNumber? (c :: cs) := by
  have hne := ne_of_begins_number hc
  simp [readValue?, isBlank_of_begins_number hc, hne 'n' (by decide), hne 't' (by decide),
    hne 'f' (by decide), hne '"' (by decide), hne '[' (by decide), hne '\x7b' (by decide)]

/-- The text of a value begins with neither a blank nor a bracket that closes. -/
theorem Plain.exists_chars_eq_cons {j : Json} (h : j.Plain) :
    ∃ c cs, chars j = c :: cs ∧ isBlank c = false ∧ c ≠ ']' := by
  cases h with
  | null => exact ⟨'n', _, rfl, by decide, by decide⟩
  | bool b => cases b with
    | true => exact ⟨'t', _, rfl, by decide, by decide⟩
    | false => exact ⟨'f', _, rfl, by decide, by decide⟩
  | int n =>
    obtain ⟨c, cs, hcs, hc⟩ := exists_toString_eq_cons n
    exact ⟨c, cs, by rw [chars, hcs], isBlank_of_begins_number hc,
      ne_of_begins_number hc ']' (by decide)⟩
  | str s => exact ⟨'"', _, rfl, by decide, by decide⟩
  | @arr items _ => cases items <;> exact ⟨'[', _, by rw [chars], by decide, by decide⟩
  | @obj fields _ _ => rcases fields with _ | ⟨⟨name, value⟩, fields⟩ <;>
      exact ⟨'\x7b', _, by rw [chars], by decide, by decide⟩

theorem readable_null : Readable .null := by
  intro fuel room rest _ _
  simp [chars, readValue?, isBlank, depth]

theorem readable_bool (b : Bool) : Readable (.bool b) := by
  intro fuel room rest _ _
  cases b <;> simp [chars, readValue?, isBlank, depth]

theorem readable_int (n : Int) : Readable (.int n) := by
  intro fuel room rest _ hrest
  obtain ⟨c, cs, hcs, hc⟩ := exists_toString_eq_cons n
  have hread := readNumber?_toString n hrest
  rw [hcs, List.cons_append] at hread
  rw [chars, hcs, List.cons_append, readValue?_number hc, hread]
  simp [depth]

theorem readable_str (s : String) : Readable (.str s) := by
  intro fuel room rest _ _
  rw [chars, quotedChars_append]
  simp [readValue?, isBlank, readString?_afterQuote, depth]

/-! ### Arrays -/

/-- The items of an array are read if there is room for each of them. -/
theorem readItems?_moreItems {item : Json} (hitem : Readable item) {items : List Json}
    (hitems : ∀ j ∈ items, Readable j) (fuel room : Nat) (rest : List Char)
    (hfuel : 2 * ((chars item).length + (moreItems items).length) ≤ fuel + 1) :
    readItems? (fuel + 2) room (chars item ++ (moreItems items ++ ']' :: rest)) =
      if depthItems (item :: items) ≤ room then some (item :: items, rest) else none := by
  induction items generalizing item fuel with
  | nil =>
    have hread := hitem fuel room (']' :: rest) (by omega) (stops_cons (by decide) rest)
    by_cases hroom : depth item ≤ room <;>
      simp [moreItems, readItems?, hread, isBlank, depthItems, hroom]
  | cons next items ih =>
    simp only [moreItems, List.length_append, List.length_cons] at hfuel
    obtain ⟨m, rfl⟩ : ∃ m, fuel = m + 1 := ⟨fuel - 1, by omega⟩
    have hread := hitem (m + 1) room (',' :: (chars next ++ (moreItems items ++ ']' :: rest)))
      (by omega) (stops_cons (by decide) _)
    have hmore := ih (hitems next List.mem_cons_self)
      (fun j hj => hitems j (List.mem_cons_of_mem _ hj)) m (by omega)
    have hdepth : depthItems (item :: next :: items) ≤ room ↔
        depth item ≤ room ∧ depthItems (next :: items) ≤ room := depthItems_cons_le_iff
    rw [readItems?]
    by_cases hroom : depth item ≤ room
    · by_cases hrooms : depthItems (next :: items) ≤ room <;>
        simp [moreItems, hread, hdepth, hroom, hrooms, isBlank, hmore]
    · simp [moreItems, hread, hdepth, hroom]

/-- An array can be read if its items can: it takes up room for one more. -/
theorem readable_arr {items : List Json} (hplain : ∀ j ∈ items, Plain j)
    (hitems : ∀ j ∈ items, Readable j) : Readable (.arr items) := by
  intro fuel room rest hfuel _
  have hopen : isBlank '[' = false := rfl
  cases room with
  | zero => cases items <;> simp [chars, readValue?, hopen, depth]
  | succ room =>
    cases items with
    | nil => simp [chars, readValue?, isBlank, depth, depthItems]
    | cons item items =>
      simp only [chars, List.length_cons, List.length_append] at hfuel
      obtain ⟨m, rfl⟩ : ∃ m, fuel = m + 2 := ⟨fuel - 2, by omega⟩
      obtain ⟨c, cs, hcs, hblank, hbracket⟩ :=
        (hplain item List.mem_cons_self).exists_chars_eq_cons
      have hmore := readItems?_moreItems (hitems item List.mem_cons_self)
        (fun j hj => hitems j (List.mem_cons_of_mem _ hj)) m room rest (by omega)
      rw [hcs, List.cons_append] at hmore
      by_cases hroom : depthItems (item :: items) ≤ room <;>
        simp [chars, hcs, readValue?, hopen, hblank, hbracket, hmore, depth, hroom]

/-! ### Objects -/

/-- Where each name is there once, all fields stay. -/
theorem lastFields_of_nodup {fields : List (String × Json)} (h : (fields.map Prod.fst).Nodup) :
    lastFields fields = fields := by
  induction fields with
  | nil => rfl
  | cons field fields ih =>
    obtain ⟨name, value⟩ := field
    rw [List.map_cons, List.nodup_cons] at h
    have hnew : ¬(fields.any (·.1 = name)) = true := by
      simp only [List.any_eq_true, decide_eq_true_eq]
      rintro ⟨p, hp, rfl⟩
      exact h.1 (List.mem_map.2 ⟨p, hp, rfl⟩)
    rw [lastFields, if_neg hnew, ih h.2]

/-- The fields of an object are read if there is room for each of their values. -/
theorem readFields?_moreFields (name : String) {value : Json} (hvalue : Readable value)
    {fields : List (String × Json)} (hfields : ∀ p ∈ fields, Readable p.2) (fuel room : Nat)
    (rest : List Char)
    (hfuel : 2 * ((chars value).length + (moreFields fields).length) ≤ fuel + 1) :
    readFields? (fuel + 2) room
        (quotedChars name ++ ':' :: (chars value ++ (moreFields fields ++ '\x7d' :: rest))) =
      if depthFields ((name, value) :: fields) ≤ room then some ((name, value) :: fields, rest)
      else none := by
  induction fields generalizing name value fuel with
  | nil =>
    have hread := hvalue fuel room ('\x7d' :: rest) (by omega) (stops_cons (by decide) rest)
    rw [quotedChars_append]
    by_cases hroom : depth value ≤ room <;>
      simp [moreFields, readFields?, isBlank, readString?_afterQuote, hread, depthFields, hroom]
  | cons field fields ih =>
    obtain ⟨next, nextValue⟩ := field
    simp only [moreFields, List.length_append, List.length_cons] at hfuel
    obtain ⟨m, rfl⟩ : ∃ m, fuel = m + 1 := ⟨fuel - 1, by omega⟩
    have hread := hvalue (m + 1) room (',' :: (quotedChars next ++ ':' ::
      (chars nextValue ++ (moreFields fields ++ '\x7d' :: rest)))) (by omega)
      (stops_cons (by decide) _)
    have hnext : Readable nextValue := hfields (next, nextValue) List.mem_cons_self
    have hmore := ih next hnext (fun p hp => hfields p (List.mem_cons_of_mem _ hp)) m (by omega)
    have hdepth : depthFields ((name, value) :: (next, nextValue) :: fields) ≤ room ↔
        depth value ≤ room ∧ depthFields ((next, nextValue) :: fields) ≤ room :=
      depthFields_cons_le_iff
    rw [quotedChars_append, readFields?]
    by_cases hroom : depth value ≤ room
    · by_cases hrooms : depthFields ((next, nextValue) :: fields) ≤ room <;>
        simp [moreFields, isBlank, readString?_afterQuote, hread, hdepth, hroom, hrooms, hmore]
    · simp [moreFields, isBlank, readString?_afterQuote, hread, hdepth, hroom]

/-- An object with each name once can be read if its values can: it takes up room for one more. -/
theorem readable_obj {fields : List (String × Json)} (hnames : (fields.map Prod.fst).Nodup)
    (hfields : ∀ p ∈ fields, Readable p.2) : Readable (.obj fields) := by
  intro fuel room rest hfuel _
  have hopen : isBlank '\x7b' = false := rfl
  cases room with
  | zero => rcases fields with _ | ⟨⟨name, value⟩, fields⟩ <;> simp [chars, readValue?, hopen, depth]
  | succ room =>
    rcases fields with _ | ⟨⟨name, value⟩, fields⟩
    · simp [chars, readValue?, isBlank, depth, depthFields]
    · simp only [chars, List.length_cons, List.length_append] at hfuel
      obtain ⟨m, rfl⟩ : ∃ m, fuel = m + 2 := ⟨fuel - 2, by omega⟩
      have hvalue : Readable value := hfields (name, value) List.mem_cons_self
      have hmore := readFields?_moreFields name hvalue
        (fun p hp => hfields p (List.mem_cons_of_mem _ hp)) m room rest (by omega)
      have hchars : chars (.obj ((name, value) :: fields)) ++ rest = '\x7b' ::
          (quotedChars name ++ ':' :: (chars value ++ (moreFields fields ++ '\x7d' :: rest))) := by
        simp [chars]
      rw [quotedChars_append] at hmore
      rw [hchars, quotedChars_append]
      by_cases hroom : depthFields ((name, value) :: fields) ≤ room <;>
        simp [readValue?, isBlank, hmore, depth, hroom, lastFields_of_nodup hnames]

theorem Plain.readable {j : Json} (h : j.Plain) : Readable j := by
  induction h with
  | null => exact readable_null
  | bool b => exact readable_bool b
  | int n => exact readable_int n
  | str s => exact readable_str s
  | arr hplain ih => exact readable_arr hplain ih
  | obj hnames _ ih => exact readable_obj hnames ih

/-- Text that was written is read as the value it was written for, unless that nests deeper than the
reader's limit; then it is refused. -/
theorem ofText?_toText {j : Json} (h : j.Plain) (limit : Option Nat) :
    ofText? limit j.toText = if ∀ n ∈ limit, depth j ≤ n then some j else none := by
  have hread := h.readable (2 * (chars j).length + 1) (limit.getD (chars j).length) []
    (by omega) stops_nil
  have hlimit : depth j ≤ limit.getD (chars j).length ↔ ∀ n ∈ limit, depth j ≤ n := by
    cases limit with
    | none => simp [depth_le_length_chars j]
    | some n => simp
  rw [List.append_nil] at hread
  rw [ofText?, toList_toText]
  simp only [hread, hlimit]
  split <;> rfl

end TensorShape.Json
