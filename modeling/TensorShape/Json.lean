import TensorShape.Word

/-!
# TensorShape.Json

JSON values, and the forms in which typed data is laid out in them.

* A **record** is an object with a field per name, or an array of the fields in their fixed order.
* A **variant** is an object with one field, named for the case; a case without data may also be
  a bare string. If the data of a case has named fields it is an object, and never an array.

Typed data is read from values, not from text. An object has each name once: of fields that have one
name in a text the last one stays. Numbers keep what a reader of typed data has to know: whether they
were written as an integer.
-/

namespace TensorShape

inductive Json where
  | null
  | bool (b : Bool)
  | int (n : Int)
  /-- A number that is not written as an integer, as it stands in the text. -/
  | real (text : String)
  | str (s : String)
  | arr (items : List Json)
  | obj (fields : List (String × Json))
deriving Inhabited

namespace Json

/-! ## Plain values -/

def string? : Json → Option String
  | .str s => some s
  | _ => none

def bool? : Json → Option Bool
  | .bool b => some b
  | _ => none

/-- An integer in the range of a signed 64-bit word. -/
def int64? : Json → Option Int64
  | .int n => word? n
  | _ => none

/-- An integer in the range of an unsigned 64-bit word. -/
def uint64? : Json → Option UInt64
  | .int n => unsignedWord? n
  | _ => none

/-- An integer in the range of an unsigned 32-bit word. -/
def uint32? : Json → Option UInt32
  | .int n => if 0 ≤ n ∧ n ≤ 4294967295 then some (UInt32.ofNat n.toNat) else none
  | _ => none

/-- An array, each item read by `read`. -/
def listOf? {α : Type} (read : Json → Option α) : Json → Option (List α)
  | .arr items => items.mapM read
  | _ => none

/-- `null`, or what `read` accepts. -/
def nullOr? {α : Type} (read : Json → Option α) : Json → Option (Option α)
  | .null => some none
  | j => (read j).map some

/-- An array of pairs. -/
def pair? {α β : Type} (first : Json → Option α) (second : Json → Option β) : Json → Option (α × β)
  | .arr [a, b] => do some (← first a, ← second b)
  | _ => none

/-- An object as a list of names and values, each value read by `read`. -/
def entriesOf? {α : Type} (read : Json → Option α) : Json → Option (List (String × α))
  | .obj fields => fields.mapM fun p => (read p.2).map (p.1, ·)
  | _ => none

/-! ## Fields -/

/-- The value of the field of that name; of two such fields the later one counts. -/
def lookupField (name : String) : List (String × Json) → Option Json
  | [] => none
  | (n, j) :: rest => (lookupField name rest).or (if n = name then some j else none)

/-- A field of an object; what is no object has no fields. -/
def field? (name : String) : Json → Option Json
  | .obj fields => lookupField name fields
  | _ => none

/-- A field of an object, where a missing one counts as `null`. -/
def field (name : String) (j : Json) : Json := (j.field? name).getD .null

/-- The named fields of a case: those of an object under the given names, `none` for those it lacks.
Other fields are passed over. -/
def fields? (names : List String) : Json → Option (List (Option Json))
  | .obj fields => some (names.map (lookupField · fields))
  | _ => none

/-- The fields of a record: of an object by name, of an array by position, where fields at the end
may be left off. -/
def record? (names : List String) : Json → Option (List (Option Json))
  | .obj fields => some (names.map (lookupField · fields))
  | .arr items =>
    if items.length ≤ names.length then
      some (items.map some ++ List.replicate (names.length - items.length) none)
    else none
  | _ => none

/-- A field that has to be there. -/
def required {α : Type} (read : Json → Option α) : Option Json → Option α
  | none => none
  | some j => read j

/-- A field that may be left off, with the value it then has. -/
def optional {α : Type} (read : Json → Option α) (value : α) : Option Json → Option α
  | none => some value
  | some j => read j

/-! ## Variants -/

/-- The case of a variant and its data, if it has any. -/
def variant? : Json → Option (String × Option Json)
  | .str case => some (case, none)
  | .obj [(case, .null)] => some (case, none)
  | .obj [(case, data)] => some (case, some data)
  | _ => none

/-- A case with data. -/
def tagged (case : String) (data : Json) : Json := .obj [(case, data)]

/-! ## Writing -/

def ofInt64 (v : Int64) : Json := .int v.toInt

def ofUInt64 (v : UInt64) : Json := .int v.toNat

def ofNat (n : Nat) : Json := .int n

def ofStrings (l : List String) : Json := .arr (l.map .str)

def ofOption {α : Type} (write : α → Json) : Option α → Json
  | none => .null
  | some a => write a

/-! ## Words read back -/

@[simp] theorem int64?_ofInt64 (v : Int64) : (ofInt64 v).int64? = some v := word?_toInt v

@[simp] theorem uint64?_ofUInt64 (v : UInt64) : (ofUInt64 v).uint64? = some v :=
  unsignedWord?_toNat v

end Json

end TensorShape
