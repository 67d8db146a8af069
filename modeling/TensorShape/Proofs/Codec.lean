import TensorShape.Proofs.JsonForms
import TensorShape.Proofs.JsonText
import TensorShape.Proofs.Tables

/-!
# TensorShape.Proofs.Codec

What is written for a value is read as that value, for every type of data that is laid out in JSON
(`data_roundTrips`), and so is its text, as long as that does not nest too deep for the reader of text
(`data_survivesText`).

Each type has two lemmas. `ofJson?_toJson` says that its reader takes back what its writer made, and
`plain_toJson` that the writer makes only integers out of numbers and gives an object each name once,
so that the text of what it made holds just that (`ofText?_toText`). Both follow the type: a record
from its parts, a variant case by case, a list from its items, and the nested types by induction.
-/

namespace TensorShape

namespace Json

variable {α : Type}

/-! ## Lists, options and cases -/

@[simp] theorem string?_str (s : String) : string? (.str s) = some s := rfl

@[simp] theorem bool?_bool (b : Bool) : bool? (.bool b) = some b := rfl

/-- A list of values is read back if each of them is. -/
@[simp] theorem listOf?_map (write : α → Json) {read? : Json → Option α}
    (h : ∀ a, read? (write a) = some a) (l : List α) :
    listOf? read? (.arr (l.map write)) = some l := by
  simp only [listOf?]
  induction l with
  | nil => rfl
  | cons a l ih => simp [h, ih]

@[simp] theorem listOf?_ofStrings (l : List String) : listOf? string? (ofStrings l) = some l :=
  listOf?_map .str string?_str l

/-- Named values are read back if each of them is. -/
@[simp] theorem entriesOf?_map (write : α → Json) {read? : Json → Option α}
    (h : ∀ a, read? (write a) = some a) (l : List (String × α)) :
    entriesOf? read? (.obj (l.map fun p => (p.1, write p.2))) = some l := by
  simp only [entriesOf?]
  induction l with
  | nil => rfl
  | cons p l ih => simp [h, ih]

@[simp] theorem nullOr?_ofOption_ofUInt64 (v : Option UInt64) :
    nullOr? uint64? (ofOption ofUInt64 v) = some v := by
  cases v with
  | none => rfl
  | some n => exact congrArg (Option.map some) (uint64?_ofUInt64 n)

@[simp] theorem required_some (read? : Json → Option α) (j : Json) :
    required read? (some j) = read? j := rfl

@[simp] theorem optional_some (read? : Json → Option α) (value : α) (j : Json) :
    Json.optional read? value (some j) = read? j := rfl

/-! ## Plain values -/

@[simp] theorem plain_str (s : String) : Plain (.str s) := .str s

@[simp] theorem plain_bool (b : Bool) : Plain (.bool b) := .bool b

@[simp] theorem plain_ofInt64 (v : Int64) : Plain (ofInt64 v) := .int _

@[simp] theorem plain_arr_iff {items : List Json} : Plain (.arr items) ↔ ∀ j ∈ items, Plain j :=
  ⟨fun h => by cases h; assumption, .arr⟩

/-- An object is plain if it has each name once and its values are plain. -/
@[simp] theorem plain_obj_iff {fields : List (String × Json)} :
    Plain (.obj fields) ↔ (fields.map Prod.fst).Nodup ∧ ∀ p ∈ fields, Plain p.2 := by
  constructor
  · intro h
    cases h with
    | obj hnames hvalues => exact ⟨hnames, hvalues⟩
  · rintro ⟨hnames, hvalues⟩
    exact .obj hnames hvalues

@[simp] theorem plain_tagged_iff {case : String} {data : Json} :
    Plain (tagged case data) ↔ Plain data := by
  simp [tagged]

@[simp] theorem plain_ofStrings (l : List String) : Plain (ofStrings l) := by
  simp [ofStrings]

/-- A table has each name once. -/
theorem plain_entries {write : α → Json} (h : ∀ a, (write a).Plain) (t : Table String α) :
    Plain (.obj (t.entries.map fun p => (p.1, write p.2))) := by
  rw [plain_obj_iff, List.map_map, List.forall_mem_map]
  exact ⟨t.nodup_keys, fun p _ => h p.2⟩

@[simp] theorem plain_ofOption_ofUInt64 (v : Option UInt64) : Plain (ofOption ofUInt64 v) := by
  cases v with
  | none => exact .null
  | some n => exact .int _

end Json

open Json

/-! ## Programs -/

namespace Ty

mutual

@[simp] theorem plain_toJson : ∀ t : Ty, t.toJson.Plain
  | .named name => by simp [toJson]
  | .select base member => by simp [toJson, plain_toJson base]
  | .generic base args => by simpa [toJson, plain_toJson base] using plain_toJsonList args
  | .function params result => by simpa [toJson, plain_toJson result] using plain_toJsonList params
  | .tuple items => by simpa [toJson] using plain_toJsonList items

theorem plain_toJsonList : ∀ ts : List Ty, ∀ j ∈ toJsonList ts, j.Plain
  | [] => by simp [toJsonList]
  | t :: ts => by simpa [toJsonList, plain_toJson t] using plain_toJsonList ts

end

end Ty

namespace Operand

@[simp] theorem ofJson?_toJson (o : Operand) : ofJson? o.toJson = some o := by
  simp [toJson, ofJson?, record?, lookupField]

@[simp] theorem plain_toJson (o : Operand) : o.toJson.Plain := by
  simp [toJson]

/-- An operand is never `null`, which would count as no data. -/
theorem toJson_ne_null (o : Operand) : o.toJson ≠ .null := by
  simp [toJson]

end Operand

namespace DeclPath

@[simp] theorem ofJson?_toJson (d : DeclPath) : ofJson? d.toJson = some d := by
  simp [toJson, ofJson?, record?, lookupField]

@[simp] theorem plain_toJson (d : DeclPath) : d.toJson.Plain := by
  simp [toJson]

end DeclPath

namespace Instruction

/-- Each instruction is written as an object under the name of its case, and read from there. -/
@[simp] theorem ofJson?_toJson (i : Instruction) : ofJson? i.toJson = some i := by
  cases i <;>
    simp [toJson, ofJson?, variant?_tagged, ofData?, fields?, lookupField, operandsToJson]

@[simp] theorem plain_toJson (i : Instruction) : i.toJson.Plain := by
  cases i <;> simp [toJson, operandsToJson]

end Instruction

namespace Statement

@[simp] theorem ofJson?_toJson (s : Statement) : ofJson? s.toJson = some s := by
  simp [toJson, ofJson?, record?, lookupField]

@[simp] theorem plain_toJson (s : Statement) : s.toJson.Plain := by
  simp [toJson]

end Statement

namespace Terminator

/-- Terminators are read back; the data of a return is the operand itself. -/
@[simp] theorem ofJson?_toJson (t : Terminator) : ofJson? t.toJson = some t := by
  cases t with
  | ret operand =>
    simp [toJson, ofJson?, variant?_tagged _ operand.toJson_ne_null, ofData?]
  | unreachable => simp [toJson, ofJson?, variant?]
  | _ =>
    simp [toJson, ofJson?, variant?_tagged, ofData?, fields?, lookupField]

@[simp] theorem plain_toJson (t : Terminator) : t.toJson.Plain := by
  cases t <;> simp [toJson]

end Terminator

namespace Block

@[simp] theorem ofJson?_toJson (b : Block) : ofJson? b.toJson = some b := by
  simp [toJson, ofJson?, record?, lookupField]

@[simp] theorem plain_toJson (b : Block) : b.toJson.Plain := by
  simp [toJson]

end Block

namespace Function

@[simp] theorem ofJson?_toJson (f : Function) : ofJson? f.toJson = some f := by
  simp [toJson, ofJson?, record?, lookupField]

@[simp] theorem plain_toJson (f : Function) : f.toJson.Plain := by
  simp [toJson]

end Function

namespace Module

@[simp] theorem ofJson?_toJson (m : Module) : ofJson? m.toJson = some m := by
  simp [toJson, ofJson?, record?, lookupField]

/-- The functions of a module are a table, and so have each name once. -/
@[simp] theorem plain_toJson (m : Module) : m.toJson.Plain := by
  have hfunctions := plain_entries Function.plain_toJson m.functions
  rw [toJson, plain_obj_iff, List.forall_mem_singleton]
  exact ⟨by simp, hfunctions⟩

end Module

/-! ## Symbolic values -/

namespace Builtin

@[simp] theorem ofJson?_toJson (b : Builtin) : ofJson? b.toJson = some b := by
  cases b <;> rfl

@[simp] theorem plain_toJson (b : Builtin) : b.toJson.Plain := by
  simp [toJson]

end Builtin

namespace Value

/-- A symbolic value is read back, at any depth. -/
@[simp] theorem ofJson?_toJson (v : Value) : ofJson? v.toJson = some v := by
  induction v with
  | equals a b iha ihb => simp [toJson, ofJson?, tagged, iha, ihb]
  | _ => simp [toJson, ofJson?, tagged]

@[simp] theorem plain_toJson (v : Value) : v.toJson.Plain := by
  induction v with
  | equals a b iha ihb => simp [toJson, iha, ihb]
  | _ => simp [toJson]

/-- A value is never `null`, which would count as no data. -/
theorem toJson_ne_null (v : Value) : v.toJson ≠ .null := by
  cases v <;> simp [toJson, tagged]

end Value

namespace Constraint

@[simp] theorem ofJson?_toJson (c : Constraint) : ofJson? c.toJson = some c := by
  cases c with
  | holds v => simp [toJson, ofJson?, variant?_tagged _ v.toJson_ne_null]
  | call function result operands =>
    simp [toJson, ofJson?, variant?_tagged, fields?, lookupField]

@[simp] theorem plain_toJson (c : Constraint) : c.toJson.Plain := by
  cases c <;> simp [toJson]

end Constraint

/-! ## Settings -/

namespace Profile

@[simp] theorem ofJson?_toJson (p : Profile) : ofJson? p.toJson = some p := by
  cases p <;> rfl

@[simp] theorem plain_toJson (p : Profile) : p.toJson.Plain := by
  cases p <;> simp [toJson]

end Profile

namespace Settings

@[simp] theorem ofJson?_toJson (s : Settings) : ofJson? s.toJson = some s := by
  simp [toJson, ofJson?, record?, lookupField, entriesOf?_map .str string?_str]

@[simp] theorem plain_toJson (s : Settings) : s.toJson.Plain := by
  have hparams := plain_entries plain_str s.params
  rw [toJson, plain_obj_iff]
  simp only [List.forall_mem_cons, hparams, plain_bool, plain_ofOption_ofUInt64]
  simp

end Settings

/-! ## Reading what was written -/

/-- Reading undoes writing. The JSON that is accepted are the forms of the values, and from any form
of a value, what is written for the value that was read is read as that value again. -/
structure RoundTrips {α : Type} (write : α → Json) (read? : Json → Option α)
    (Form : α → Json → Prop) : Prop where
  read_write : ∀ a, read? (write a) = some a
  accepts : Reads read? Form
  read_again : ∀ {a j}, Form a j → ((read? j).map write).bind read? = some a

/-- A reader that accepts the forms, and what is written among them, undoes writing. -/
theorem Json.Reads.roundTrips {α : Type} {write : α → Json} {read? : Json → Option α}
    {Form : α → Json → Prop} (haccepts : Reads read? Form)
    (hwrite : ∀ a, read? (write a) = some a) : RoundTrips write read? Form where
  read_write := hwrite
  accepts := haccepts
  read_again {a j} hform := by
    rw [(haccepts j a).2 hform, Option.map_some, Option.bind_some, hwrite]

/-- Every value of the data model is read back from what is written for it, at any depth, and what
is accepted are the forms of its values. -/
theorem data_roundTrips :
    RoundTrips Ty.toJson Ty.ofJson? Ty.Form ∧
    RoundTrips Operand.toJson Operand.ofJson? Operand.Form ∧
    RoundTrips DeclPath.toJson DeclPath.ofJson? DeclPath.Form ∧
    RoundTrips Instruction.toJson Instruction.ofJson? Instruction.Form ∧
    RoundTrips Statement.toJson Statement.ofJson? Statement.Form ∧
    RoundTrips Terminator.toJson Terminator.ofJson? Terminator.Form ∧
    RoundTrips Block.toJson Block.ofJson? Block.Form ∧
    RoundTrips Function.toJson Function.ofJson? Function.Form ∧
    RoundTrips Module.toJson Module.ofJson? Module.Form ∧
    RoundTrips Builtin.toJson Builtin.ofJson? Builtin.Form ∧
    RoundTrips Value.toJson Value.ofJson? Value.Form ∧
    RoundTrips Constraint.toJson Constraint.ofJson? Constraint.Form ∧
    RoundTrips Profile.toJson Profile.ofJson? Profile.Form ∧
    RoundTrips Settings.toJson Settings.ofJson? Settings.Form :=
  ⟨Ty.reads_ofJson?.roundTrips Ty.ofJson?_toJson,
    Operand.reads_ofJson?.roundTrips Operand.ofJson?_toJson,
    DeclPath.reads_ofJson?.roundTrips DeclPath.ofJson?_toJson,
    Instruction.reads_ofJson?.roundTrips Instruction.ofJson?_toJson,
    Statement.reads_ofJson?.roundTrips Statement.ofJson?_toJson,
    Terminator.reads_ofJson?.roundTrips Terminator.ofJson?_toJson,
    Block.reads_ofJson?.roundTrips Block.ofJson?_toJson,
    Function.reads_ofJson?.roundTrips Function.ofJson?_toJson,
    Module.reads_ofJson?.roundTrips Module.ofJson?_toJson,
    Builtin.reads_ofJson?.roundTrips Builtin.ofJson?_toJson,
    Value.reads_ofJson?.roundTrips Value.ofJson?_toJson,
    Constraint.reads_ofJson?.roundTrips Constraint.ofJson?_toJson,
    Profile.reads_ofJson?.roundTrips Profile.ofJson?_toJson,
    Settings.reads_ofJson?.roundTrips Settings.ofJson?_toJson⟩

/-! ### Text -/

/-- Text that was written for a value is read as that value if and only if it does not nest deeper
than the reader's limit. -/
def SurvivesText {α : Type} (write : α → Json) (read? : Json → Option α) : Prop :=
  ∀ limit a, (ofText? limit (write a).toText).bind read? =
    if ∀ n ∈ limit, depth (write a) ≤ n then some a else none

/-- Values that are written plainly survive as text. -/
theorem survivesText_of_plain {α : Type} {write : α → Json} {read? : Json → Option α}
    (hwrite : ∀ a, read? (write a) = some a) (hplain : ∀ a, (write a).Plain) :
    SurvivesText write read? := by
  intro limit a
  rw [ofText?_toText (hplain a)]
  split
  · exact hwrite a
  · rfl

/-- The text of every value of the data model can be read back by a reader without a limit, and by
one with a limit as far as that allows. -/
theorem data_survivesText :
    SurvivesText Ty.toJson Ty.ofJson? ∧
    SurvivesText Operand.toJson Operand.ofJson? ∧
    SurvivesText DeclPath.toJson DeclPath.ofJson? ∧
    SurvivesText Instruction.toJson Instruction.ofJson? ∧
    SurvivesText Statement.toJson Statement.ofJson? ∧
    SurvivesText Terminator.toJson Terminator.ofJson? ∧
    SurvivesText Block.toJson Block.ofJson? ∧
    SurvivesText Function.toJson Function.ofJson? ∧
    SurvivesText Module.toJson Module.ofJson? ∧
    SurvivesText Builtin.toJson Builtin.ofJson? ∧
    SurvivesText Value.toJson Value.ofJson? ∧
    SurvivesText Constraint.toJson Constraint.ofJson? ∧
    SurvivesText Profile.toJson Profile.ofJson? ∧
    SurvivesText Settings.toJson Settings.ofJson? :=
  ⟨survivesText_of_plain Ty.ofJson?_toJson Ty.plain_toJson,
    survivesText_of_plain Operand.ofJson?_toJson Operand.plain_toJson,
    survivesText_of_plain DeclPath.ofJson?_toJson DeclPath.plain_toJson,
    survivesText_of_plain Instruction.ofJson?_toJson Instruction.plain_toJson,
    survivesText_of_plain Statement.ofJson?_toJson Statement.plain_toJson,
    survivesText_of_plain Terminator.ofJson?_toJson Terminator.plain_toJson,
    survivesText_of_plain Block.ofJson?_toJson Block.plain_toJson,
    survivesText_of_plain Function.ofJson?_toJson Function.plain_toJson,
    survivesText_of_plain Module.ofJson?_toJson Module.plain_toJson,
    survivesText_of_plain Builtin.ofJson?_toJson Builtin.plain_toJson,
    survivesText_of_plain Value.ofJson?_toJson Value.plain_toJson,
    survivesText_of_plain Constraint.ofJson?_toJson Constraint.plain_toJson,
    survivesText_of_plain Profile.ofJson?_toJson Profile.plain_toJson,
    survivesText_of_plain Settings.ofJson?_toJson Settings.plain_toJson⟩

namespace Value

/-- So many equations, one inside the other. -/
def nested : Nat → Value
  | 0 => .int 0
  | n + 1 => .equals (nested n) (.int 0)

/-- Each equation is an array in an object. -/
theorem depth_toJson_nested (n : Nat) : depth (nested n).toJson = 2 * n + 1 := by
  induction n with
  | zero => rfl
  | succ n ih =>
    have hsides : depth (nested (n + 1)).toJson = max (depth (nested n).toJson) 1 + 2 := by
      simp [nested, toJson, tagged, ofInt64, depth, depthFields, depthItems]
    rw [hsides, ih]
    omega

/-- A reader that lets 127 arrays and objects be open reads up to 63 equations inside each other. -/
theorem isSome_ofText?_nested_iff (n : Nat) :
    (ofText? (some 127) (nested n).toJson.toText).isSome = true ↔ n ≤ 63 := by
  have hfits : (∀ limit ∈ some 127, depth (nested n).toJson ≤ limit) ↔ n ≤ 63 := by
    simp only [Option.mem_some_iff, forall_eq', depth_toJson_nested]
    omega
  rw [ofText?_toText (plain_toJson _)]
  simp only [hfits]
  by_cases h : n ≤ 63 <;> simp [h]

end Value

end TensorShape
