import TensorShape.Logic.Settings
import TensorShape.Program.Codec
import TensorShape.Proofs.Lists
import TensorShape.Symbolic.Codec

/-!
# TensorShape.Proofs.JsonForms

Which JSON is accepted for which value. The forms of a type are a relation between its values and
JSON that does not mention a reader; `Reads` says of a reader that it accepts the forms of a type
and nothing else, and that it reads each as the value it is a form of.

* A **record** is an object with its parts under their names, or an array with its parts in their
  order (`IsRecord`, `part`). A part is given in any form of its own type (`Gives`); some parts
  may be left off and have their defaults then (`GivesOr`).
* A **case** with data is an object of one field. A case without data is its name, or an object of
  one field with `null` (`IsCase`).
-/

namespace TensorShape

namespace Json

variable {α : Type} {read? : Json → Option α} {Form : α → Json → Prop}

/-- The reader accepts the forms and nothing else. -/
def Reads (read? : Json → Option α) (Form : α → Json → Prop) : Prop :=
  ∀ j a, read? j = some a ↔ Form a j

/-! ## Plain values, lists and tables -/

def StringForm (s : String) (j : Json) : Prop := j = .str s

def BoolForm (b : Bool) (j : Json) : Prop := j = .bool b

def Int64Form (v : Int64) (j : Json) : Prop := j = ofInt64 v

def UInt64Form (v : UInt64) (j : Json) : Prop := j = ofUInt64 v

/-- The forms of a value that may be missing. -/
def OptionForm (Form : α → Json → Prop) : Option α → Json → Prop
  | none, j => j = .null
  | some a, j => Form a j

/-- The forms of a list: its items may have different forms. -/
def ListForm (Form : α → Json → Prop) (l : List α) (j : Json) : Prop :=
  ∃ items, j = .arr items ∧ List.Forall₂ Form l items

/-- The forms of a table. Of two fields of one name the later one counts. -/
def TableForm (Form : α → Json → Prop) (t : Table String α) (j : Json) : Prop :=
  ∃ l fields, j = .obj fields ∧ List.Forall₂ (fun p q => p.1 = q.1 ∧ Form p.2 q.2) l fields ∧
    t = Table.ofList l

theorem reads_string : Reads string? StringForm := by
  intro j s
  cases j <;> simp [string?, StringForm]

theorem reads_bool : Reads bool? BoolForm := by
  intro j b
  cases j <;> simp [bool?, BoolForm]

/-- A signed word is read from the integer that it is, and from nothing else. -/
theorem reads_int64 : Reads int64? Int64Form := by
  intro j v
  constructor
  · intro h
    cases j with
    | int n => rw [Int64Form, ofInt64, toInt_of_word? h]
    | _ => cases h
  · rintro rfl
    exact int64?_ofInt64 v

/-- An unsigned word is read from the integer that it is, and from nothing else. -/
theorem reads_uint64 : Reads uint64? UInt64Form := by
  intro j v
  constructor
  · intro h
    cases j with
    | int n =>
      rw [uint64?, unsignedWord?] at h
      split at h
      · next hn =>
        cases h
        have hlt : n.toNat < 2 ^ 64 := by omega
        rw [UInt64Form, ofUInt64, UInt64.toNat_ofNat', Nat.mod_eq_of_lt hlt,
          Int.toNat_of_nonneg hn.1]
      · cases h
    | _ => cases h
  · rintro rfl
    exact uint64?_ofUInt64 v

/-- A value that may be missing is read from `null` or from its forms. -/
theorem reads_nullOr (h : Reads read? Form) (hnull : read? .null = none) :
    Reads (nullOr? read?) (OptionForm Form) := by
  intro j a
  by_cases hj : j = .null
  · subst hj
    cases a with
    | none => simp [nullOr?, OptionForm]
    | some a => simp [nullOr?, OptionForm, ← h .null a, hnull]
  · have hread : nullOr? read? j = (read? j).map some := by
      simp [nullOr?]
    rw [hread]
    cases a with
    | none => simp [OptionForm, hj]
    | some a => simp [OptionForm, h j a]

/-- A list is read from an array, each item in a form of its own. -/
theorem reads_list (h : Reads read? Form) : Reads (listOf? read?) (ListForm Form) := by
  intro j l
  cases j with
  | arr items => simp [listOf?, ListForm, mapM_eq_some_iff h]
  | _ => simp [listOf?, ListForm]

/-- A table is read from an object, whose fields may stand in any order. -/
theorem reads_table (h : Reads read? Form) {j : Json} {t : Table String α} :
    (∃ l, entriesOf? read? j = some l ∧ Table.ofList l = t) ↔ TableForm Form t j := by
  cases j with
  | obj fields =>
    have hentry : ∀ (q : String × Json) (p : String × α),
        (read? q.2).map (q.1, ·) = some p ↔ p.1 = q.1 ∧ Form p.2 q.2 := by
      intro q p
      obtain ⟨name, a⟩ := p
      simp only [Option.map_eq_some_iff, Prod.mk.injEq, h q.2]
      constructor
      · rintro ⟨b, hb, rfl, rfl⟩
        exact ⟨rfl, hb⟩
      · rintro ⟨rfl, ha⟩
        exact ⟨a, ha, rfl, rfl⟩
    simp only [entriesOf?, mapM_eq_some_iff hentry, TableForm]
    constructor
    · rintro ⟨l, hl, rfl⟩
      exact ⟨l, fields, rfl, hl, rfl⟩
    · rintro ⟨l, fields', hfields, hl, rfl⟩
      cases hfields
      exact ⟨l, hl, rfl⟩
  | _ => simp [entriesOf?, TableForm]

/-! ## Parts of a record -/

/-- An object is a record of any size, an array one of its length or more. -/
def IsRecord (size : Nat) : Json → Prop
  | .obj _ => True
  | .arr items => items.length ≤ size
  | _ => False

/-- A part of a record: by its name in an object, by its position in an array; `none` if it is left
off. -/
def part (position : Nat) (name : String) : Json → Option Json
  | .obj fields => lookupField name fields
  | .arr items => items[position]?
  | _ => none

/-- The part is there, in a form of the value. -/
def Gives (Form : α → Json → Prop) (a : α) (part : Option Json) : Prop :=
  ∃ j, part = some j ∧ Form a j

/-- The part is there, in a form of the value, or it is left off and the value is the default. -/
def GivesOr (default : α) (Form : α → Json → Prop) (a : α) (part : Option Json) : Prop :=
  Gives Form a part ∨ part = none ∧ a = default

namespace Reads

/-- A part that has to be there is read if it is there in one of its forms. -/
theorem required (h : Reads read? Form) {part : Option Json} {a : α} :
    Json.required read? part = some a ↔ Gives Form a part := by
  cases part with
  | none => simp [Json.required, Gives]
  | some j => simp [Json.required, Gives, h j a]

/-- A part that may be left off is read from its forms, or has its default. -/
theorem optional (h : Reads read? Form) {default : α} {part : Option Json} {a : α} :
    Json.optional read? default part = some a ↔ GivesOr default Form a part := by
  cases part with
  | none => simp [Json.optional, GivesOr, Gives, eq_comm]
  | some j => simp [Json.optional, GivesOr, Gives, h j a]

/-- A table that has to be there is read if it is there in one of its forms. -/
theorem required_entries (h : Reads read? Form) {part : Option Json} {t : Table String α} :
    (∃ l, Json.required (entriesOf? read?) part = some l ∧ Table.ofList l = t) ↔
      Gives (TableForm Form) t part := by
  cases part with
  | none => simp [Json.required, Gives]
  | some j => simp [Json.required, Gives, reads_table h]

/-- A table that may be left off is read from its forms, or is empty. -/
theorem optional_entries (h : Reads read? Form) {part : Option Json} {t : Table String α} :
    (∃ l, Json.optional (entriesOf? read?) [] part = some l ∧ Table.ofList l = t) ↔
      GivesOr ∅ (TableForm Form) t part := by
  cases part with
  | none => simp [Json.optional, GivesOr, Gives, Table.ofList, eq_comm]
  | some j => simp [Json.optional, GivesOr, Gives, reads_table h]

end Reads

/-- The positions of a record given as an array: first those that are there, then those left off. -/
theorem getElem?_map_some_append_replicate (items : List Json) (n i : Nat) :
    (items.map some ++ List.replicate n none)[i]? =
      if i < items.length + n then some items[i]? else none := by
  rw [List.getElem?_append, List.length_map]
  by_cases hi : i < items.length
  · rw [if_pos hi, if_pos (by omega)]
    simp [hi]
  · rw [if_neg hi, List.getElem?_replicate, List.getElem?_eq_none (by omega)]
    by_cases hn : i < items.length + n
    · rw [if_pos hn, if_pos (by omega)]
    · rw [if_neg hn, if_neg (by omega)]

/-- The parts of a record are found by name in an object and by position in an array. -/
theorem record?_of_isRecord (names : List String) {j : Json} (h : IsRecord names.length j) :
    record? names j = some (names.mapIdx fun i name => part i name j) := by
  cases j with
  | obj fields =>
    have hparts : names.map (lookupField · fields) =
        names.mapIdx fun _ name => lookupField name fields :=
      List.ext_getElem? fun i => by simp
    simp only [record?, part, hparts]
  | arr items =>
    have hlength : items.length + (names.length - items.length) = names.length :=
      Nat.add_sub_cancel' h
    have hparts : items.map some ++ List.replicate (names.length - items.length) none =
        names.mapIdx fun i _ => items[i]? := by
      apply List.ext_getElem?
      intro i
      rw [getElem?_map_some_append_replicate, hlength, List.getElem?_mapIdx]
      by_cases hi : i < names.length <;> simp [hi]
    simp only [IsRecord] at h
    simp [record?, part, h, hparts]
  | _ => exact h.elim

/-- What is no record has no parts: an array that is too long, or neither array nor object. -/
theorem record?_of_not_isRecord (names : List String) {j : Json} (h : ¬IsRecord names.length j) :
    record? names j = none := by
  cases j with
  | obj fields => exact absurd trivial h
  | arr items =>
    simp only [IsRecord] at h
    rw [record?, if_neg h]
  | _ => rfl

/-! ## Cases -/

/-- The forms of a case without data. -/
def IsCase (case : String) (j : Json) : Prop := j = .str case ∨ j = tagged case .null

/-- Both forms of a case without data are read as that case. -/
theorem IsCase.variant?_eq {case : String} {j : Json} (h : IsCase case j) :
    variant? j = some (case, none) := by
  rcases h with rfl | rfl <;> rfl

/-- Data that is `null` would count as no data. -/
theorem variant?_tagged (case : String) {data : Json} (h : data ≠ .null) :
    variant? (tagged case data) = some (case, some data) := by
  simp [variant?, tagged]

/-- A case without data is read from its two forms only. -/
theorem isCase_of_variant? {j : Json} {case : String} (h : variant? j = some (case, none)) :
    IsCase case j := by
  unfold variant? at h
  split at h
  · simp only [Option.some.injEq, Prod.mk.injEq, and_true] at h
    exact .inl (by rw [h])
  · simp only [Option.some.injEq, Prod.mk.injEq, and_true] at h
    exact .inr (by rw [h, tagged])
  · simp at h
  · cases h

/-- A case with data is read from an object of one field only. -/
theorem eq_tagged_of_variant? {j data : Json} {case : String}
    (h : variant? j = some (case, some data)) : j = tagged case data := by
  unfold variant? at h
  split at h
  · simp at h
  · simp at h
  · simp only [Option.some.injEq, Prod.mk.injEq] at h
    rw [h.1, h.2, tagged]
  · cases h

end Json

open Json

/-! ## Programs -/

namespace Ty

/-- A type has one form. -/
def Form (t : Ty) (j : Json) : Prop := j = t.toJson

mutual

/-- A type is read back from its form, at any depth. -/
@[simp] theorem ofJson?_toJson : ∀ t : Ty, ofJson? t.toJson = some t
  | .named name => by simp [toJson, ofJson?, tagged]
  | .select base member => by simp [toJson, ofJson?, tagged, ofJson?_toJson base]
  | .generic base args => by
    simp [toJson, ofJson?, tagged, ofJson?_toJson base, ofJsonList?_toJsonList args]
  | .function params result => by
    simp [toJson, ofJson?, tagged, ofJson?_toJson result, ofJsonList?_toJsonList params]
  | .tuple items => by simp [toJson, ofJson?, tagged, ofJsonList?_toJsonList items]

theorem ofJsonList?_toJsonList : ∀ ts : List Ty, ofJsonList? (toJsonList ts) = some ts
  | [] => rfl
  | t :: ts => by simp [toJsonList, ofJsonList?, ofJson?_toJson t, ofJsonList?_toJsonList ts]

end

/-- The induction follows the reader, so that each case is about one layout. -/
theorem eq_toJson_of_ofJson? (j : Json) : ∀ t, ofJson? j = some t → j = t.toJson := by
  refine ofJson?.induct (fun j => ∀ t, ofJson? j = some t → j = t.toJson)
    (fun js => ∀ ts, ofJsonList? js = some ts → js = toJsonList ts)
    ?named ?select ?generic ?function ?tuple ?noCase ?noVariant ?nil ?cons j
  case named =>
    intro name t h
    simp only [ofJson?, Option.some.injEq] at h
    rw [← h, toJson, tagged]
  case select =>
    intro base member ih t h
    simp only [ofJson?, Option.bind_eq_bind, Option.bind_eq_some_iff, Option.some.injEq] at h
    obtain ⟨b, hb, rfl⟩ := h
    rw [toJson, tagged, ← ih b hb]
  case generic =>
    intro base args ihbase ihargs t h
    simp only [ofJson?, Option.bind_eq_bind, Option.bind_eq_some_iff, Option.some.injEq] at h
    obtain ⟨b, hb, as, has, rfl⟩ := h
    rw [toJson, tagged, ← ihbase b hb, ← ihargs as has]
  case function =>
    intro params result ihparams ihresult t h
    simp only [ofJson?, Option.bind_eq_bind, Option.bind_eq_some_iff, Option.some.injEq] at h
    obtain ⟨ps, hps, r, hr, rfl⟩ := h
    rw [toJson, tagged, ← ihparams ps hps, ← ihresult r hr]
  case tuple =>
    intro items ih t h
    simp only [ofJson?, Option.bind_eq_bind, Option.bind_eq_some_iff, Option.some.injEq] at h
    obtain ⟨ts, hts, rfl⟩ := h
    rw [toJson, tagged, ← ih ts hts]
  case noCase =>
    intro case data hnamed hselect hgeneric hfunction htuple t h
    simp [ofJson?] at h
  case noVariant =>
    intro j hj t h
    simp [ofJson?] at h
  case nil =>
    intro ts h
    cases h
    rfl
  case cons =>
    intro j js ih ihs ts h
    simp only [ofJsonList?, Option.bind_eq_bind, Option.bind_eq_some_iff, Option.some.injEq] at h
    obtain ⟨t, ht, ts', hts, rfl⟩ := h
    rw [toJsonList, ← ih t ht, ← ihs ts' hts]

theorem reads_ofJson? : Reads ofJson? Form := by
  intro j t
  constructor
  · exact eq_toJson_of_ofJson? j t
  · rintro rfl
    exact ofJson?_toJson t

end Ty

namespace Operand

def Form (o : Operand) (j : Json) : Prop :=
  IsRecord 2 j ∧ Gives StringForm o.value (part 0 "value" j) ∧ Gives Ty.Form o.ty (part 1 "ty" j)

theorem reads_ofJson? : Reads ofJson? Form := by
  rintro j ⟨value, ty⟩
  by_cases h : IsRecord 2 j
  · simp [ofJson?, Form, record?_of_isRecord ["value", "ty"] h, h, Option.bind_eq_some_iff,
      reads_string.required, Ty.reads_ofJson?.required]
  · simp [ofJson?, Form, record?_of_not_isRecord ["value", "ty"] h, h]

end Operand

namespace DeclPath

def Form (d : DeclPath) (j : Json) : Prop :=
  IsRecord 1 j ∧ Gives (ListForm StringForm) d.path (part 0 "path" j)

theorem reads_ofJson? : Reads ofJson? Form := by
  rintro j ⟨path⟩
  by_cases h : IsRecord 1 j
  · simp [ofJson?, Form, record?_of_isRecord ["path"] h, h, Option.bind_eq_some_iff,
      (reads_list reads_string).required]
  · simp [ofJson?, Form, record?_of_not_isRecord ["path"] h, h]

end DeclPath

namespace Instruction

/-- The data of an instruction is an object in every form. -/
def Form : Instruction → Json → Prop
  | .integerLiteral ty value, j => ∃ fields, j = tagged "IntegerLiteral" (.obj fields) ∧
    Gives Ty.Form ty (lookupField "ty" fields) ∧ Gives Int64Form value (lookupField "value" fields)
  | .builtin name operands ty, j => ∃ fields, j = tagged "Builtin" (.obj fields) ∧
    Gives StringForm name (lookupField "name" fields) ∧
    Gives (ListForm Operand.Form) operands (lookupField "operands" fields) ∧
    Gives Ty.Form ty (lookupField "ty" fields)
  | .functionRef name ty, j => ∃ fields, j = tagged "FunctionRef" (.obj fields) ∧
    Gives StringForm name (lookupField "name" fields) ∧ Gives Ty.Form ty (lookupField "ty" fields)
  | .apply callee args, j => ∃ fields, j = tagged "Apply" (.obj fields) ∧
    Gives StringForm callee (lookupField "callee" fields) ∧
    Gives (ListForm StringForm) args (lookupField "args" fields)
  | .beginApply callee args, j => ∃ fields, j = tagged "BeginApply" (.obj fields) ∧
    Gives StringForm callee (lookupField "callee" fields) ∧
    Gives (ListForm StringForm) args (lookupField "args" fields)
  | .endApply token, j => ∃ fields, j = tagged "EndApply" (.obj fields) ∧
    Gives StringForm token (lookupField "token" fields)
  | .aggregate ty operands, j => ∃ fields, j = tagged "Struct" (.obj fields) ∧
    Gives Ty.Form ty (lookupField "ty" fields) ∧
    Gives (ListForm Operand.Form) operands (lookupField "operands" fields)
  | .extract operand field, j => ∃ fields, j = tagged "StructExtract" (.obj fields) ∧
    Gives Operand.Form operand (lookupField "operand" fields) ∧
    Gives DeclPath.Form field (lookupField "field" fields)
  | .other opcode operands, j => ∃ fields, j = tagged "Other" (.obj fields) ∧
    Gives StringForm opcode (lookupField "opcode" fields) ∧
    Gives (ListForm StringForm) operands (lookupField "operands" fields)

/-- What is read as an instruction is one of its forms. -/
theorem form_of_ofData? {case : String} {data : Json} {i : Instruction}
    (h : ofData? case data = some i) : i.Form (tagged case data) := by
  cases data with
  | obj fields =>
    unfold ofData? at h
    split at h
    any_goals simp only [fields?, List.map_cons, List.map_nil, Option.bind_eq_bind,
      Option.bind_eq_some_iff, Option.some.injEq, reads_string.required, reads_int64.required,
      (reads_list reads_string).required, Ty.reads_ofJson?.required, Operand.reads_ofJson?.required,
      (reads_list Operand.reads_ofJson?).required, DeclPath.reads_ofJson?.required] at h
    · obtain ⟨ty, hty, value, hvalue, rfl⟩ := h
      exact ⟨fields, rfl, hty, hvalue⟩
    · obtain ⟨name, hname, operands, hoperands, ty, hty, rfl⟩ := h
      exact ⟨fields, rfl, hname, hoperands, hty⟩
    · obtain ⟨name, hname, ty, hty, rfl⟩ := h
      exact ⟨fields, rfl, hname, hty⟩
    · obtain ⟨callee, hcallee, args, hargs, rfl⟩ := h
      exact ⟨fields, rfl, hcallee, hargs⟩
    · obtain ⟨callee, hcallee, args, hargs, rfl⟩ := h
      exact ⟨fields, rfl, hcallee, hargs⟩
    · obtain ⟨token, htoken, rfl⟩ := h
      exact ⟨fields, rfl, htoken⟩
    · obtain ⟨ty, hty, operands, hoperands, rfl⟩ := h
      exact ⟨fields, rfl, hty, hoperands⟩
    · obtain ⟨operand, hoperand, field, hfield, rfl⟩ := h
      exact ⟨fields, rfl, hoperand, hfield⟩
    · obtain ⟨opcode, hopcode, operands, hoperands, rfl⟩ := h
      exact ⟨fields, rfl, hopcode, hoperands⟩
    · cases h
  | _ =>
    unfold ofData? at h
    split at h <;> cases h

theorem reads_ofJson? : Reads ofJson? Form := by
  intro j i
  constructor
  · intro h
    unfold ofJson? at h
    split at h
    · next case data hvariant =>
      rw [eq_tagged_of_variant? hvariant]
      exact form_of_ofData? h
    · cases h
  · intro h
    cases i <;>
    · simp only [Form, ← reads_string.required, ← reads_int64.required,
        ← (reads_list reads_string).required, ← Ty.reads_ofJson?.required,
        ← Operand.reads_ofJson?.required,
        ← (reads_list Operand.reads_ofJson?).required, ← DeclPath.reads_ofJson?.required] at h
      obtain ⟨fields, rfl, h⟩ := h
      simp [ofJson?, variant?_tagged, ofData?, fields?, h]

end Instruction

namespace Statement

/-- A statement without results need not say so. -/
def Form (s : Statement) (j : Json) : Prop :=
  IsRecord 2 j ∧ GivesOr [] (ListForm StringForm) s.results (part 0 "results" j) ∧
    Gives Instruction.Form s.instruction (part 1 "instruction" j)

theorem reads_ofJson? : Reads ofJson? Form := by
  rintro j ⟨results, instruction⟩
  by_cases h : IsRecord 2 j
  · simp [ofJson?, Form, record?_of_isRecord ["results", "instruction"] h, h,
      Option.bind_eq_some_iff, (reads_list reads_string).optional,
      Instruction.reads_ofJson?.required]
  · simp [ofJson?, Form, record?_of_not_isRecord ["results", "instruction"] h, h]

end Statement

/-! ## Blocks, functions, modules -/

namespace Terminator

/-- A branch without arguments need not say so. -/
def Form : Terminator → Json → Prop
  | .ret operand, j => ∃ data, j = tagged "Return" data ∧ operand.Form data
  | .branch target args, j => ∃ fields, j = tagged "Branch" (.obj fields) ∧
    Gives StringForm target (lookupField "target" fields) ∧
    GivesOr [] (ListForm StringForm) args (lookupField "args" fields)
  | .condBranch condition thenTarget elseTarget, j =>
    ∃ fields, j = tagged "CondBranch" (.obj fields) ∧
    Gives StringForm condition (lookupField "condition" fields) ∧
    Gives StringForm thenTarget (lookupField "then_target" fields) ∧
    Gives StringForm elseTarget (lookupField "else_target" fields)
  | .unreachable, j => IsCase "Unreachable" j

/-- What is read as a terminator is one of its forms. -/
theorem form_of_ofData? {case : String} {data : Json} {t : Terminator}
    (h : ofData? case data = some t) : t.Form (tagged case data) := by
  unfold ofData? at h
  split at h
  · simp only [Option.bind_eq_bind, Option.bind_eq_some_iff, Option.some.injEq] at h
    obtain ⟨operand, hoperand, rfl⟩ := h
    exact ⟨data, rfl, (Operand.reads_ofJson? data operand).1 hoperand⟩
  · cases data with
    | obj fields =>
      simp only [fields?, List.map_cons, List.map_nil, Option.bind_eq_bind,
        Option.bind_eq_some_iff, Option.some.injEq, reads_string.required,
        (reads_list reads_string).optional] at h
      obtain ⟨target, htarget, args, hargs, rfl⟩ := h
      exact ⟨fields, rfl, htarget, hargs⟩
    | _ => cases h
  · cases data with
    | obj fields =>
      simp only [fields?, List.map_cons, List.map_nil, Option.bind_eq_bind,
        Option.bind_eq_some_iff, Option.some.injEq, reads_string.required] at h
      obtain ⟨condition, hcondition, thenTarget, hthen, elseTarget, helse, rfl⟩ := h
      exact ⟨fields, rfl, hcondition, hthen, helse⟩
    | _ => cases h
  · cases h

theorem reads_ofJson? : Reads ofJson? Form := by
  intro j t
  constructor
  · intro h
    unfold ofJson? at h
    split at h
    · next case data hvariant =>
      rw [eq_tagged_of_variant? hvariant]
      exact form_of_ofData? h
    · next hvariant =>
      cases h
      exact isCase_of_variant? hvariant
    · cases h
  · intro h
    cases t with
    | ret operand =>
      obtain ⟨data, rfl, hdata⟩ := h
      have hnull : data ≠ .null := by
        rintro rfl
        exact hdata.1
      simp [ofJson?, variant?_tagged _ hnull, ofData?,
        (Operand.reads_ofJson? data operand).2 hdata]
    | unreachable => simp [ofJson?, IsCase.variant?_eq h]
    | _ =>
      simp only [Form, ← reads_string.required, ← (reads_list reads_string).optional] at h
      obtain ⟨fields, rfl, h⟩ := h
      simp [ofJson?, variant?_tagged, ofData?, fields?, h]

end Terminator

namespace Block

/-- A block without arguments need not say so. -/
def Form (b : Block) (j : Json) : Prop :=
  IsRecord 4 j ∧ Gives StringForm b.label (part 0 "label" j) ∧
    GivesOr [] (ListForm Operand.Form) b.arguments (part 1 "arguments" j) ∧
    Gives (ListForm Statement.Form) b.statements (part 2 "instructions" j) ∧
    Gives Terminator.Form b.terminator (part 3 "terminator" j)

theorem reads_ofJson? : Reads ofJson? Form := by
  rintro j ⟨label, arguments, statements, terminator⟩
  by_cases h : IsRecord 4 j
  · simp only [ofJson?, Form, h, true_and, List.mapIdx_cons, List.mapIdx_nil, Nat.zero_add,
      Nat.reduceAdd, record?_of_isRecord ["label", "arguments", "instructions", "terminator"] h,
      Option.bind_eq_bind, Option.bind_eq_some_iff, Option.some.injEq, mk.injEq,
      reads_string.required, (reads_list Operand.reads_ofJson?).optional,
      (reads_list Statement.reads_ofJson?).required, Terminator.reads_ofJson?.required]
    constructor
    · rintro ⟨_, hlabel, _, harguments, _, hstatements, _, hterminator, rfl, rfl, rfl, rfl⟩
      exact ⟨hlabel, harguments, hstatements, hterminator⟩
    · rintro ⟨hlabel, harguments, hstatements, hterminator⟩
      exact ⟨_, hlabel, _, harguments, _, hstatements, _, hterminator, rfl, rfl, rfl, rfl⟩
  · simp [ofJson?, Form,
      record?_of_not_isRecord ["label", "arguments", "instructions", "terminator"] h, h]

end Block

namespace Function

def Form (f : Function) (j : Json) : Prop :=
  IsRecord 2 j ∧ Gives StringForm f.name (part 0 "name" j) ∧
    Gives (ListForm Block.Form) f.blocks (part 1 "blocks" j)

theorem reads_ofJson? : Reads ofJson? Form := by
  rintro j ⟨name, blocks⟩
  by_cases h : IsRecord 2 j
  · simp [ofJson?, Form, record?_of_isRecord ["name", "blocks"] h, h, Option.bind_eq_some_iff,
      reads_string.required, (reads_list Block.reads_ofJson?).required]
  · simp [ofJson?, Form, record?_of_not_isRecord ["name", "blocks"] h, h]

end Function

namespace Module

def Form (m : Module) (j : Json) : Prop :=
  IsRecord 1 j ∧ Gives (TableForm Function.Form) m.functions (part 0 "functions" j)

theorem reads_ofJson? : Reads ofJson? Form := by
  rintro j ⟨functions⟩
  by_cases h : IsRecord 1 j
  · simp [ofJson?, Form, record?_of_isRecord ["functions"] h, h, Option.bind_eq_some_iff,
      Function.reads_ofJson?.required_entries]
  · simp [ofJson?, Form, record?_of_not_isRecord ["functions"] h, h]

end Module

/-! ## Symbolic values -/

namespace Builtin

def Form (b : Builtin) (j : Json) : Prop := IsCase b.name j

theorem reads_ofJson? : Reads ofJson? Form := by
  intro j b
  constructor
  · intro h
    unfold ofJson? at h
    split at h
    · next case hvariant =>
      have hname : b.name = case := by
        unfold ofName? at h
        split at h <;> cases h <;> rfl
      rw [Form, hname]
      exact isCase_of_variant? hvariant
    · cases h
  · intro h
    rw [ofJson?, IsCase.variant?_eq h]
    cases b <;> rfl

end Builtin

namespace Value

/-- The forms of a value differ in the references to library functions in it. -/
def Form : Value → Json → Prop
  | .int v, j => j = tagged "Int" (ofInt64 v)
  | .shapeOf r, j => j = tagged "ShapeOf" (.str r)
  | .rankOf r, j => j = tagged "RankOf" (.str r)
  | .dimOf axis r, j => j = tagged "DimOf" (.arr [ofInt64 axis, .str r])
  | .builtinRef b, j => ∃ data, j = tagged "BuiltinFunctionRef" data ∧ b.Form data
  | .functionRef name, j => j = tagged "FunctionRef" (.str name)
  | .equals a b, j => ∃ x y, j = tagged "Equals" (.arr [x, y]) ∧ a.Form x ∧ b.Form y

/-- What is read as a value is one of its forms; the induction follows the reader. -/
theorem form_of_ofJson? {j : Json} {v : Value} (h : ofJson? j = some v) : v.Form j := by
  induction j using ofJson?.induct generalizing v with
  | case1 data =>
    simp only [ofJson?, Option.bind_eq_bind, Option.bind_eq_some_iff, Option.some.injEq] at h
    obtain ⟨n, hn, rfl⟩ := h
    rw [Form, (reads_int64 data n).1 hn, tagged]
  | case2 r =>
    cases h
    rfl
  | case3 r =>
    cases h
    rfl
  | case4 axis r =>
    simp only [ofJson?, Option.bind_eq_bind, Option.bind_eq_some_iff, Option.some.injEq] at h
    obtain ⟨n, hn, rfl⟩ := h
    rw [Form, (reads_int64 axis n).1 hn, tagged]
  | case5 data =>
    simp only [ofJson?, Option.bind_eq_bind, Option.bind_eq_some_iff, Option.some.injEq] at h
    obtain ⟨b, hb, rfl⟩ := h
    exact ⟨data, rfl, (Builtin.reads_ofJson? data b).1 hb⟩
  | case6 name =>
    cases h
    rfl
  | case7 x y ihx ihy =>
    simp only [ofJson?, Option.bind_eq_bind, Option.bind_eq_some_iff, Option.some.injEq] at h
    obtain ⟨a, ha, b, hb, rfl⟩ := h
    exact ⟨x, y, rfl, ihx ha, ihy hb⟩
  | case8 case data => simp [ofJson?] at h
  | case9 j hj => simp [ofJson?] at h

/-- A form of a value is read as that value; the induction follows the value. -/
theorem ofJson?_of_form {j : Json} {v : Value} (h : v.Form j) : ofJson? j = some v := by
  induction v generalizing j with
  | builtinRef b =>
    obtain ⟨data, rfl, hdata⟩ := h
    simp [ofJson?, tagged, (Builtin.reads_ofJson? data b).2 hdata]
  | equals a b iha ihb =>
    obtain ⟨x, y, rfl, hx, hy⟩ := h
    simp [ofJson?, tagged, iha hx, ihb hy]
  | _ =>
    rw [Form] at h
    simp [h, ofJson?, tagged]

theorem reads_ofJson? : Reads ofJson? Form := fun _ _ => ⟨form_of_ofJson?, ofJson?_of_form⟩

end Value

namespace Constraint

def Form : Constraint → Json → Prop
  | .holds v, j => ∃ data, j = tagged "Value" data ∧ v.Form data
  | .call function result operands, j => ∃ fields, j = tagged "Apply" (.obj fields) ∧
    Gives StringForm function (lookupField "function" fields) ∧
    Gives StringForm result (lookupField "result" fields) ∧
    Gives (ListForm StringForm) operands (lookupField "operands" fields)

theorem reads_ofJson? : Reads ofJson? Form := by
  intro j c
  constructor
  · intro h
    unfold ofJson? at h
    split at h
    · next data hvariant =>
      simp only [Option.bind_eq_bind, Option.bind_eq_some_iff, Option.some.injEq] at h
      obtain ⟨v, hv, rfl⟩ := h
      exact ⟨data, eq_tagged_of_variant? hvariant, Value.form_of_ofJson? hv⟩
    · next data hvariant =>
      rw [eq_tagged_of_variant? hvariant]
      cases data with
      | obj fields =>
        simp only [fields?, List.map_cons, List.map_nil, Option.bind_eq_bind,
          Option.bind_eq_some_iff, Option.some.injEq, reads_string.required,
          (reads_list reads_string).required] at h
        obtain ⟨function, hfunction, result, hresult, operands, hoperands, rfl⟩ := h
        exact ⟨fields, rfl, hfunction, hresult, hoperands⟩
      | _ => cases h
    · cases h
  · intro h
    cases c with
    | holds v =>
      obtain ⟨data, rfl, hdata⟩ := h
      have hread := Value.ofJson?_of_form hdata
      have hnull : data ≠ .null := by
        rintro rfl
        cases hread
      simp [ofJson?, variant?_tagged _ hnull, hread]
    | call function result operands =>
      simp only [Form, ← reads_string.required, ← (reads_list reads_string).required] at h
      obtain ⟨fields, rfl, h⟩ := h
      simp [ofJson?, variant?_tagged, fields?, h]

end Constraint

/-! ## Settings -/

namespace Profile

def Form : Profile → Json → Prop
  | .fast, j => IsCase "fast" j
  | .ci, j => IsCase "ci" j
  | .thorough, j => IsCase "thorough" j

theorem reads_ofJson? : Reads ofJson? Form := by
  intro j p
  constructor
  · intro h
    unfold ofJson? at h
    split at h <;> cases h
    all_goals exact isCase_of_variant? (by assumption)
  · intro h
    cases p <;> simp [ofJson?, IsCase.variant?_eq h]

end Profile

namespace Settings

/-- Every part of the settings has a default. -/
def Form (s : Settings) (j : Json) : Prop :=
  IsRecord 5 j ∧ GivesOr true BoolForm s.model (part 0 "model" j) ∧
    GivesOr true BoolForm s.proof (part 1 "proof" j) ∧
    GivesOr none (OptionForm UInt64Form) s.timeout (part 2 "timeout_ms" j) ∧
    GivesOr true BoolForm s.shapeLaws (part 3 "shape_axioms" j) ∧
    GivesOr ∅ (TableForm StringForm) s.params (part 4 "params" j)

theorem reads_ofJson? : Reads ofJson? Form := by
  rintro j ⟨model, proof, timeout, shapeLaws, params⟩
  by_cases h : IsRecord 5 j
  · simp only [ofJson?, Form, h, true_and, List.mapIdx_cons, List.mapIdx_nil, Nat.zero_add,
      Nat.reduceAdd,
      record?_of_isRecord ["model", "proof", "timeout_ms", "shape_axioms", "params"] h,
      Option.bind_eq_bind, Option.bind_eq_some_iff, Option.some.injEq, mk.injEq,
      reads_bool.optional, (reads_nullOr reads_uint64 rfl).optional,
      ← reads_string.optional_entries]
    constructor
    · rintro ⟨_, hmodel, _, hproof, _, htimeout, _, hlaws, l, hl, rfl, rfl, rfl, rfl, rfl⟩
      exact ⟨hmodel, hproof, htimeout, hlaws, l, hl, rfl⟩
    · rintro ⟨hmodel, hproof, htimeout, hlaws, l, hl, rfl⟩
      exact ⟨_, hmodel, _, hproof, _, htimeout, _, hlaws, l, hl, rfl, rfl, rfl, rfl, rfl⟩
  · simp [ofJson?, Form,
      record?_of_not_isRecord ["model", "proof", "timeout_ms", "shape_axioms", "params"] h, h]

-- An array without the last two parts, and an object with one part and a field of no meaning.
example : ofJson? (.arr [.bool false, .bool true, .int 50]) =
    some { model := false, timeout := some 50 } := rfl

example : ofJson? (.obj [("depth", .int 3), ("model", .bool false)]) =
    some { model := false } := rfl

end Settings

end TensorShape
