import TensorShape.Symbolic.Value

/-!
# TensorShape.Proofs.Meaning

What symbolic values stand for.

A register of a running program holds a `Datum`: an integer, a truth value, a tensor, a shape or a
function. Under an assignment of data to registers a symbolic value stands for a datum
(`Value.denote`), and it holds if that datum counts as true (`Value.Holds`).

* `denote_mapRegisters`: renaming the registers of a value is renaming in the assignment;
* `denote_congr`: a value depends on the assignment only through the registers it mentions.
-/

namespace TensorShape

/-! ## Data -/

/-- A tensor as far as its shape goes: the number of its axes, and the extent along each. -/
structure Tensor where
  rank : Int
  extent : Int → Int

/-- What a register holds when the program runs. -/
inductive Datum where
  | int (n : Int)
  | bool (b : Bool)
  | tensor (t : Tensor)
  /-- The shape of a tensor: the extent along each axis. -/
  | shape (extent : Int → Int)
  /-- A function, known by its symbol. -/
  | function (symbol : String)

namespace Datum

/-- The tensor, if the datum is one. -/
def tensor? : Datum → Option Tensor
  | .tensor t => some t
  | _ => none

/-- Data that an assertion lets pass: truth, and every integer but zero. -/
def IsTrue : Datum → Prop
  | .int n => n ≠ 0
  | .bool b => b = true
  | _ => False

@[simp] theorem tensor?_tensor (t : Tensor) : (Datum.tensor t).tensor? = some t := rfl

@[simp] theorem isTrue_int (n : Int) : (Datum.int n).IsTrue ↔ n ≠ 0 := Iff.rfl

@[simp] theorem isTrue_bool (b : Bool) : (Datum.bool b).IsTrue ↔ b = true := Iff.rfl

end Datum

/-- The symbol of a library function. -/
def Builtin.symbol : Builtin → String
  | .check => "check"
  | .rankGetter => "$s10TensorFlow0A0V4rankSivg"
  | .shapeGetter => "$s10TensorFlow0A0V5shapeAA0A5ShapeVvg"
  | .shapeSubscript => "$s10TensorFlow0A5ShapeVyS2icir"

/-! ## Values -/

namespace Value

open Classical in
/-- What a value stands for. The rank, the shape and the extents of what is no tensor are nothing,
and neither is an equality about them. -/
noncomputable def denote (ρ : Register → Datum) : Value → Option Datum
  | .int v => some (.int v.toInt)
  | .shapeOf r => (ρ r).tensor?.map fun t => .shape t.extent
  | .rankOf r => (ρ r).tensor?.map fun t => .int t.rank
  | .dimOf axis r => (ρ r).tensor?.map fun t => .int (t.extent axis.toInt)
  | .builtinRef b => some (.function b.symbol)
  | .functionRef name => some (.function name)
  | .equals a b =>
    match a.denote ρ, b.denote ρ with
    | some x, some y => some (.bool (decide (x = y)))
    | _, _ => none

/-- The value stands for something that counts as true. -/
def Holds (ρ : Register → Datum) (v : Value) : Prop := ∃ d, v.denote ρ = some d ∧ d.IsTrue

/-- The registers a value mentions, from left to right. -/
def registers : Value → List Register
  | .int _ => []
  | .shapeOf r => [r]
  | .rankOf r => [r]
  | .dimOf _ r => [r]
  | .builtinRef _ => []
  | .functionRef _ => []
  | .equals a b => a.registers ++ b.registers

/-! ## Renaming and agreement -/

/-- A renamed value mentions the renamed registers. -/
@[simp] theorem registers_mapRegisters (f : Register → Register) (v : Value) :
    (v.mapRegisters f).registers = v.registers.map f := by
  induction v with
  | equals a b iha ihb => simp [mapRegisters, registers, iha, ihb]
  | _ => rfl

/-- Renaming twice is renaming once, by both renamings. -/
theorem mapRegisters_mapRegisters (f g : Register → Register) (v : Value) :
    (v.mapRegisters f).mapRegisters g = v.mapRegisters fun r => g (f r) := by
  induction v with
  | equals a b iha ihb => simp only [mapRegisters, iha, ihb]
  | _ => rfl

/-- Renamings that agree on the registers of a value rename it alike. -/
theorem mapRegisters_congr {f g : Register → Register} {v : Value}
    (h : ∀ r ∈ v.registers, f r = g r) : v.mapRegisters f = v.mapRegisters g := by
  induction v with
  | equals a b iha ihb =>
    have ha := iha fun r hr => h r (List.mem_append_left _ hr)
    have hb := ihb fun r hr => h r (List.mem_append_right _ hr)
    simp only [mapRegisters, ha, hb]
  | shapeOf r => simp only [mapRegisters, h r (List.mem_singleton.2 rfl)]
  | rankOf r => simp only [mapRegisters, h r (List.mem_singleton.2 rfl)]
  | dimOf axis r => simp only [mapRegisters, h r (List.mem_singleton.2 rfl)]
  | _ => rfl

/-- A renamed value stands for what the value stands for once the assignment is renamed. -/
theorem denote_mapRegisters (ρ : Register → Datum) (f : Register → Register) (v : Value) :
    (v.mapRegisters f).denote ρ = v.denote fun r => ρ (f r) := by
  induction v with
  | equals a b iha ihb => simp only [mapRegisters, denote, iha, ihb]
  | _ => rfl

/-- A renamed value holds where the value holds of what the new names hold. -/
theorem holds_mapRegisters (ρ : Register → Datum) (f : Register → Register) (v : Value) :
    (v.mapRegisters f).Holds ρ ↔ v.Holds fun r => ρ (f r) := by
  unfold Holds
  rw [denote_mapRegisters]

/-- Assignments that agree on the registers of a value give it the same meaning. -/
theorem denote_congr {ρ ρ' : Register → Datum} {v : Value}
    (h : ∀ r ∈ v.registers, ρ r = ρ' r) : v.denote ρ = v.denote ρ' := by
  induction v with
  | equals a b iha ihb =>
    have ha := iha fun r hr => h r (List.mem_append_left _ hr)
    have hb := ihb fun r hr => h r (List.mem_append_right _ hr)
    simp only [denote, ha, hb]
  | shapeOf r => simp only [denote, h r (List.mem_singleton.2 rfl)]
  | rankOf r => simp only [denote, h r (List.mem_singleton.2 rfl)]
  | dimOf axis r => simp only [denote, h r (List.mem_singleton.2 rfl)]
  | _ => rfl

/-- Whether a value holds depends on the registers that it mentions. -/
theorem holds_congr {ρ ρ' : Register → Datum} {v : Value}
    (h : ∀ r ∈ v.registers, ρ r = ρ' r) : v.Holds ρ ↔ v.Holds ρ' := by
  unfold Holds
  rw [denote_congr h]

end Value

end TensorShape
