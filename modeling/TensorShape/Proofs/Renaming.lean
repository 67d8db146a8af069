import TensorShape.Proofs.Entailment

/-!
# TensorShape.Proofs.Renaming

Facts under other names.

Whether a value can be encoded is a matter of the kinds of its parts (`Value.kind?`), which do not
depend on registers. So renaming the registers of a fact changes neither that nor where the encoding
ends, and what is reached is renamed with it (`Value.reachedAsFact_mapRegisters`). Tensors meet
renamed facts if and only if the tensors under the old names meet the facts
(`Tensors.meets_mapRegisters_iff`).
-/

namespace TensorShape

/-! ## Kinds -/

/-- What a side of an equality stands for. -/
inductive Side.Kind where
  | number
  | truth
deriving DecidableEq

def Side.kind : Side → Side.Kind
  | .term _ => .number
  | .formula _ => .truth

namespace Value

/-- The kind of a value that can stand in an equality. -/
def kind? (v : Value) : Option Side.Kind := v.asSide.toOption.map Side.kind

/-- Both sides of an equality are of one kind. -/
theorem kind?_equals (a b : Value) :
    (equals a b).kind? = if a.kind? = b.kind? then a.kind?.map fun _ => .truth else none := by
  cases ha : a.asSide with
  | error e => cases hb : b.asSide <;> simp [kind?, asSide, ha, hb, Except.toOption]
  | ok s =>
    cases hb : b.asSide with
    | error e => simp [kind?, asSide, ha, hb, Except.toOption]
    | ok t =>
      cases s <;> cases t <;> simp [kind?, asSide, ha, hb, Except.toOption, Side.kind]

/-- A fact that can be encoded is an integer or an equality of one kind. -/
theorem encodable_iff (v : Value) : v.Encodable ↔ (∃ k, v = .int k) ∨ v.kind? = some .truth := by
  cases v with
  | int k => simp [Encodable, asFact]
  | equals a b =>
    simp only [Encodable, asFact, kind?]
    cases (equals a b).asSide with
    | error e => simp [Except.toOption]
    | ok s => cases s <;> simp [Except.toOption, Side.kind]
  | _ => simp [Encodable, asFact, kind?, asSide, asTerm, Except.map, Except.toOption, Side.kind]

/-- The right side is reached if the left one can be encoded. -/
theorem reachedAsSide_equals (a b : Value) :
    (equals a b).reachedAsSide =
      a.reachedAsSide ++ if a.kind?.isSome then b.reachedAsSide else [] := by
  cases ha : a.asSide <;> simp [reachedAsSide, kind?, ha, Except.toOption]

/-! ## Renamed values -/

variable (φ : Register → Register) (v : Value)

/-- Renaming changes no kind. -/
@[simp] theorem kind?_mapRegisters : (v.mapRegisters φ).kind? = v.kind? := by
  induction v with
  | equals a b iha ihb => rw [mapRegisters, kind?_equals, kind?_equals, iha, ihb]
  | _ => rfl

/-- Whether a value can be encoded does not depend on the names in it. -/
theorem encodable_mapRegisters : (v.mapRegisters φ).Encodable ↔ v.Encodable := by
  rw [encodable_iff, encodable_iff, kind?_mapRegisters]
  cases v <;> simp [mapRegisters]

end Value

/-- What is reached under other names. -/
def Reached.mapRegister (φ : Register → Register) : Reached → Reached
  | .rank r => .rank (φ r)
  | .dim a => .dim ⟨φ a.register, a.index⟩

namespace Value

/-- A renamed side of an equality reaches the renamed ranks and dimensions. -/
theorem reachedAsSide_mapRegisters (φ : Register → Register) (v : Value) :
    (v.mapRegisters φ).reachedAsSide = v.reachedAsSide.map (Reached.mapRegister φ) := by
  induction v with
  | equals a b iha ihb =>
    rw [mapRegisters, reachedAsSide_equals, reachedAsSide_equals, kind?_mapRegisters, iha, ihb,
      List.map_append]
    split <;> rfl
  | _ => rfl

/-- A renamed fact reaches the renamed ranks and dimensions. -/
theorem reachedAsFact_mapRegisters (φ : Register → Register) (v : Value) :
    (v.mapRegisters φ).reachedAsFact = v.reachedAsFact.map (Reached.mapRegister φ) := by
  cases v with
  | equals a b => exact reachedAsSide_mapRegisters φ (equals a b)
  | _ => rfl

/-- What is reached belongs to registers of the value. -/
theorem register_mem_of_reachedAsSide {v : Value} {x : Reached} (h : x ∈ v.reachedAsSide) :
    x.register ∈ v.registers := by
  induction v with
  | equals a b iha ihb =>
    rw [reachedAsSide_equals, List.mem_append] at h
    rw [registers, List.mem_append]
    rcases h with h | h
    · exact .inl (iha h)
    · split at h
      · exact .inr (ihb h)
      · exact absurd h List.not_mem_nil
  | rankOf r =>
    cases List.mem_singleton.1 h
    exact List.mem_singleton.2 rfl
  | dimOf k r =>
    cases List.mem_singleton.1 h
    exact List.mem_singleton.2 rfl
  | int k => exact absurd h List.not_mem_nil
  | shapeOf r => exact absurd h List.not_mem_nil
  | builtinRef b => exact absurd h List.not_mem_nil
  | functionRef name => exact absurd h List.not_mem_nil

/-- A fact reaches nothing of registers that it does not mention. -/
theorem register_mem_of_reachedAsFact {v : Value} {x : Reached} (h : x ∈ v.reachedAsFact) :
    x.register ∈ v.registers := by
  cases v with
  | equals a b => exact register_mem_of_reachedAsSide h
  | _ => exact absurd h List.not_mem_nil

end Value

/-! ## Tensors under other names -/

namespace Tensors

variable {shapeLaws : Bool} {τ τ' : Tensors shapeLaws} {φ : Register → Register}

/-- The axes that a renamed fact reaches are there if those that the fact reaches are. -/
theorem within_mapRegisters_iff {v : Value} (hτ : ∀ r ∈ v.registers, τ'.tensor r = τ.tensor (φ r)) :
    (∀ a, .dim a ∈ (v.mapRegisters φ).reachedAsFact → a.Within τ.tensor) ↔
      ∀ a, .dim a ∈ v.reachedAsFact → a.Within τ'.tensor := by
  have haxis : ∀ a : Axis, .dim a ∈ v.reachedAsFact →
      (a.Within τ'.tensor ↔ Axis.Within τ.tensor ⟨φ a.register, a.index⟩) := by
    intro a ha
    have hregister := hτ a.register (Value.register_mem_of_reachedAsFact ha)
    rw [Axis.Within, Axis.Within, hregister]
  rw [Value.reachedAsFact_mapRegisters]
  constructor
  · intro h a ha
    rw [haxis a ha]
    exact h _ (List.mem_map.2 ⟨.dim a, ha, rfl⟩)
  · intro h a ha
    obtain ⟨x, hx, heq⟩ := List.mem_map.1 ha
    cases x with
    | rank r => cases heq
    | dim b =>
      cases heq
      exact (haxis b hx).1 (h b hx)

/-- Tensors meet renamed facts if and only if the facts are met by the tensors under the old
names. -/
theorem meets_mapRegisters_iff {facts : List Value}
    (hτ : ∀ v ∈ facts, ∀ r ∈ v.registers, τ'.tensor r = τ.tensor (φ r)) :
    τ.Meets (facts.map (Value.mapRegisters φ)) ↔ τ'.Meets facts := by
  have hholds : ∀ v ∈ facts, ((v.mapRegisters φ).Holds τ.data ↔ v.Holds τ'.data) := by
    intro v hv
    rw [Value.holds_mapRegisters]
    refine Value.holds_congr fun r hr => ?_
    rw [data, data, hτ v hv r hr]
  constructor
  · intro h
    constructor
    · intro v hv hencodable
      refine (hholds v hv).1 (h.holds _ (List.mem_map_of_mem hv) ?_)
      rwa [Value.encodable_mapRegisters]
    · intro hlaws v hv
      exact (within_mapRegisters_iff (hτ v hv)).1 (h.within hlaws _ (List.mem_map_of_mem hv))
  · intro h
    constructor
    · intro w hw hencodable
      obtain ⟨v, hv, rfl⟩ := List.mem_map.1 hw
      rw [Value.encodable_mapRegisters] at hencodable
      exact (hholds v hv).2 (h.holds v hv hencodable)
    · intro hlaws w hw
      obtain ⟨v, hv, rfl⟩ := List.mem_map.1 hw
      exact (within_mapRegisters_iff (hτ v hv)).2 (h.within hlaws v hv)

end Tensors

end TensorShape
