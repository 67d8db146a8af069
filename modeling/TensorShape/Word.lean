/-!
# TensorShape.Word

Integers as 64-bit words: `word?` is the word of an integer that is one (`IsWord`), and `Int64.toInt`
its inverse.
-/

namespace TensorShape

/-- The signed 64-bit word of an integer, if there is one. -/
def word? (n : Int) : Option Int64 :=
  if -9223372036854775808 ≤ n ∧ n ≤ 9223372036854775807 then some (Int64.ofInt n) else none

/-- The unsigned 64-bit word of an integer, if there is one. -/
def unsignedWord? (n : Int) : Option UInt64 :=
  if 0 ≤ n ∧ n ≤ 18446744073709551615 then some (UInt64.ofNat n.toNat) else none

@[simp] theorem word?_toInt (v : Int64) : word? v.toInt = some v := by
  have h₁ := v.le_toInt
  have h₂ := v.toInt_lt
  rw [word?, if_pos ⟨by omega, by omega⟩, Int64.ofInt_toInt]

theorem toInt_of_word? {n : Int} {v : Int64} (h : word? n = some v) : v.toInt = n := by
  unfold word? at h
  split at h
  · cases h
    exact Int64.toInt_ofInt_of_le (by omega) (by omega)
  · cases h

/-- The integer is the value of a 64-bit word. -/
def IsWord (n : Int) : Prop := Int64.minValue.toInt ≤ n ∧ n ≤ Int64.maxValue.toInt

instance (n : Int) : Decidable (IsWord n) := inferInstanceAs (Decidable (_ ∧ _))

theorem isSome_word?_iff (n : Int) : (word? n).isSome = true ↔ IsWord n := by
  have hmin : Int64.minValue.toInt = -9223372036854775808 := by decide
  have hmax : Int64.maxValue.toInt = 9223372036854775807 := by decide
  rw [IsWord, hmin, hmax, word?]
  split <;> simp_all

@[simp] theorem unsignedWord?_toNat (v : UInt64) : unsignedWord? v.toNat = some v := by
  have h := v.toNat_lt
  rw [unsignedWord?, if_pos ⟨by omega, by omega⟩]
  simp

end TensorShape
