import Mathlib.Data.Nat.Find
import Mathlib.Logic.ExistsUnique
import TensorShape.Counter

/-!
# TensorShape.Proofs.Counting

What a counter hands out, call by call.

The call number `n` is for the value `start + n * step`. What a counter has handed out is never
wrapped, and nothing is left out on the way. But the value of the next call is computed first, so a
call returns exactly if the value *after* its own is a word, and a counter that moves at all fails
before it has handed out its last word.

* `Counter.next_cases`: what one call does;
* `Counter.calls_next`: the answers of any number of calls, as an equation of lists;
* `Counter.calls_next_iff`, `Counter.not_handsOutEveryWord`: the exact condition, and a word that is
  missed.
-/

namespace TensorShape

/-! ## Sums of words -/

theorem isWord_toInt (v : Int64) : IsWord v.toInt :=
  (isSome_word?_iff v.toInt).1 (by simp)

/-- A sum of words is answered with the word that is the sum of the integers. -/
theorem addWords_eq_ok_iff {a b v : Int64} :
    addWords a b = .ok v ↔ v.toInt = a.toInt + b.toInt := by
  unfold addWords
  split
  · next sum hsum =>
    rw [← toInt_of_word? hsum, Except.ok.injEq, Int64.toInt_inj, eq_comm]
  · next hnone =>
    refine iff_of_false (by simp) fun hv => ?_
    rw [← hv, word?_toInt] at hnone
    cases hnone

/-- A sum that is out of range is an overflow. -/
theorem addWords_of_not_isWord {a b : Int64} (h : ¬IsWord (a.toInt + b.toInt)) :
    addWords a b = .error ⟨⟩ := by
  rw [← isSome_word?_iff, Bool.not_eq_true, Option.isSome_eq_false_iff, Option.isNone_iff_eq_none] at h
  rw [addWords, h]

/-- A sum in range is answered. -/
theorem exists_addWords_of_isWord {a b : Int64} (h : IsWord (a.toInt + b.toInt)) :
    ∃ v, addWords a b = .ok v := by
  rw [← isSome_word?_iff, Option.isSome_iff_exists] at h
  obtain ⟨v, hv⟩ := h
  exact ⟨v, by rw [addWords, hv]⟩

namespace Counter

/-! ## Values of a count -/

/-- The value that the call number `n` is for. -/
def value (c : Counter) (n : Nat) : Int := c.current.toInt + n * c.step.toInt

variable {c : Counter} {m n : Nat}

@[simp] theorem value_zero (c : Counter) : c.value 0 = c.current.toInt := by simp [value]

theorem value_succ (c : Counter) (n : Nat) : c.value (n + 1) = c.value n + c.step.toInt := by
  rw [value, value, Int.natCast_add, Int.add_mul, Int.natCast_one, Int.one_mul, Int.add_assoc]

/-- All values before a word are words, for a count goes one way and begins with a word. -/
theorem isWord_value_of_le (h : IsWord (c.value n)) (hmn : m ≤ n) : IsWord (c.value m) := by
  obtain ⟨hlow, hhigh⟩ := isWord_toInt c.current
  obtain ⟨hlow', hhigh'⟩ := h
  have hm : (0 : Int) ≤ m := Int.natCast_nonneg m
  have hmn' : (m : Int) ≤ n := Int.ofNat_le.2 hmn
  unfold IsWord
  unfold value at *
  rcases Int.le_total 0 c.step.toInt with hstep | hstep
  · have hpos : 0 ≤ m * c.step.toInt := Int.mul_nonneg hm hstep
    have hle : m * c.step.toInt ≤ n * c.step.toInt := Int.mul_le_mul_of_nonneg_right hmn' hstep
    omega
  · have hneg : m * c.step.toInt ≤ 0 := Int.mul_nonpos_of_nonneg_of_nonpos hm hstep
    have hle : n * c.step.toInt ≤ m * c.step.toInt := Int.mul_le_mul_of_nonpos_right hmn' hstep
    omega

/-- A count that moves does not stay among the words. -/
theorem exists_not_isWord_value (h : c.step ≠ 0) : ∃ n, ¬IsWord (c.value n) := by
  obtain ⟨hlow, hhigh⟩ := isWord_toInt c.current
  have hmin : Int64.minValue.toInt = -9223372036854775808 := by decide
  have hmax : Int64.maxValue.toInt = 9223372036854775807 := by decide
  have hstep : c.step.toInt ≠ 0 := fun h0 => h (Int64.toInt_inj.1 h0)
  refine ⟨18446744073709551616, fun hword => ?_⟩
  unfold IsWord value at hword
  omega

/-! ## Calls -/

/-- A call hands out the current value and leaves the rest of the count, or, if the value after it
is not a word, fails. -/
theorem next_cases (c : Counter) :
    (IsWord (c.value 1) ∧
      ∃ c', c.next = .ok (c.current, c') ∧ ∀ n, c'.value n = c.value (n + 1)) ∨
    (¬IsWord (c.value 1) ∧ c.next = .error ⟨⟩) := by
  have hone : c.value 1 = c.current.toInt + c.step.toInt := by simp [value]
  by_cases hword : IsWord (c.value 1)
  · rw [hone] at hword
    obtain ⟨v, hv⟩ := exists_addWords_of_isWord hword
    refine .inl ⟨hone ▸ hword, { c with current := v }, by rw [next, hv]; rfl, fun n => ?_⟩
    have hvalue : v.toInt = c.current.toInt + c.step.toInt := addWords_eq_ok_iff.1 hv
    rw [value_succ]
    simp only [value, hvalue]
    omega
  · rw [hone] at hword
    exact .inr ⟨hone ▸ hword, by rw [next, addWords_of_not_isWord hword]; rfl⟩

/-- The answer of the call number `n`, as a function of the values of the count. -/
def answer (c : Counter) (n : Nat) : Except Overflow Int64 :=
  if IsWord (c.value (n + 1)) then .ok (Int64.ofInt (c.value n)) else .error ⟨⟩

/-- The answers of any number of calls. -/
theorem calls_next (N : Nat) (c : Counter) : calls next N c = (List.range N).map c.answer := by
  induction N generalizing c with
  | zero => rfl
  | succ N ih =>
    rw [List.range_succ_eq_map, List.map_cons, List.map_map]
    rcases c.next_cases with ⟨hword, c', hnext, hvalue⟩ | ⟨hword, hnext⟩
    · have hfirst : c.answer 0 = .ok c.current := by
        rw [answer, if_pos hword, value_zero, Int64.ofInt_toInt]
      have hrest : c'.answer = c.answer ∘ Nat.succ := by
        funext n
        simp only [answer, hvalue, Function.comp_apply, Nat.succ_eq_add_one]
      simp only [calls, hnext, ih, hfirst, hrest]
    · -- The counter stays, and no later value is a word either.
      have hfails : ∀ n, c.answer n = .error ⟨⟩ := fun n =>
        if_neg fun hlater => hword (isWord_value_of_le hlater (Nat.le_add_left 1 n))
      have hrest : c.answer = c.answer ∘ Nat.succ := by
        funext n
        simp only [hfails, Function.comp_apply]
      simp only [calls, hnext, ih, hfails 0, ← hrest]

/-- The call with number `n` is answered as the counter's history says. -/
theorem getElem?_calls_next {N : Nat} (h : n < N) :
    (calls next N c)[n]? = some (c.answer n) := by
  simp [calls_next, h]

/-- A call hands out the value that is due if the one after it is a word. -/
theorem answer_eq_ok_iff {v : Int64} :
    c.answer n = .ok v ↔ v.toInt = c.value n ∧ IsWord (c.value (n + 1)) := by
  unfold answer
  split
  · next hword =>
    obtain ⟨hlow, hhigh⟩ := isWord_value_of_le hword (Nat.le_add_right n 1)
    have hvalue : (Int64.ofInt (c.value n)).toInt = c.value n :=
      Int64.toInt_ofInt_of_le hlow (Int.lt_add_one_of_le hhigh)
    rw [and_iff_left hword, Except.ok.injEq, ← Int64.toInt_inj, hvalue, eq_comm]
  · next hword => simp [hword]

/-- A call overflows if and only if the value after the one that is due is no word. -/
theorem answer_eq_error_iff : c.answer n = .error ⟨⟩ ↔ ¬IsWord (c.value (n + 1)) := by
  unfold answer
  split <;> simp_all

theorem getElem?_calls_next_eq_ok_iff {N : Nat} (h : n < N) {v : Int64} :
    (calls next N c)[n]? = some (.ok v) ↔ v.toInt = c.value n ∧ IsWord (c.value (n + 1)) := by
  rw [getElem?_calls_next h, Option.some_inj, answer_eq_ok_iff]

theorem getElem?_calls_next_eq_error_iff {N : Nat} (h : n < N) :
    (calls next N c)[n]? = some (.error ⟨⟩) ↔ ¬IsWord (c.value (n + 1)) := by
  rw [getElem?_calls_next h, Option.some_inj, answer_eq_error_iff]

/-! ## Words that are missed -/

/-- Every word of the count is handed out in its turn, and a call fails only if its value is not a
word. -/
structure HandsOutEveryWord (c : Counter) : Prop where
  returns : ∀ n, IsWord (c.value n) → (∀ m < n, ∃ v, (calls next (n + 1) c)[m]? = some (.ok v)) →
    ∃ v, (calls next (n + 1) c)[n]? = some (.ok v) ∧ v.toInt = c.value n
  fails : ∀ n, (calls next (n + 1) c)[n]? = some (.error ⟨⟩) → ¬IsWord (c.value n)

/-- The last word of a count that moves. -/
theorem exists_last_word (h : c.step ≠ 0) :
    ∃ n, IsWord (c.value n) ∧ ¬IsWord (c.value (n + 1)) := by
  have hexists := exists_not_isWord_value h
  cases hfirst : Nat.find hexists with
  | zero =>
    have hnot : ¬IsWord (c.value (Nat.find hexists)) := Nat.find_spec hexists
    rw [hfirst, value_zero] at hnot
    exact absurd (isWord_toInt c.current) hnot
  | succ n =>
    have hlt : n < Nat.find hexists := by omega
    exact ⟨n, not_not.1 (Nat.find_min hexists hlt), hfirst ▸ Nat.find_spec hexists⟩

/-- A counter that does not move hands out its only word again and again. -/
theorem handsOutEveryWord_of_step_eq_zero (h : c.step = 0) : c.HandsOutEveryWord := by
  have hnext : ∀ n, c.value (n + 1) = c.value n := fun n => by simp [value_succ, h]
  refine ⟨fun n hword _ => ?_, fun n hfails => ?_⟩
  · obtain ⟨v, hv⟩ := Option.isSome_iff_exists.1 ((isSome_word?_iff _).2 hword)
    have hvalue : v.toInt = c.value n := toInt_of_word? hv
    have hword' : IsWord (c.value (n + 1)) := hnext n ▸ hword
    exact ⟨v, (getElem?_calls_next_eq_ok_iff (Nat.lt_add_one n)).2 ⟨hvalue, hword'⟩, hvalue⟩
  · rw [← hnext]
    exact (getElem?_calls_next_eq_error_iff (Nat.lt_add_one n)).1 hfails

/-- A counter that moves misses the last word of its count, and only this. -/
theorem existsUnique_missed (h : c.step ≠ 0) :
    ∃! n, IsWord (c.value n) ∧ (calls next (n + 1) c)[n]? = some (.error ⟨⟩) := by
  simp only [getElem?_calls_next_eq_error_iff (Nat.lt_add_one _)]
  obtain ⟨n, hword, hnext⟩ := exists_last_word h
  refine ⟨n, ⟨hword, hnext⟩, ?_⟩
  rintro m ⟨hword', hnext'⟩
  -- The later of the two would come after a value that is not a word.
  by_contra hne
  rcases Nat.lt_or_gt_of_ne hne with hlt | hlt
  · exact hnext' (isWord_value_of_le hword hlt)
  · exact hnext (isWord_value_of_le hword' hlt)

/-- The call number `n` hands out `start + n * step`, if that and also the value after it are words;
otherwise it fails. So a counter hands out every word of its count only if it does not move. If it
moves, there is exactly one word that it fails to hand out. -/
theorem calls_next_iff (c : Counter) :
    (∀ N n, n < N →
      (∀ v, (calls next N c)[n]? = some (.ok v) ↔
        v.toInt = c.value n ∧ IsWord (c.value (n + 1))) ∧
      ((calls next N c)[n]? = some (.error ⟨⟩) ↔ ¬IsWord (c.value (n + 1)))) ∧
    (c.HandsOutEveryWord ↔ c.step = 0) ∧
    (c.step ≠ 0 →
      ∃! n, IsWord (c.value n) ∧ (calls next (n + 1) c)[n]? = some (.error ⟨⟩)) := by
  refine ⟨fun N n hn => ⟨fun v => ?_, ?_⟩, ⟨fun h => ?_, ?_⟩, existsUnique_missed⟩
  · exact getElem?_calls_next_eq_ok_iff hn
  · exact getElem?_calls_next_eq_error_iff hn
  · by_contra hmoves
    obtain ⟨n, ⟨hword, hfails⟩, -⟩ := existsUnique_missed hmoves
    exact h.fails n hfails hword
  · exact handsOutEveryWord_of_step_eq_zero

/-- From the last word but one, in steps of one: the last word is not handed out. -/
theorem not_handsOutEveryWord :
    calls next 2 ⟨9223372036854775806, 1⟩ = [.ok 9223372036854775806, .error ⟨⟩] ∧
    value ⟨9223372036854775806, 1⟩ 1 = 9223372036854775807 ∧
    ¬HandsOutEveryWord ⟨9223372036854775806, 1⟩ := by
  have hcalls : calls next 2 ⟨9223372036854775806, 1⟩ =
      [.ok 9223372036854775806, .error ⟨⟩] := by rfl
  have hvalue : value ⟨9223372036854775806, 1⟩ 1 = 9223372036854775807 := by decide
  refine ⟨hcalls, hvalue, fun h => h.fails 1 ?_ ?_⟩
  · rw [hcalls]
    rfl
  · rw [hvalue]
    decide

end Counter

end TensorShape
