import Mathlib.Data.List.TakeWhile
import TensorShape.Proofs.Renaming

/-!
# TensorShape.Proofs.Kinds

Which facts can be encoded, and what is left of those that cannot.

An encoding goes through the parts of a fact in post-order: the left side of an equality, the right
side, and then the equality. Each part is accepted or refused for what it is, without regard to the
parts before it (`Value.refusal?`), and the first one that is refused ends the encoding.

* `Value.encodable_iff_wellKinded`: the facts that can be encoded are integers and well-kinded
  equalities;
* `Value.asFact_eq_error_iff`: the error of one that cannot be encoded is that of the first part that
  is refused;
* `Value.reachedAsFact_eq`: what is reached are the ranks and dimensions before that part;
* `Value.eval_eq_truth`: the formula of a fact is true where the fact is.
-/

namespace TensorShape

namespace Value

/-! ## Well-kinded equalities -/

/-- A literal, a rank or an extent. -/
def isInteger : Value → Bool
  | .int _ => true
  | .rankOf _ => true
  | .dimOf .. => true
  | _ => false

def isEquality : Value → Bool
  | .equals .. => true
  | _ => false

/-- An equality of two integers, or of two well-kinded equalities. -/
inductive WellKinded : Value → Prop
  | integers {a b : Value} (ha : a.isInteger = true) (hb : b.isInteger = true) :
      WellKinded (.equals a b)
  | equalities {a b : Value} (ha : a.WellKinded) (hb : b.WellKinded) : WellKinded (.equals a b)

/-- Integers are numbers, and nothing else is. -/
theorem kind?_eq_number_iff (v : Value) : v.kind? = some .number ↔ v.isInteger = true := by
  cases v with
  | equals a b =>
    rw [kind?_equals]
    split <;> simp [isInteger]
  | _ => simp [kind?, asSide, asTerm, Except.map, Except.toOption, Side.kind, isInteger]

/-- Well-kinded equalities are truth values, and nothing else is. -/
theorem kind?_eq_truth_iff (v : Value) : v.kind? = some .truth ↔ v.WellKinded := by
  induction v with
  | equals a b iha ihb =>
    rw [kind?_equals]
    constructor
    · intro h
      split at h
      · next hsame =>
        cases hkind : a.kind? with
        | none =>
          rw [hkind] at h
          cases h
        | some kind =>
          rw [hkind] at hsame
          cases kind with
          | number =>
            exact .integers ((kind?_eq_number_iff a).1 hkind) ((kind?_eq_number_iff b).1 hsame.symm)
          | truth => exact .equalities (iha.1 hkind) (ihb.1 hsame.symm)
      · cases h
    · intro h
      cases h with
      | integers ha hb =>
        rw [(kind?_eq_number_iff a).2 ha, (kind?_eq_number_iff b).2 hb]
        rfl
      | equalities ha hb =>
        rw [iha.2 ha, ihb.2 hb]
        rfl
  | _ => constructor <;> intro h <;> cases h

/-- A fact that can be encoded is an integer or a well-kinded equality. -/
theorem encodable_iff_wellKinded (v : Value) :
    v.Encodable ↔ (∃ k, v = .int k) ∨ v.WellKinded := by
  rw [encodable_iff, kind?_eq_truth_iff]

/-! ## Parts in post-order -/

/-- The parts of a value, each after its own parts, from left to right. -/
def postorder : Value → List Value
  | .equals a b => a.postorder ++ b.postorder ++ [.equals a b]
  | v => [v]

/-- What a part of an equality is refused as, if it is. The sides of an equality have to be two
equalities or two integers. -/
def misfit? : Value → Option String
  | .int _ => none
  | .rankOf _ => none
  | .dimOf .. => none
  | .equals a b =>
    if a.isEquality = b.isEquality then none else some "an equality of mixed kinds"
  | _ => some "an integer"

/-- What a part of a fact is refused as, if it is. A fact that is no equality is a part of its own,
and has to be an integer literal. -/
def refusal? (fact : Value) (part : Value) : Option String :=
  match fact with
  | .equals .. => part.misfit?
  | .int _ => none
  | _ => some "a boolean"

/-- The error of the first part of an equality that is refused. -/
def firstMisfit? (v : Value) : Option EncodingError :=
  v.postorder.findSome? fun part => part.misfit?.map (.unsupported part)

/-- The first part of an equality that is refused is in its left side, in its right side, or the
equality itself. -/
theorem firstMisfit?_equals (a b : Value) :
    (equals a b).firstMisfit? = (a.firstMisfit?.or b.firstMisfit?).or
      ((equals a b).misfit?.map (.unsupported (.equals a b))) := by
  simp only [firstMisfit?, postorder, List.findSome?_append, List.findSome?_singleton]

/-- Two equalities, or two that are none, may be compared. -/
theorem misfit?_equals_of_eq {a b : Value} (h : a.isEquality = b.isEquality) :
    (equals a b).misfit? = none :=
  if_pos h

/-- An equality may not be compared with what is none. -/
theorem misfit?_equals_of_ne {a b : Value} (h : a.isEquality ≠ b.isEquality) :
    (equals a b).misfit? = some "an equality of mixed kinds" :=
  if_neg h

/-- The encoding as a side ends at the first misfit. Without one, equalities become formulas and all
else becomes a term. -/
theorem asSide_cases (v : Value) :
    (∃ e, v.firstMisfit? = some e ∧ v.asSide = .error e) ∨
    (v.firstMisfit? = none ∧ v.isEquality = false ∧ ∃ t, v.asSide = .ok (.term t)) ∨
    (v.firstMisfit? = none ∧ v.isEquality = true ∧ ∃ f, v.asSide = .ok (.formula f)) := by
  induction v with
  | int k => exact .inr (.inl ⟨rfl, rfl, _, rfl⟩)
  | rankOf r => exact .inr (.inl ⟨rfl, rfl, _, rfl⟩)
  | dimOf k r => exact .inr (.inl ⟨rfl, rfl, _, rfl⟩)
  | shapeOf r => exact .inl ⟨_, rfl, rfl⟩
  | builtinRef b => exact .inl ⟨_, rfl, rfl⟩
  | functionRef name => exact .inl ⟨_, rfl, rfl⟩
  | equals a b iha ihb =>
    rw [firstMisfit?_equals]
    rcases iha with ⟨e, ha, hsideA⟩ | hokA
    · exact .inl ⟨e, by simp [ha], by simp [asSide, hsideA]⟩
    rcases ihb with ⟨e, hb, hsideB⟩ | hokB
    · rcases hokA with ⟨ha, -, t, hsideA⟩ | ⟨ha, -, f, hsideA⟩ <;>
        exact .inl ⟨e, by simp [ha, hb], by simp [asSide, hsideA, hsideB]⟩
    rcases hokA with ⟨ha, hkindA, t, hsideA⟩ | ⟨ha, hkindA, f, hsideA⟩ <;>
      rcases hokB with ⟨hb, hkindB, u, hsideB⟩ | ⟨hb, hkindB, g, hsideB⟩
    · have hfits := misfit?_equals_of_eq (hkindA.trans hkindB.symm)
      exact .inr (.inr ⟨by simp [ha, hb, hfits], rfl, .eq t u, by simp [asSide, hsideA, hsideB]⟩)
    · have hmixed := misfit?_equals_of_ne (a := a) (b := b) (by simp [hkindA, hkindB])
      exact .inl ⟨_, by simp [ha, hb, hmixed]; rfl, by simp [asSide, hsideA, hsideB]⟩
    · have hmixed := misfit?_equals_of_ne (a := a) (b := b) (by simp [hkindA, hkindB])
      exact .inl ⟨_, by simp [ha, hb, hmixed]; rfl, by simp [asSide, hsideA, hsideB]⟩
    · have hfits := misfit?_equals_of_eq (hkindA.trans hkindB.symm)
      exact .inr (.inr ⟨by simp [ha, hb, hfits], rfl, .iff f g, by simp [asSide, hsideA, hsideB]⟩)

/-- A side of an equality fails with the error of its first part that is refused. -/
theorem asSide_eq_error_iff (v : Value) (e : EncodingError) :
    v.asSide = .error e ↔ v.firstMisfit? = some e := by
  rcases v.asSide_cases with ⟨e', hfirst, hside⟩ | ⟨hfirst, -, t, hside⟩ | ⟨hfirst, -, f, hside⟩
  · rw [hfirst, hside]
    simp
  · simp [hfirst, hside]
  · simp [hfirst, hside]

/-- A side no part of which is refused is encoded. -/
theorem exists_asSide_of_fits {v : Value} (h : v.firstMisfit? = none) : ∃ s, v.asSide = .ok s := by
  rcases v.asSide_cases with ⟨e, hfirst, -⟩ | ⟨-, -, t, hside⟩ | ⟨-, -, f, hside⟩
  · rw [h] at hfirst
    cases hfirst
  · exact ⟨_, hside⟩
  · exact ⟨_, hside⟩

/-- The encoding as a fact ends at the first part that is refused. -/
theorem asFact_eq_error_iff (v : Value) (e : EncodingError) :
    v.asFact = .error e ↔
      v.postorder.findSome? (fun part => (v.refusal? part).map (.unsupported part)) = some e := by
  cases v with
  | equals a b =>
    refine Iff.trans ?_ (asSide_eq_error_iff (.equals a b) e)
    rcases (equals a b).asSide_cases with ⟨e', -, hside⟩ | ⟨-, hkind, -⟩ | ⟨-, -, f, hside⟩
    · simp [asFact, hside]
    · cases hkind
    · simp [asFact, hside]
  | int k => simp [asFact, postorder, refusal?]
  | _ => simp [asFact, postorder, refusal?]

/-! ## What is reached -/

/-- What a part reaches by itself. -/
def reached? : Value → Option Reached
  | .rankOf r => some (.rank r)
  | .dimOf k r => some (.dim ⟨r, k⟩)
  | _ => none

/-- The parts of a fact that come before the first one that is refused. -/
def accepted (v : Value) : List Value := v.postorder.takeWhile fun part => (v.refusal? part).isNone

/-- The part may stand in an equality. -/
def fits (v : Value) : Bool := v.misfit?.isNone

theorem fits_of_mem {v : Value} (h : v.firstMisfit? = none) :
    ∀ part ∈ v.postorder, part.fits = true := by
  intro part hpart
  simpa [fits] using List.findSome?_eq_none_iff.1 h part hpart

/-- Behind a misfit, nothing is accepted. -/
theorem takeWhile_append_of_misfit {v : Value} {e : EncodingError} (h : v.firstMisfit? = some e)
    (rest : List Value) : (v.postorder ++ rest).takeWhile fits = v.postorder.takeWhile fits := by
  obtain ⟨before, bad, after, hparts, hbad, hbefore⟩ := List.findSome?_eq_some_iff.1 h
  have hpass : ∀ part ∈ before, part.fits = true := by
    intro part hpart
    simpa [fits] using hbefore part hpart
  have hstop : ¬bad.fits = true := by
    intro hfits
    rw [Option.isNone_iff_eq_none.1 hfits] at hbad
    cases hbad
  rw [hparts, List.append_assoc, List.cons_append, List.takeWhile_append_of_pos hpass,
    List.takeWhile_append_of_pos hpass, List.takeWhile_cons_of_neg hstop,
    List.takeWhile_cons_of_neg hstop]

/-- A side reaches what its parts reach before the first one that is refused. -/
theorem reachedAsSide_eq (v : Value) :
    v.reachedAsSide = (v.postorder.takeWhile fits).filterMap reached? := by
  induction v with
  | equals a b iha ihb =>
    rw [postorder, List.append_assoc]
    cases ha : a.firstMisfit? with
    | some e =>
      have hside := (asSide_eq_error_iff a e).2 ha
      rw [takeWhile_append_of_misfit ha, ← iha]
      simp [reachedAsSide, hside]
    | none =>
      have hreachedA : a.reachedAsSide = a.postorder.filterMap reached? := by
        rw [iha, List.takeWhile_eq_self_iff.2 (fits_of_mem ha)]
      obtain ⟨s, hside⟩ := exists_asSide_of_fits ha
      rw [reachedAsSide_equals_of_ok hside, List.takeWhile_append_of_pos (fits_of_mem ha),
        List.filterMap_append, hreachedA, ihb]
      congr 1
      cases hb : b.firstMisfit? with
      | some e => rw [takeWhile_append_of_misfit hb]
      | none =>
        -- The equality itself comes last, and reaches nothing.
        rw [List.takeWhile_append_of_pos (fits_of_mem hb), List.filterMap_append,
          List.takeWhile_eq_self_iff.2 (fits_of_mem hb), List.takeWhile_cons, List.takeWhile_nil]
        split <;> simp [reached?]
  | _ => rfl

/-- A fact reaches the ranks and dimensions among its parts, up to the first part that is refused. -/
theorem reachedAsFact_eq (v : Value) : v.reachedAsFact = v.accepted.filterMap reached? := by
  cases v with
  | equals a b => exact reachedAsSide_eq (equals a b)
  | _ => rfl

/-! ## Truth -/

/-- The number that an integer stands for. -/
def number (τ : Register → Tensor) : Value → Int
  | .int k => k.toInt
  | .rankOf r => (τ r).rank
  | .dimOf k r => (τ r).extent k.toInt
  | _ => 0

/-- Is the fact true? An integer is unless it is zero, an equality of integers if they are the same
number, and an equality of equalities if both or neither are true. -/
def truth (τ : Register → Tensor) : Value → Bool
  | .int k => k ≠ 0
  | .equals a b =>
    if a.isEquality then a.truth τ == b.truth τ else decide (a.number τ = b.number τ)
  | _ => false

/-- An integer stands for its number. -/
theorem denote_of_isInteger {v : Value} (h : v.isInteger = true) (τ : Register → Tensor) :
    v.denote (fun r => .tensor (τ r)) = some (.int (v.number τ)) := by
  cases v with
  | int k => rfl
  | rankOf r => rfl
  | dimOf k r => rfl
  | _ => cases h

theorem isEquality_of_isInteger {v : Value} (h : v.isInteger = true) : v.isEquality = false := by
  cases v with
  | equals a b => cases h
  | _ => rfl

theorem WellKinded.isEquality {v : Value} (h : v.WellKinded) : v.isEquality = true := by
  cases h <;> rfl

/-- A well-kinded equality stands for its truth. -/
theorem WellKinded.denote_eq {v : Value} (h : v.WellKinded) (τ : Register → Tensor) :
    v.denote (fun r => .tensor (τ r)) = some (.bool (v.truth τ)) := by
  induction h with
  | integers ha hb =>
    simp only [denote, denote_of_isInteger ha, denote_of_isInteger hb, truth,
      isEquality_of_isInteger ha, Datum.int.injEq]
    rfl
  | equalities ha hb iha ihb =>
    simp only [denote, iha, ihb, truth, ha.isEquality, if_true, Datum.bool.injEq,
      Bool.beq_eq_decide_eq]

/-- The formula of a fact is true in a model that agrees with the tensors if and only if the fact
is. -/
theorem eval_eq_truth {m : Model} {τ : Register → Tensor} {v : Value} {f : Formula}
    (h : v.asFact = .ok f) (hagree : ∀ x ∈ v.reachedAsFact, x.Agree m τ) :
    f.eval m = v.truth τ := by
  rcases asFact_eq_ok h with ⟨a, b, rfl, hside⟩ | ⟨k, rfl, rfl⟩
  · have hwell : (equals a b).WellKinded := by
      rw [← kind?_eq_truth_iff, kind?, hside]
      rfl
    have hdatum := denote_of_asSide hside hagree
    rw [hwell.denote_eq] at hdatum
    exact (Datum.bool.inj (Option.some.inj hdatum)).symm
  · have hzero : k.toInt = 0 ↔ k = 0 := Int64.toInt_inj (y := 0)
    simp [Formula.eval, Term.eval, truth, hzero]

end Value

end TensorShape
