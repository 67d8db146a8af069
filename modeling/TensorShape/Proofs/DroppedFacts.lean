import TensorShape.Proofs.Entailment

/-!
# TensorShape.Proofs.DroppedFacts

What is left of a fact that cannot be encoded.

The fact itself is dropped. The axes that its encoding reached before it failed are not: with the
laws of shapes on, they have to be there (`Tensors.meets_iff_kept`). So the answer is the one that
the facts that are kept give as long as these leave room for such tensors, and not otherwise.
-/

namespace TensorShape

/-- The facts that can be encoded. -/
def kept (facts : List Value) : List Value := facts.filter fun v => v.asFact.isOk

/-- What is kept are the facts that can be encoded. -/
theorem mem_kept_iff {facts : List Value} {v : Value} :
    v ∈ kept facts ↔ v ∈ facts ∧ v.Encodable := by
  have hok : v.asFact.isOk = true ↔ v.Encodable := by
    unfold Value.Encodable
    cases v.asFact <;> simp [Except.isOk, Except.toBool]
  rw [kept, List.mem_filter, hok]

namespace Tensors

variable {shapeLaws : Bool}

/-- With the laws of shapes on, the axes are there that facts reached before they failed. -/
def Allows (τ : Tensors shapeLaws) (facts : List Value) : Prop :=
  shapeLaws = true → ∀ v ∈ facts, ¬v.Encodable → ∀ a, .dim a ∈ v.reachedAsFact → a.Within τ.tensor

/-- The facts that are kept are met if they are satisfied. -/
theorem meets_kept_iff {τ : Tensors shapeLaws} {facts : List Value} :
    τ.Meets (kept facts) ↔ ∀ v ∈ kept facts, τ.Satisfies v :=
  meets_iff fun _ hv => (mem_kept_iff.1 hv).2

/-- To meet facts is to satisfy those that are kept, and to allow for what the others reached. -/
theorem meets_iff_kept {τ : Tensors shapeLaws} {facts : List Value} :
    τ.Meets facts ↔ (∀ v ∈ kept facts, τ.Satisfies v) ∧ τ.Allows facts := by
  rw [← meets_kept_iff]
  constructor
  · intro h
    refine ⟨⟨fun v hv => ?_, fun hlaws v hv => ?_⟩, fun hlaws v hv _ => h.within hlaws v hv⟩
    · exact h.holds v (mem_kept_iff.1 hv).1
    · exact h.within hlaws v (mem_kept_iff.1 hv).1
  · rintro ⟨hkept, hallows⟩
    refine ⟨fun v hv hencodable => ?_, fun hlaws v hv a ha => ?_⟩
    · exact hkept.holds v (mem_kept_iff.2 ⟨hv, hencodable⟩) hencodable
    · by_cases hencodable : v.Encodable
      · exact hkept.within hlaws v (mem_kept_iff.2 ⟨hv, hencodable⟩) a ha
      · exact hallows hlaws v hv hencodable a ha

end Tensors

namespace Verifier

variable {solver : Solver}

/-- Two lists of facts get one kind of answer if both can be met or neither can. -/
theorem consistencyKind_eq_iff (hsolver : solver.Decides) {shapeLaws : Bool}
    {facts facts' : List Value} :
    consistencyKind ⟨some solver, shapeLaws⟩ facts =
        consistencyKind ⟨some solver, shapeLaws⟩ facts' ↔
      ((∃ τ : Tensors shapeLaws, τ.Meets facts) ↔ ∃ τ : Tensors shapeLaws, τ.Meets facts') := by
  rw [consistencyKind_eq hsolver, consistencyKind_eq hsolver]
  by_cases h : ∃ τ : Tensors shapeLaws, τ.Meets facts <;>
    by_cases h' : ∃ τ : Tensors shapeLaws, τ.Meets facts' <;> simp [h, h']

/-- Two lists of assumptions get one kind of verdict on goals that can be encoded if the goals
follow from both or from neither. -/
theorem verdictKind_eq_iff (hsolver : solver.Decides) {shapeLaws : Bool}
    {assumptions assumptions' goals : List Value} :
    verdictKind ⟨some solver, shapeLaws⟩ assumptions goals =
        verdictKind ⟨some solver, shapeLaws⟩ assumptions' goals ↔
      ((∀ g ∈ goals, g.Encodable) →
        (Follows shapeLaws assumptions goals ↔ Follows shapeLaws assumptions' goals)) := by
  rw [verdictKind_eq hsolver, verdictKind_eq hsolver]
  by_cases hgoals : ∀ g ∈ goals, g.Encodable
  · rw [if_pos hgoals, if_pos hgoals, forall_prop_of_true hgoals]
    by_cases h : Follows shapeLaws assumptions goals <;>
      by_cases h' : Follows shapeLaws assumptions' goals <;> simp [h, h']
  · rw [if_neg hgoals, if_neg hgoals]
    exact ⟨fun _ h => absurd h hgoals, fun _ => rfl⟩

/-- Facts that fail are dropped but for the axes they reached: the answer is that of the facts that
are kept if and only if these, when they can hold at all, can hold of tensors with those axes; and
the verdict is that on the assumptions that are kept if and only if the goals, where they follow
with the help of those axes, follow without it. With the laws of shapes off, this is always so. -/
theorem kind_kept_iff (hsolver : solver.Decides) (shapeLaws : Bool)
    (facts assumptions goals : List Value) :
    (consistencyKind ⟨some solver, shapeLaws⟩ facts =
        consistencyKind ⟨some solver, shapeLaws⟩ (kept facts) ↔
      ((∃ τ : Tensors shapeLaws, ∀ v ∈ kept facts, τ.Satisfies v) →
        ∃ τ : Tensors shapeLaws, (∀ v ∈ kept facts, τ.Satisfies v) ∧ τ.Allows facts)) ∧
    (verdictKind ⟨some solver, shapeLaws⟩ assumptions goals =
        verdictKind ⟨some solver, shapeLaws⟩ (kept assumptions) goals ↔
      ((∀ g ∈ goals, g.Encodable) →
        (∀ τ : Tensors shapeLaws, (∀ v ∈ kept assumptions, τ.Satisfies v) →
          τ.Allows assumptions → ∀ g ∈ goals, τ.Satisfies g) →
        Entails shapeLaws (kept assumptions) goals)) := by
  rw [consistencyKind_eq_iff hsolver, verdictKind_eq_iff hsolver]
  have hentails : Follows shapeLaws (kept assumptions) goals ↔
      Entails shapeLaws (kept assumptions) goals :=
    follows_iff_entails fun v hv => (mem_kept_iff.1 hv).2
  constructor
  · have hkept : (∃ τ : Tensors shapeLaws, τ.Meets (kept facts)) ↔
        ∃ τ : Tensors shapeLaws, ∀ v ∈ kept facts, τ.Satisfies v :=
      exists_congr fun _ => Tensors.meets_kept_iff
    have hall : (∃ τ : Tensors shapeLaws, τ.Meets facts) ↔
        ∃ τ : Tensors shapeLaws, (∀ v ∈ kept facts, τ.Satisfies v) ∧ τ.Allows facts :=
      exists_congr fun _ => Tensors.meets_iff_kept
    rw [hkept, hall]
    refine ⟨fun h => h.2, fun h => ⟨?_, h⟩⟩
    rintro ⟨τ, hτ, -⟩
    exact ⟨τ, hτ⟩
  · rw [hentails]
    simp only [Follows, Tensors.meets_iff_kept, and_imp]
    refine forall_congr' fun hgoals => ⟨fun h => h.1, fun h => ⟨h, ?_⟩⟩
    intro hall τ hτ _
    exact hall τ hτ

/-- A matrix has an axis 0, whatever it is compared with, so that the fact is lost and no more. -/
theorem kind_kept_of_matrix :
    Solver.ideal.Decides ∧
    consistencyKind ⟨some Solver.ideal, true⟩ [mixedFact 0, .equals (.rankOf "%x") (.int 2)] =
      consistencyKind ⟨some Solver.ideal, true⟩
        (kept [mixedFact 0, .equals (.rankOf "%x") (.int 2)]) ∧
    verdictKind ⟨some Solver.ideal, true⟩
        [mixedFact 0, .equals (.rankOf "%x") (.int 2)] [.int 1] =
      verdictKind ⟨some Solver.ideal, true⟩
        (kept [mixedFact 0, .equals (.rankOf "%x") (.int 2)]) [.int 1] := by
  have hiff := kind_kept_iff Solver.ideal_decides true
    [mixedFact 0, .equals (.rankOf "%x") (.int 2)] [mixedFact 0, .equals (.rankOf "%x") (.int 2)]
    [.int 1]
  refine ⟨Solver.ideal_decides, hiff.1.2 ?_, hiff.2.2 fun _ _ τ _ g hg => ?_⟩
  · rintro ⟨τ, hτ⟩
    refine ⟨τ, hτ, fun _ v hv hfails a ha => ?_⟩
    have hrank : (τ.tensor "%x").rank = 2 := by
      have hholds := (hτ (.equals (.rankOf "%x") (.int 2)) (by decide)).holds
      simpa [Value.Holds, Value.denote, Tensors.data] using hholds
    simp only [List.mem_cons, List.not_mem_nil, or_false] at hv
    rcases hv with rfl | rfl
    · have hreached : (mixedFact 0).reachedAsFact = [.dim ⟨"%x", 0⟩] := rfl
      rw [hreached, List.mem_singleton] at ha
      cases ha
      rw [Axis.Within, hrank]
      decide
    · exact absurd ⟨_, rfl⟩ hfails
  · rw [List.mem_singleton.1 hg]
    exact ⟨by simp [Value.Holds, Value.denote], fun _ a ha => absurd ha List.not_mem_nil⟩

/-- A fact that cannot be encoded makes everything follow, because its left side speaks of an axis
that no tensor has. -/
theorem kind_kept_ne :
    Solver.ideal.Decides ∧
    consistencyKind ⟨some Solver.ideal, true⟩ [mixedFact (-1)] = .ok .contradictory ∧
    consistencyKind ⟨some Solver.ideal, true⟩ (kept [mixedFact (-1)]) = .ok .consistent ∧
    verdictKind ⟨some Solver.ideal, true⟩ [mixedFact (-1)] [.int 0] = .ok .verified ∧
    verdictKind ⟨some Solver.ideal, true⟩ (kept [mixedFact (-1)]) [.int 0] =
      .ok .counterexample := by
  have hkept : kept [mixedFact (-1)] = [] := rfl
  have hnone : ¬∃ τ : Tensors true, τ.Meets [mixedFact (-1)] := by
    rintro ⟨τ, hτ⟩
    have hwithin := hτ.within rfl _ (List.mem_singleton.2 rfl) ⟨"%x", -1⟩ (by decide)
    exact absurd hwithin.1 (by decide)
  have hmeets : (Tensors.empties true 0).Meets [] := ⟨nofun, nofun⟩
  have hgoals : ∀ g ∈ [Value.int 0], g.Encodable := by
    rw [List.forall_mem_singleton]
    exact ⟨_, rfl⟩
  have hfollows : Follows true [mixedFact (-1)] [.int 0] := fun τ hτ => absurd ⟨τ, hτ⟩ hnone
  have hfails : ¬Follows true [] [.int 0] := by
    intro h
    have hholds := (h _ hmeets _ (List.mem_singleton.2 rfl)).holds
    simp [Value.Holds, Value.denote] at hholds
  rw [hkept]
  refine ⟨Solver.ideal_decides, ?_, ?_, ?_, ?_⟩
  · rw [consistencyKind_eq Solver.ideal_decides, if_neg hnone]
  · rw [consistencyKind_eq Solver.ideal_decides, if_pos ⟨_, hmeets⟩]
  · rw [verdictKind_eq Solver.ideal_decides, if_pos hgoals, if_pos hfollows]
  · rw [verdictKind_eq Solver.ideal_decides, if_pos hgoals, if_neg hfails]

end Verifier

end TensorShape
