import TensorShape.Proofs.Entailment

/-!
# TensorShape.Proofs.Consequence

Verdicts as a consequence relation.

A verifier proves goals from assumptions (`Verifier.Proves`) or refutes facts (`Verifier.Refutes`).
With a solver that decides, both are matters of the tensors that meet the assumptions
(`Verifier.proves_iff`, `Verifier.refutes_iff`), and so they obey the laws of consequence:

* what is assumed is proved, more assumptions prove no less, and goals are proved one by one
  (`Follows.of_mem`, `Follows.mono`, `Follows.append_iff`);
* what is proved may be assumed (`Follows.cut_iff`);
* assumptions are refuted if and only if they prove everything (`Follows.all_iff`);
* the order of assumptions and goals does not matter, nor how often each is given
  (`Follows.congr`).

Each law compares questions that put different formulas to the solver: a dimension that is given in
one of them has to be there for the goals of the other, and each states the laws of shapes for what
it reached. Of the tensors nothing of this is left: to meet a list of facts is to meet each of them
(`Tensors.meets_append_iff`), also where some cannot be encoded.
-/

namespace TensorShape

/-! ## Meeting more and fewer facts -/

namespace Tensors

variable {shapeLaws : Bool} {τ : Tensors shapeLaws} {facts facts' : List Value}

/-- Fewer facts ask for less. -/
theorem Meets.mono (h : τ.Meets facts) (hsub : facts' ⊆ facts) : τ.Meets facts' where
  holds v hv := h.holds v (hsub hv)
  within hlaws v hv := h.within hlaws v (hsub hv)

/-- Facts of two lists are met if those of each are. -/
theorem meets_append_iff : τ.Meets (facts ++ facts') ↔ τ.Meets facts ∧ τ.Meets facts' := by
  constructor
  · intro h
    exact ⟨h.mono (List.subset_append_left ..), h.mono (List.subset_append_right ..)⟩
  · rintro ⟨h, h'⟩
    refine ⟨fun v hv => ?_, fun hlaws v hv => ?_⟩
    · rcases List.mem_append.1 hv with hv | hv
      · exact h.holds v hv
      · exact h'.holds v hv
    · rcases List.mem_append.1 hv with hv | hv
      · exact h.within hlaws v hv
      · exact h'.within hlaws v hv

/-- Which facts there are is all that counts, not their order or number. -/
theorem meets_congr (h : ∀ v, v ∈ facts ↔ v ∈ facts') : τ.Meets facts ↔ τ.Meets facts' := by
  have hsub : facts ⊆ facts' := fun v => (h v).1
  have hsub' : facts' ⊆ facts := fun v => (h v).2
  exact ⟨fun hmeets => hmeets.mono hsub', fun hmeets => hmeets.mono hsub⟩

/-- A fact that can be encoded is satisfied where it is met. -/
theorem Meets.satisfies (h : τ.Meets facts) {v : Value} (hv : v ∈ facts)
    (hencodable : v.Encodable) : τ.Satisfies v := by
  refine ⟨h.holds v hv hencodable, fun hlaws a ha => h.within hlaws v hv a ?_⟩
  rwa [hencodable.dim_mem_reachedAsFact_iff]

/-- A fact about a rank says just that: it reads no dimension. -/
theorem satisfies_rank_iff {r : Register} {k : Int64} :
    τ.Satisfies (.equals (.rankOf r) (.int k)) ↔ (τ.tensor r).rank = k.toInt := by
  have hholds : (Value.equals (.rankOf r) (.int k)).Holds τ.data ↔ (τ.tensor r).rank = k.toInt := by
    simp [Value.Holds, Value.denote, data]
  exact ⟨fun h => hholds.1 h.holds, fun h => ⟨hholds.2 h, by simp [Value.axes]⟩⟩

/-- That an extent is equal to itself says that its axis is there. -/
theorem satisfies_extent_self_iff {r : Register} {k : Int64} :
    τ.Satisfies (.equals (.dimOf k r) (.dimOf k r)) ↔
      (shapeLaws = true → Axis.Within τ.tensor ⟨r, k⟩) := by
  constructor
  · intro h hlaws
    exact h.within hlaws _ (by simp [Value.axes])
  · intro h
    refine ⟨by simp [Value.Holds, Value.denote, data], fun hlaws a ha => ?_⟩
    obtain rfl : a = ⟨r, k⟩ := by simpa [Value.axes] using ha
    exact h hlaws

/-- Zero is false of all tensors. -/
theorem not_satisfies_zero : ¬τ.Satisfies (.int 0) := by
  intro h
  have hholds := h.holds
  simp [Value.Holds, Value.denote] at hholds

end Tensors

/-! ## Laws of consequence -/

namespace Follows

variable {shapeLaws : Bool} {assumptions assumptions' lemmas goals goals' : List Value}

/-- What follows from assumptions follows from more of them. -/
theorem mono (h : Follows shapeLaws assumptions goals) (hsub : assumptions ⊆ assumptions') :
    Follows shapeLaws assumptions' goals :=
  fun τ hmeets => h τ (hmeets.mono hsub)

/-- Neither the order of assumptions and goals counts, nor how often each is given. -/
theorem congr (hassumptions : ∀ v, v ∈ assumptions ↔ v ∈ assumptions')
    (hgoals : ∀ v, v ∈ goals ↔ v ∈ goals') :
    Follows shapeLaws assumptions goals ↔ Follows shapeLaws assumptions' goals' := by
  simp only [Follows, Tensors.meets_congr hassumptions, hgoals]

/-- Goals follow together if each of them does. -/
theorem append_iff : Follows shapeLaws assumptions (goals ++ goals') ↔
    Follows shapeLaws assumptions goals ∧ Follows shapeLaws assumptions goals' := by
  simp only [Follows, List.forall_mem_append, imp_and, forall_and]

/-- An assumption follows from the assumptions, if it can be encoded at all. -/
theorem of_mem {v : Value} (hv : v ∈ assumptions) (hencodable : v.Encodable) :
    Follows shapeLaws assumptions [v] := by
  intro τ hmeets
  rw [List.forall_mem_singleton]
  exact hmeets.satisfies hv hencodable

/-- What follows asks for nothing more: the axes it speaks of are there already. -/
theorem meets_append_iff (h : Follows shapeLaws assumptions lemmas)
    (hlemmas : ∀ v ∈ lemmas, v.Encodable) {τ : Tensors shapeLaws} :
    τ.Meets (assumptions ++ lemmas) ↔ τ.Meets assumptions := by
  rw [Tensors.meets_append_iff, Tensors.meets_iff hlemmas]
  exact and_iff_left_of_imp (h τ)

/-- To assume what follows lets nothing new follow. -/
theorem cut_iff (h : Follows shapeLaws assumptions lemmas) (hlemmas : ∀ v ∈ lemmas, v.Encodable) :
    Follows shapeLaws (assumptions ++ lemmas) goals ↔ Follows shapeLaws assumptions goals :=
  forall_congr' fun _ => imp_congr_left (h.meets_append_iff hlemmas)

/-- Everything follows from assumptions that no tensors meet, and from no others. -/
theorem all_iff : (∀ g : Value, g.Encodable → Follows shapeLaws assumptions [g]) ↔
    ¬∃ τ : Tensors shapeLaws, τ.Meets assumptions := by
  constructor
  · rintro h ⟨τ, hmeets⟩
    -- Zero can be encoded as a goal, and holds of no tensors.
    have hzero := h (.int 0) ⟨_, rfl⟩ τ hmeets
    rw [List.forall_mem_singleton] at hzero
    exact Tensors.not_satisfies_zero hzero
  · intro hnone g _ τ hmeets
    exact absurd ⟨τ, hmeets⟩ hnone

end Follows

/-! ## Verdicts -/

namespace Verifier

variable {solver : Solver} {shapeLaws : Bool} {assumptions lemmas goals facts : List Value}

/-- The verdict is that the goals follow. -/
def Proves (v : Verifier) (assumptions goals : List Value) : Prop :=
  (v.verify assumptions goals).outcome = .ok .verified

/-- The answer is that the facts cannot hold together. -/
def Refutes (v : Verifier) (facts : List Value) : Prop :=
  (v.checkConsistency facts).outcome = .ok .contradictory

/-- With a solver that decides, goals are proved if they can be encoded and follow. -/
theorem proves_iff (hsolver : solver.Decides) :
    Proves ⟨some solver, shapeLaws⟩ assumptions goals ↔
      (∀ g ∈ goals, g.Encodable) ∧ Follows shapeLaws assumptions goals := by
  unfold Proves
  constructor
  · intro hok
    by_cases hgoals : ∀ g ∈ goals, g.Encodable
    · refine ⟨hgoals, Classical.byContradiction fun hfails => ?_⟩
      obtain ⟨w, hw⟩ := verify_of_not_follows hsolver hgoals hfails
      rw [hw] at hok
      cases hok
    · have hopen : ∃ reason, (verify ⟨some solver, shapeLaws⟩ assumptions goals).outcome =
          .ok (.inconclusive reason) := verify_of_not_encodable hgoals
      obtain ⟨reason, hreason⟩ := hopen
      rw [hreason] at hok
      cases hok
  · rintro ⟨hgoals, hfollows⟩
    exact verify_of_follows hsolver hgoals hfollows

theorem proves_singleton_iff (hsolver : solver.Decides) {goal : Value} (hgoal : goal.Encodable) :
    Proves ⟨some solver, shapeLaws⟩ assumptions [goal] ↔ Follows shapeLaws assumptions [goal] := by
  rw [proves_iff hsolver, List.forall_mem_singleton]
  exact and_iff_right hgoal

/-- With a solver that decides, facts are refuted if no tensors meet them. -/
theorem refutes_iff (hsolver : solver.Decides) :
    Refutes ⟨some solver, shapeLaws⟩ facts ↔ ¬∃ τ : Tensors shapeLaws, τ.Meets facts := by
  unfold Refutes
  constructor
  · intro hok hmeets
    obtain ⟨w, hw⟩ := checkConsistency_of_meets hsolver hmeets
    rw [hw] at hok
    cases hok
  · exact checkConsistency_of_not_meets hsolver

/-! ### Lemmas -/

/-- What is proved may be assumed, and lets nothing be proved that could not be proved without it.
In the question with the lemmas the dimensions they speak of are given; in the one without, the
goals have to see to it that these are there. -/
theorem proves_cut_iff (hsolver : solver.Decides)
    (hlemmas : Proves ⟨some solver, shapeLaws⟩ assumptions lemmas) :
    Proves ⟨some solver, shapeLaws⟩ (assumptions ++ lemmas) goals ↔
      Proves ⟨some solver, shapeLaws⟩ assumptions goals := by
  obtain ⟨hencodable, hfollows⟩ := (proves_iff hsolver).1 hlemmas
  rw [proves_iff hsolver, proves_iff hsolver, hfollows.cut_iff hencodable]

/-- `%x` is a matrix. -/
def isMatrix : Value := .equals (.rankOf "%x") (.int 2)

/-- `%x` has the axis. -/
def hasAxis (k : Int64) : Value := .equals (.dimOf k "%x") (.dimOf k "%x")

/-- That a tensor is a matrix proves that it has each of its two axes. -/
theorem proves_hasAxis_of_isMatrix (hsolver : solver.Decides) {k : Int64}
    (hk : 0 ≤ k.toInt ∧ k.toInt < 2) :
    Proves ⟨some solver, shapeLaws⟩ [isMatrix] [hasAxis k] := by
  rw [proves_singleton_iff hsolver ⟨_, rfl⟩]
  intro τ hmeets
  have hrank := Tensors.satisfies_rank_iff.1 (hmeets.satisfies (List.mem_singleton.2 rfl) ⟨_, rfl⟩)
  rw [List.forall_mem_singleton]
  refine Tensors.satisfies_extent_self_iff.2 fun _ => ?_
  rw [Axis.Within, hrank]
  exact hk

/-- Once it is proved that a matrix has an axis 1, an axis 0 is given with it; but it was there
without that lemma. -/
theorem proves_cut_hasAxis :
    Solver.ideal.Decides ∧
    Proves ⟨some Solver.ideal, true⟩ [isMatrix] [hasAxis 1] ∧
    Proves ⟨some Solver.ideal, true⟩ ([isMatrix] ++ [hasAxis 1]) [hasAxis 0] ∧
    Proves ⟨some Solver.ideal, true⟩ [isMatrix] [hasAxis 0] := by
  have hlemma : Proves ⟨some Solver.ideal, true⟩ [isMatrix] [hasAxis 1] :=
    proves_hasAxis_of_isMatrix Solver.ideal_decides (by decide)
  have hgoal : Proves ⟨some Solver.ideal, true⟩ ([isMatrix] ++ [hasAxis 1]) [hasAxis 0] := by
    rw [proves_singleton_iff Solver.ideal_decides ⟨_, rfl⟩]
    intro τ hmeets
    -- Axis 1 is an assumption here, so that it need not be derived from the rank.
    have haxis : τ.Satisfies (hasAxis 1) := hmeets.satisfies (by simp) ⟨_, rfl⟩
    have hwithin := Tensors.satisfies_extent_self_iff.1 haxis rfl
    have hless : (0 : Int64).toInt ≤ (1 : Int64).toInt := by decide
    rw [List.forall_mem_singleton]
    exact Tensors.satisfies_extent_self_iff.2 fun _ =>
      ⟨by decide, Int.lt_of_le_of_lt hless hwithin.2⟩
  exact ⟨Solver.ideal_decides, hlemma, hgoal, (proves_cut_iff Solver.ideal_decides hlemma).1 hgoal⟩

/-! ### Structural rules -/

/-- The structural rules of consequence, whether or not all assumptions can be encoded: more
assumptions prove no less, goals are proved together if each of two lists of them is proved, and
what is assumed is proved. -/
theorem proves_structural_rules (hsolver : solver.Decides) (shapeLaws : Bool)
    (assumptions assumptions' goals goals' : List Value) :
    (Proves ⟨some solver, shapeLaws⟩ assumptions goals →
      Proves ⟨some solver, shapeLaws⟩ (assumptions ++ assumptions') goals) ∧
    (Proves ⟨some solver, shapeLaws⟩ assumptions (goals ++ goals') ↔
      Proves ⟨some solver, shapeLaws⟩ assumptions goals ∧
        Proves ⟨some solver, shapeLaws⟩ assumptions goals') ∧
    (∀ v ∈ assumptions, v.Encodable → Proves ⟨some solver, shapeLaws⟩ assumptions [v]) := by
  simp only [proves_iff hsolver]
  refine ⟨?_, ?_, fun v hv hencodable => ⟨?_, .of_mem hv hencodable⟩⟩
  · rintro ⟨hgoals, hfollows⟩
    exact ⟨hgoals, hfollows.mono (List.subset_append_left ..)⟩
  · rw [List.forall_mem_append, Follows.append_iff]
    exact and_and_and_comm
  · rwa [List.forall_mem_singleton]

/-- A matrix has the axes 0 and 1, also if an extent is said to be a shape, which is dropped. -/
theorem proves_structural_rules_isMatrix :
    Solver.ideal.Decides ∧
    ¬(Value.equals (.dimOf 0 "%x") (.shapeOf "%y")).Encodable ∧
    Proves ⟨some Solver.ideal, true⟩
      ([isMatrix] ++ [.equals (.dimOf 0 "%x") (.shapeOf "%y")]) [hasAxis 0] ∧
    Proves ⟨some Solver.ideal, true⟩ [isMatrix] ([hasAxis 0] ++ [hasAxis 1]) ∧
    Proves ⟨some Solver.ideal, true⟩ [isMatrix] [isMatrix] := by
  obtain ⟨hmono, hsplit, hself⟩ := proves_structural_rules Solver.ideal_decides true [isMatrix]
    [.equals (.dimOf 0 "%x") (.shapeOf "%y")] [hasAxis 0] [hasAxis 1]
  have hfirst : Proves ⟨some Solver.ideal, true⟩ [isMatrix] [hasAxis 0] :=
    proves_hasAxis_of_isMatrix Solver.ideal_decides (by decide)
  have hsecond : Proves ⟨some Solver.ideal, true⟩ [isMatrix] [hasAxis 1] :=
    proves_hasAxis_of_isMatrix Solver.ideal_decides (by decide)
  refine ⟨Solver.ideal_decides, ?_, hmono hfirst, hsplit.2 ⟨hfirst, hsecond⟩,
    hself isMatrix (List.mem_singleton.2 rfl) ⟨_, rfl⟩⟩
  rintro ⟨f, hf⟩
  cases hf

/-! ### Refutation -/

/-- The two questions agree: together with what they prove, assumptions are refuted only if they are
refuted alone, and they are refuted if and only if they prove everything. -/
theorem refutes_iff_proves_all (hsolver : solver.Decides) (shapeLaws : Bool)
    (assumptions goals : List Value) :
    (Proves ⟨some solver, shapeLaws⟩ assumptions goals →
      (Refutes ⟨some solver, shapeLaws⟩ (assumptions ++ goals) ↔
        Refutes ⟨some solver, shapeLaws⟩ assumptions)) ∧
    (Refutes ⟨some solver, shapeLaws⟩ assumptions ↔
      ∀ g : Value, g.Encodable → Proves ⟨some solver, shapeLaws⟩ assumptions [g]) := by
  simp only [refutes_iff hsolver]
  constructor
  · intro hproves
    obtain ⟨hencodable, hfollows⟩ := (proves_iff hsolver).1 hproves
    exact not_congr (exists_congr fun _ => hfollows.meets_append_iff hencodable)
  · rw [← Follows.all_iff]
    exact forall_congr' fun g => forall_congr' fun hg => (proves_singleton_iff hsolver hg).symm

/-- A matrix may well have an axis 1, as it must. An axis 2 refutes that it is one, and then even
zero is proved. -/
theorem refutes_third_axis_of_isMatrix :
    Solver.ideal.Decides ∧
    Proves ⟨some Solver.ideal, true⟩ [isMatrix] [hasAxis 1] ∧
    ¬Refutes ⟨some Solver.ideal, true⟩ ([isMatrix] ++ [hasAxis 1]) ∧
    Refutes ⟨some Solver.ideal, true⟩ [isMatrix, hasAxis 2] ∧
    Proves ⟨some Solver.ideal, true⟩ [isMatrix, hasAxis 2] [.int 0] := by
  have hproves : Proves ⟨some Solver.ideal, true⟩ [isMatrix] [hasAxis 1] :=
    proves_hasAxis_of_isMatrix Solver.ideal_decides (by decide)
  have hmatrices : ¬Refutes ⟨some Solver.ideal, true⟩ [isMatrix] := by
    rw [refutes_iff Solver.ideal_decides]
    refine fun hnone => hnone ⟨.empties true 2, (Tensors.meets_iff ?_).2 ?_⟩
    · rw [List.forall_mem_singleton]
      exact ⟨_, rfl⟩
    · rw [List.forall_mem_singleton]
      exact Tensors.satisfies_rank_iff.2 rfl
  have hthird : Refutes ⟨some Solver.ideal, true⟩ [isMatrix, hasAxis 2] := by
    rw [refutes_iff Solver.ideal_decides]
    rintro ⟨τ, hmeets⟩
    have hmatrix : τ.Satisfies isMatrix := hmeets.satisfies (by simp) ⟨_, rfl⟩
    have haxis : τ.Satisfies (hasAxis 2) := hmeets.satisfies (by simp) ⟨_, rfl⟩
    have hwithin := Tensors.satisfies_extent_self_iff.1 haxis rfl
    rw [Axis.Within, Tensors.satisfies_rank_iff.1 hmatrix] at hwithin
    exact absurd hwithin.2 (by decide)
  have hagree := refutes_iff_proves_all Solver.ideal_decides true [isMatrix] [hasAxis 1]
  have hall := refutes_iff_proves_all Solver.ideal_decides true [isMatrix, hasAxis 2] []
  exact ⟨Solver.ideal_decides, hproves, (not_congr (hagree.1 hproves)).2 hmatrices, hthird,
    hall.2.1 hthird (.int 0) ⟨_, rfl⟩⟩

/-! ### Order and repetition -/

/-- Facts, assumptions and goals are sets: the same ones in another order or number get answers of
the same kind, whether or not all of them can be encoded. Which of them is the first to reach a
dimension changes the formulas that the solver sees, and nothing else. -/
theorem kind_eq_of_same_elements (hsolver : solver.Decides) (shapeLaws : Bool)
    {facts facts' assumptions assumptions' goals goals' : List Value}
    (hfacts : ∀ v, v ∈ facts ↔ v ∈ facts')
    (hassumptions : ∀ v, v ∈ assumptions ↔ v ∈ assumptions')
    (hgoals : ∀ v, v ∈ goals ↔ v ∈ goals') :
    (∃ kind, consistencyKind ⟨some solver, shapeLaws⟩ facts = .ok kind ∧
      consistencyKind ⟨some solver, shapeLaws⟩ facts' = .ok kind) ∧
    ∃ kind, verdictKind ⟨some solver, shapeLaws⟩ assumptions goals = .ok kind ∧
      verdictKind ⟨some solver, shapeLaws⟩ assumptions' goals' = .ok kind := by
  have hmeets : (∃ τ : Tensors shapeLaws, τ.Meets facts') ↔
      ∃ τ : Tensors shapeLaws, τ.Meets facts :=
    exists_congr fun τ => (Tensors.meets_congr hfacts).symm
  have hencodable : (∀ g ∈ goals', g.Encodable) ↔ ∀ g ∈ goals, g.Encodable := by
    simp only [hgoals]
  have hfollows : Follows shapeLaws assumptions' goals' ↔ Follows shapeLaws assumptions goals :=
    (Follows.congr hassumptions hgoals).symm
  constructor
  · refine ⟨_, consistencyKind_eq hsolver shapeLaws facts, ?_⟩
    rw [consistencyKind_eq hsolver, hmeets]
  · refine ⟨_, verdictKind_eq hsolver shapeLaws assumptions goals, ?_⟩
    rw [verdictKind_eq hsolver, hfollows]
    by_cases hall : ∀ g ∈ goals, g.Encodable
    · rw [if_pos hall, if_pos (hencodable.2 hall)]
    · rw [if_neg hall, if_neg (mt hencodable.1 hall)]

/-- That zero is true stays a contradiction, and that a matrix has an axis 1 stays verified, in
whichever order and however often they are said. -/
theorem kind_eq_of_repetition :
    Solver.ideal.Decides ∧ ¬(mixedFact 0).Encodable ∧
    consistencyKind ⟨some Solver.ideal, true⟩ [mixedFact 0, hasAxis 0, .int 0] =
      .ok .contradictory ∧
    consistencyKind ⟨some Solver.ideal, true⟩ [.int 0, hasAxis 0, mixedFact 0, hasAxis 0] =
      .ok .contradictory ∧
    verdictKind ⟨some Solver.ideal, true⟩ [isMatrix] [hasAxis 1] = .ok .verified ∧
    verdictKind ⟨some Solver.ideal, true⟩ [isMatrix, isMatrix] [hasAxis 1, hasAxis 1] =
      .ok .verified := by
  have hlost : ¬(mixedFact 0).Encodable := by
    rintro ⟨f, hf⟩
    cases hf
  have hfacts : ∀ v, v ∈ [mixedFact 0, hasAxis 0, .int 0] ↔
      v ∈ [.int 0, hasAxis 0, mixedFact 0, hasAxis 0] := by
    simp [or_comm, or_left_comm]
  have hassumptions : ∀ v, v ∈ [isMatrix] ↔ v ∈ [isMatrix, isMatrix] := by simp
  have hgoals : ∀ v, v ∈ [hasAxis 1] ↔ v ∈ [hasAxis 1, hasAxis 1] := by simp
  have hzero : consistencyKind ⟨some Solver.ideal, true⟩ [mixedFact 0, hasAxis 0, .int 0] =
      .ok .contradictory := by
    rw [consistencyKind_eq Solver.ideal_decides, if_neg]
    rintro ⟨τ, hmeets⟩
    exact Tensors.not_satisfies_zero (hmeets.satisfies (by simp) ⟨_, rfl⟩)
  have hproves : Proves ⟨some Solver.ideal, true⟩ [isMatrix] [hasAxis 1] :=
    proves_hasAxis_of_isMatrix Solver.ideal_decides (by decide)
  have haxis : verdictKind ⟨some Solver.ideal, true⟩ [isMatrix] [hasAxis 1] = .ok .verified :=
    congrArg (Except.map Verdict.kind) hproves
  obtain ⟨⟨kind, hkind, hkind'⟩, verdict, hverdict, hverdict'⟩ :=
    kind_eq_of_same_elements Solver.ideal_decides true hfacts hassumptions hgoals
  rw [hzero] at hkind
  rw [haxis] at hverdict
  cases hkind
  cases hverdict
  exact ⟨Solver.ideal_decides, hlost, hzero, hkind', haxis, hverdict'⟩

end Verifier

end TensorShape
