import TensorShape.Check.Verifier
import TensorShape.Proofs.Encoding

/-!
# TensorShape.Proofs.Entailment

What the questions put to a solver come to, in terms of tensors.

* `Query.satisfiable_consistency_iff`: the facts can be put to the solver as formulas that have a
  model if and only if some tensors meet the facts.
* `Query.satisfiable_entailment_iff`: the assumptions and the failure of some goal have a model if
  and only if some tensors meet the assumptions and miss a goal.

With a solver that decides, the kind of an answer is therefore a matter of tensors
(`Verifier.verdictKind_eq`, `Verifier.consistencyKind_eq`): `verify` decides entailment over them,
and `checkConsistency` decides satisfiability. The solver is asked about what was reached only, and
a dimension is an obligation of the side that reached it first; entailment and satisfiability know
neither.
-/

namespace TensorShape

/-! ## Deciding solvers -/

namespace Solver

variable {solver : Solver} {fs : List Formula}

/-- A solver that decides refutes just the formulas that have no model. -/
theorem Decides.unsat_iff (h : solver.Decides) :
    solver fs = .unsat ↔ ¬∃ m : Model, m.Satisfies fs := by
  constructor
  · rintro hunsat ⟨m, hm⟩
    exact h.unsat hunsat m hm
  · intro hnone
    cases hanswer : solver fs with
    | sat model? => exact absurd (h.sat hanswer) hnone
    | unsat => rfl
    | unknown reason? => exact absurd hanswer (h.definite fs reason?)

/-- A solver that decides accepts just the formulas that have one. -/
theorem Decides.sat_iff (h : solver.Decides) :
    (∃ model?, solver fs = .sat model?) ↔ ∃ m : Model, m.Satisfies fs := by
  constructor
  · rintro ⟨model?, hsat⟩
    exact h.sat hsat
  · rintro ⟨m, hm⟩
    cases hanswer : solver fs with
    | sat model? => exact ⟨model?, rfl⟩
    | unsat => exact absurd hm (h.unsat hanswer m)
    | unknown reason? => exact absurd hanswer (h.definite fs reason?)

open Classical in
/-- The solver that finds a model whenever there is one. -/
noncomputable def ideal : Solver := fun fs =>
  if h : ∃ m : Model, m.Satisfies fs then .sat (some h.choose) else .unsat

/-- It hands out the model it found. -/
theorem ideal_givesModels : ideal.GivesModels := by
  intro fs model? h
  unfold ideal at h
  split at h
  · next hex =>
    cases h
    exact ⟨_, rfl, hex.choose_spec⟩
  · cases h

theorem ideal_decides : ideal.Decides where
  sat h := by
    obtain ⟨m, -, hm⟩ := ideal_givesModels h
    exact ⟨m, hm⟩
  unsat {fs} h m hm := by
    unfold ideal at h
    rw [dif_pos ⟨m, hm⟩] at h
    cases h
  definite fs reason? h := by
    unfold ideal at h
    split at h <;> cases h

end Solver

/-! ## Tensors that meet premises -/

namespace Tensors

variable {shapeLaws : Bool}

/-- What is assumed with a list of facts: those that can be encoded hold and, with the laws of
shapes on, every axis is there that the encoding of a fact reached before it ended or failed. -/
structure Meets (τ : Tensors shapeLaws) (facts : List Value) : Prop where
  holds : ∀ v ∈ facts, v.Encodable → v.Holds τ.data
  within : shapeLaws = true → ∀ v ∈ facts, ∀ a, .dim a ∈ v.reachedAsFact → a.Within τ.tensor

/-- Of facts that can be encoded nothing is assumed but that they hold and their axes are there. -/
theorem meets_iff {τ : Tensors shapeLaws} {facts : List Value} (h : ∀ v ∈ facts, v.Encodable) :
    τ.Meets facts ↔ ∀ v ∈ facts, τ.Satisfies v := by
  constructor
  · intro hmeets v hv
    refine ⟨hmeets.holds v hv (h v hv), fun hlaws a ha => hmeets.within hlaws v hv a ?_⟩
    exact ((h v hv).dim_mem_reachedAsFact_iff a).2 ha
  · intro hall
    refine ⟨fun v hv _ => (hall v hv).holds, fun hlaws v hv a ha => ?_⟩
    exact (hall v hv).within hlaws a (((h v hv).dim_mem_reachedAsFact_iff a).1 ha)

/-- Models that meet the laws of what was reached and tensors are interchangeable, as far as what
was reached tells them apart. -/
theorem exists_model_iff {P : Model → Prop} {Q : Tensors shapeLaws → Prop} {l : List Reached}
    (h : ∀ m τ, (∀ x ∈ l, x.Agree m τ.tensor) → (P m ↔ Q τ)) :
    (∃ m, P m ∧ (shapeLaws = true → ∀ x ∈ l, x.Lawful m)) ↔ ∃ τ, Q τ := by
  constructor
  · rintro ⟨m, hm, hlawful⟩
    have hagree : ∀ x ∈ l, x.Agree m (ofModel shapeLaws m).tensor :=
      fun x hx => agree_ofModel fun hlaws => hlawful hlaws x hx
    exact ⟨ofModel shapeLaws m, (h m _ hagree).1 hm⟩
  · rintro ⟨τ, hτ⟩
    have hmodel := (h τ.model τ fun x _ => τ.agree_model x).2 hτ
    exact ⟨τ.model, hmodel, fun hlaws x _ => τ.lawful_model hlaws x⟩

/-- Every register holds a tensor with so many axes, all of extent zero. -/
def empties (shapeLaws : Bool) (rank : Nat) : Tensors shapeLaws where
  tensor _ := ⟨rank, fun _ => 0⟩
  tensor_congr _ := rfl
  proper _ _ := ⟨Int.natCast_nonneg rank, fun _ => Int.le_refl 0⟩

end Tensors

/-- The extent of `%x` along an axis, compared with the shape of `%y`. It cannot be encoded, but the
axis is reached. -/
def mixedFact (axis : Int64) : Value := .equals (.dimOf axis "%x") (.shapeOf "%y")

/-! ## Questions -/

/-- The encoded facts are true if each fact that has an encoding is. -/
theorem satisfies_encodable_iff {m : Model} {facts : List Value} :
    m.Satisfies (encodable facts) ↔ ∀ v ∈ facts, ∀ f, v.asFact = .ok f → f.eval m = true := by
  have htoOption : ∀ (v : Value) (f : Formula), v.asFact.toOption = some f ↔ v.asFact = .ok f := by
    intro v f
    cases v.asFact <;> simp [Except.toOption]
  simp only [Model.Satisfies, encodable, List.mem_filterMap, htoOption]
  constructor
  · intro h v hv f hf
    exact h f ⟨v, hv, hf⟩
  · rintro h f ⟨v, hv, hf⟩
    exact h v hv f hf

/-- Goals are encoded together if each of them can be encoded. -/
theorem encodeGoals_eq_ok_iff {goals : List Value} {fs : List Formula} :
    encodeGoals goals = .ok fs ↔ (∀ g ∈ goals, g.Encodable) ∧ fs = encodable goals := by
  induction goals generalizing fs with
  | nil =>
    refine ⟨fun h => ⟨by simp, ?_⟩, fun h => ?_⟩
    · cases h
      rfl
    · rw [h.2]
      rfl
  | cons g goals ih =>
    unfold encodeGoals at ih ⊢
    rw [List.mapM_cons]
    cases hg : g.asFact with
    | error e =>
      refine ⟨nofun, fun h => ?_⟩
      obtain ⟨f, hf⟩ := h.1 g (List.mem_cons_self ..)
      rw [hg] at hf
      cases hf
    | ok f =>
      have hcons : encodable (g :: goals) = f :: encodable goals := by
        simp [encodable, hg, Except.toOption]
      have hgoal : g.Encodable := ⟨f, hg⟩
      rw [hcons, List.forall_mem_cons]
      cases hrest : goals.mapM Value.asFact with
      | error e =>
        refine ⟨nofun, fun h => ?_⟩
        have hok := ih.2 ⟨h.1.2, rfl⟩
        rw [hrest] at hok
        cases hok
      | ok gs =>
        obtain ⟨hgoals, rfl⟩ := ih.1 hrest
        refine ⟨fun h => ?_, fun h => ?_⟩
        · cases h
          exact ⟨⟨hgoal, hgoals⟩, rfl⟩
        · rw [h.2]
          rfl

namespace Query

variable {shapeLaws : Bool} {m : Model} {τ : Tensors shapeLaws}

/-- All that the encodings of facts reach. -/
def reached (facts : List Value) : List Reached := facts.flatMap Value.reachedAsFact

/-- The encoder of the premises keeps track of what the facts reach. -/
theorem tracks_assume (shapeLaws : Bool) (facts : List Value) :
    (assume shapeLaws facts).2.Tracks (reached facts) := by
  have hrun := (Encoder.tracks_start shapeLaws).reachAll (reached facts)
  exact ⟨hrun.ranks, hrun.dims, hrun.laws⟩

@[simp] theorem shapeLaws_assume (facts : List Value) :
    (assume shapeLaws facts).2.shapeLaws = shapeLaws :=
  (Encoder.start shapeLaws).shapeLaws_reachAll (reached facts)

/-- The obligations of the premises have been taken. -/
@[simp] theorem obligations_assume (facts : List Value) :
    (assume shapeLaws facts).2.obligations = [] := rfl

/-- Encoded facts are true where the facts hold. -/
theorem satisfies_encodable_iff_holds {facts : List Value}
    (hagree : ∀ x ∈ reached facts, x.Agree m τ.tensor) :
    m.Satisfies (encodable facts) ↔ ∀ v ∈ facts, v.Encodable → v.Holds τ.data := by
  have hfact : ∀ v ∈ facts, ∀ f, v.asFact = .ok f → (v.Holds τ.data ↔ f.eval m = true) :=
    fun v hv f hf => Value.holds_iff_of_asFact hf fun x hx =>
      hagree x (List.mem_flatMap.2 ⟨v, hv, hx⟩)
  rw [satisfies_encodable_iff]
  constructor
  · rintro h v hv ⟨f, hf⟩
    exact (hfact v hv f hf).2 (h v hv f hf)
  · intro h v hv f hf
    exact (hfact v hv f hf).1 (h v hv ⟨f, hf⟩)

/-- A run over facts hands out obligations that say that their axes are there, provided that those
known before are. -/
theorem satisfies_obligations_iff {enc : Encoder} {l : List Reached} {facts : List Value}
    (htracks : enc.Tracks l) (hlaws : enc.shapeLaws = shapeLaws) (hnone : enc.obligations = [])
    (hknown : shapeLaws = true → ∀ a, .dim a ∈ l → a.Within τ.tensor)
    (hagree : ∀ x ∈ reached facts, x.Agree m τ.tensor) :
    m.Satisfies (enc.reachAll (reached facts)).obligations ↔
      (shapeLaws = true → ∀ v ∈ facts, ∀ a, .dim a ∈ v.reachedAsFact → a.Within τ.tensor) := by
  rw [Encoder.satisfies_obligations_reachAll, hlaws, hnone]
  constructor
  · rintro ⟨-, h⟩ hon v hv a ha
    have hmem : .dim a ∈ reached facts := List.mem_flatMap.2 ⟨v, hv, ha⟩
    by_cases hold : enc.dims.contains a = true
    · exact hknown hon a ((htracks.dims a).1 hold)
    · exact (Encoder.satisfies_axisObligations_iff (hagree _ hmem)).1 (h hon a hmem hold)
  · refine fun h => ⟨by simp [Model.Satisfies], fun hon a ha _ => ?_⟩
    obtain ⟨v, hv, hav⟩ := List.mem_flatMap.1 ha
    exact (Encoder.satisfies_axisObligations_iff (hagree _ ha)).2 (h hon v hv a hav)

/-- The premises of a question are true where the facts are met. -/
theorem satisfies_assume_iff {facts : List Value}
    (hagree : ∀ x ∈ reached facts, x.Agree m τ.tensor) :
    m.Satisfies (assume shapeLaws facts).1 ↔ τ.Meets facts := by
  have hobligations := satisfies_obligations_iff (Encoder.tracks_start shapeLaws) rfl rfl
    (fun _ a ha => nomatch ha) hagree
  calc m.Satisfies (assume shapeLaws facts).1
      ↔ m.Satisfies (encodable facts) ∧
          m.Satisfies ((Encoder.start shapeLaws).reachAll (reached facts)).obligations :=
        Model.satisfies_append
    _ ↔ τ.Meets facts := by
        rw [satisfies_encodable_iff_holds hagree, hobligations]
        exact ⟨fun h => ⟨h.1, h.2⟩, fun h => ⟨h.holds, h.within⟩⟩

/-- Where the assumptions are met, the goals of a question with their own obligations are true if
and only if the goals are satisfied. -/
theorem satisfies_goals_iff {assumptions goals : List Value} (hgoals : ∀ g ∈ goals, g.Encodable)
    (hmeets : τ.Meets assumptions) (hagree : ∀ x ∈ reached goals, x.Agree m τ.tensor) :
    m.Satisfies (encodable goals ++
        ((assume shapeLaws assumptions).2.reachAll (reached goals)).obligations) ↔
      ∀ g ∈ goals, τ.Satisfies g := by
  have hknown : shapeLaws = true → ∀ a, .dim a ∈ reached assumptions → a.Within τ.tensor := by
    intro hlaws a ha
    obtain ⟨v, hv, hav⟩ := List.mem_flatMap.1 ha
    exact hmeets.within hlaws v hv a hav
  rw [Model.satisfies_append, satisfies_encodable_iff_holds hagree,
    satisfies_obligations_iff (tracks_assume shapeLaws assumptions) (shapeLaws_assume assumptions)
      (obligations_assume assumptions) hknown hagree,
    ← Tensors.meets_iff hgoals]
  exact ⟨fun h => ⟨h.1, h.2⟩, fun h => ⟨h.holds, h.within⟩⟩

/-! ### Models of a question -/

/-- The facts can be put to the solver as formulas with a model if and only if some tensors meet
them. -/
theorem satisfiable_consistency_iff (shapeLaws : Bool) (facts : List Value) :
    (∃ m : Model, m.Satisfies (consistency shapeLaws facts).assertions) ↔
      ∃ τ : Tensors shapeLaws, τ.Meets facts := by
  rw [← Tensors.exists_model_iff fun m τ hagree => satisfies_assume_iff hagree]
  refine exists_congr fun m => ?_
  have hlaws := (tracks_assume shapeLaws facts).laws m
  rw [shapeLaws_assume] at hlaws
  simp only [assertions, background, consistency, List.append_nil, Model.satisfies_append, hlaws]

/-- A question whose goals can all be encoded can be asked. -/
theorem entailment_of_encodable (shapeLaws : Bool) (assumptions : List Value) {goals : List Value}
    (hgoals : ∀ g ∈ goals, g.Encodable) :
    entailment shapeLaws assumptions goals = .ok
      { premises := (assume shapeLaws assumptions).1
        goals := some (encodable goals ++
          ((assume shapeLaws assumptions).2.reachAll (reached goals)).obligations)
        encoder := ((assume shapeLaws assumptions).2.reachAll (reached goals)).takeObligations.2 } := by
  unfold entailment
  rw [encodeGoals_eq_ok_iff.2 ⟨hgoals, rfl⟩]
  rfl

/-- One goal that cannot be encoded is an error of the question. -/
theorem entailment_of_not_encodable (shapeLaws : Bool) (assumptions : List Value)
    {goals : List Value} (hgoals : ¬∀ g ∈ goals, g.Encodable) :
    ∃ e, entailment shapeLaws assumptions goals = .error e := by
  unfold entailment
  cases hencode : encodeGoals goals with
  | ok fs => exact absurd (encodeGoals_eq_ok_iff.1 hencode).1 hgoals
  | error e => exact ⟨e, rfl⟩

/-- The assumptions and the failure of a goal have a model if and only if some tensors meet the
assumptions and miss a goal. -/
theorem satisfiable_entailment_iff {assumptions goals : List Value} {q : Query}
    (hgoals : ∀ g ∈ goals, g.Encodable) (hq : entailment shapeLaws assumptions goals = .ok q) :
    (∃ m : Model, m.Satisfies q.assertions) ↔
      ∃ τ : Tensors shapeLaws, τ.Meets assumptions ∧ ¬∀ g ∈ goals, τ.Satisfies g := by
  rw [entailment_of_encodable shapeLaws assumptions hgoals] at hq
  cases hq
  -- What the question speaks of: all that the assumptions reach, and then the goals.
  have htruth : ∀ (m : Model) (τ : Tensors shapeLaws),
      (∀ x ∈ reached assumptions ++ reached goals, x.Agree m τ.tensor) →
      (m.Satisfies (assume shapeLaws assumptions).1 ∧ ¬m.Satisfies (encodable goals ++
          ((assume shapeLaws assumptions).2.reachAll (reached goals)).obligations) ↔
        τ.Meets assumptions ∧ ¬∀ g ∈ goals, τ.Satisfies g) := by
    intro m τ hagree
    rw [List.forall_mem_append] at hagree
    rw [satisfies_assume_iff hagree.1]
    exact and_congr_right fun hmeets => not_congr (satisfies_goals_iff hgoals hmeets hagree.2)
  rw [← Tensors.exists_model_iff htruth]
  refine exists_congr fun m => ?_
  have hlaws := ((tracks_assume shapeLaws assumptions).reachAll (reached goals)).laws m
  rw [Encoder.shapeLaws_reachAll, shapeLaws_assume] at hlaws
  simp only [assertions, background, Encoder.takeObligations, Model.satisfies_append,
    Model.satisfies_singleton, Formula.eval_not_iff, Formula.eval_conj_iff, hlaws]
  exact and_right_comm

end Query

/-! ## Answers -/

/-- Tensors that satisfy the assumptions satisfy the goals. -/
def Entails (shapeLaws : Bool) (assumptions goals : List Value) : Prop :=
  ∀ τ : Tensors shapeLaws, (∀ v ∈ assumptions, τ.Satisfies v) → ∀ g ∈ goals, τ.Satisfies g

/-- Tensors that meet the assumptions, encodable or not, satisfy the goals. -/
def Follows (shapeLaws : Bool) (assumptions goals : List Value) : Prop :=
  ∀ τ : Tensors shapeLaws, τ.Meets assumptions → ∀ g ∈ goals, τ.Satisfies g

/-- Where all assumptions can be encoded, to follow from them is to be entailed by them. -/
theorem follows_iff_entails {shapeLaws : Bool} {assumptions goals : List Value}
    (h : ∀ v ∈ assumptions, v.Encodable) :
    Follows shapeLaws assumptions goals ↔ Entails shapeLaws assumptions goals :=
  forall_congr' fun τ => by rw [τ.meets_iff h]

/-- Some tensors satisfy all facts. -/
def Satisfiable (shapeLaws : Bool) (facts : List Value) : Prop :=
  ∃ τ : Tensors shapeLaws, ∀ v ∈ facts, τ.Satisfies v

/-- Where all facts can be encoded, they can be met if they are satisfiable. -/
theorem exists_meets_iff_satisfiable {shapeLaws : Bool} {facts : List Value}
    (h : ∀ v ∈ facts, v.Encodable) :
    (∃ τ : Tensors shapeLaws, τ.Meets facts) ↔ Satisfiable shapeLaws facts :=
  exists_congr fun τ => τ.meets_iff h

/-- A verdict without its witness or reason. -/
inductive Verdict.Kind where
  | verified
  | counterexample
  | inconclusive
deriving DecidableEq

def Verdict.kind : Verdict → Verdict.Kind
  | .verified => .verified
  | .counterexample _ => .counterexample
  | .inconclusive _ => .inconclusive

/-- An answer about consistency without its witness or reason. -/
inductive Consistency.Kind where
  | consistent
  | contradictory
  | unknown
deriving DecidableEq

def Consistency.kind : Consistency → Consistency.Kind
  | .consistent _ => .consistent
  | .contradictory => .contradictory
  | .unknown _ => .unknown

namespace Verifier

variable {solver : Solver} {shapeLaws : Bool} {assumptions goals facts : List Value}

/-- The verdict on a question that can be asked is the answer of the solver to it. -/
theorem outcome_verify_of_ok {q : Query}
    (hq : Query.entailment shapeLaws assumptions goals = .ok q) :
    (verify ⟨some solver, shapeLaws⟩ assumptions goals).outcome = .ok
      (match solver q.assertions with
        | .unsat => .verified
        | .sat model? => .counterexample ((model?.map q.encoder.witness).getD .empty)
        | .unknown reason? => .inconclusive (reasonOf reason?)) := by
  simp only [verify, hq, ask, Report.outcome_bind, Report.outcome_logAll, Report.outcome_log,
    Report.outcome_pure]
  cases solver q.assertions with
  | sat model? => cases model? <;> rfl
  | unsat => rfl
  | unknown reason? => rfl

/-- A goal that cannot be encoded leaves the question open. -/
theorem verify_of_not_encodable (hgoals : ¬∀ g ∈ goals, g.Encodable) :
    ∃ reason, (verify ⟨some solver, shapeLaws⟩ assumptions goals).outcome =
      .ok (.inconclusive reason) := by
  obtain ⟨e, he⟩ := Query.entailment_of_not_encodable shapeLaws assumptions hgoals
  exact ⟨e.message, by simp only [verify, he]; rfl⟩

/-- Goals that follow are verified. -/
theorem verify_of_follows (hsolver : solver.Decides) (hgoals : ∀ g ∈ goals, g.Encodable)
    (h : Follows shapeLaws assumptions goals) :
    (verify ⟨some solver, shapeLaws⟩ assumptions goals).outcome = .ok .verified := by
  have hq := Query.entailment_of_encodable shapeLaws assumptions hgoals
  rw [outcome_verify_of_ok hq]
  have hunsat := (hsolver.unsat_iff).2 fun hmodel => by
    obtain ⟨τ, hmeets, hmiss⟩ := (Query.satisfiable_entailment_iff hgoals hq).1 hmodel
    exact hmiss (h τ hmeets)
  rw [hunsat]

/-- Goals that do not follow have a counterexample. -/
theorem verify_of_not_follows (hsolver : solver.Decides) (hgoals : ∀ g ∈ goals, g.Encodable)
    (h : ¬Follows shapeLaws assumptions goals) :
    ∃ w, (verify ⟨some solver, shapeLaws⟩ assumptions goals).outcome =
      .ok (.counterexample w) := by
  have hq := Query.entailment_of_encodable shapeLaws assumptions hgoals
  rw [outcome_verify_of_ok hq]
  have hmodel := (Query.satisfiable_entailment_iff hgoals hq).2 <| by
    obtain ⟨τ, hτ⟩ := Classical.not_forall.1 h
    exact ⟨τ, Classical.not_imp.1 hτ⟩
  obtain ⟨model?, hsat⟩ := hsolver.sat_iff.2 hmodel
  rw [hsat]
  exact ⟨_, rfl⟩

/-- The answer about facts is the answer of the solver to their question. -/
theorem outcome_checkConsistency :
    (checkConsistency ⟨some solver, shapeLaws⟩ facts).outcome = .ok
      (match solver (Query.consistency shapeLaws facts).assertions with
        | .unsat => .contradictory
        | .sat model? => .consistent
          ((model?.map (Query.consistency shapeLaws facts).encoder.witness).getD .empty)
        | .unknown reason? => .unknown (reasonOf reason?)) := by
  simp only [checkConsistency, ask, Report.outcome_bind, Report.outcome_logAll, Report.outcome_log,
    Report.outcome_pure]
  cases solver (Query.consistency shapeLaws facts).assertions with
  | sat model? => cases model? <;> rfl
  | unsat => rfl
  | unknown reason? => rfl

/-- Facts that can be met are consistent. -/
theorem checkConsistency_of_meets (hsolver : solver.Decides)
    (h : ∃ τ : Tensors shapeLaws, τ.Meets facts) :
    ∃ w, (checkConsistency ⟨some solver, shapeLaws⟩ facts).outcome = .ok (.consistent w) := by
  have hmodel := (Query.satisfiable_consistency_iff shapeLaws facts).2 h
  obtain ⟨model?, hsat⟩ := hsolver.sat_iff.2 hmodel
  rw [outcome_checkConsistency, hsat]
  exact ⟨_, rfl⟩

/-- Facts that cannot be met are contradictory. -/
theorem checkConsistency_of_not_meets (hsolver : solver.Decides)
    (h : ¬∃ τ : Tensors shapeLaws, τ.Meets facts) :
    (checkConsistency ⟨some solver, shapeLaws⟩ facts).outcome = .ok .contradictory := by
  rw [← Query.satisfiable_consistency_iff] at h
  rw [outcome_checkConsistency, hsolver.unsat_iff.2 h]

/-! ### Kinds of answers -/

/-- The kind of verdict on a question, if there is one. -/
def verdictKind (v : Verifier) (assumptions goals : List Value) : Except Error Verdict.Kind :=
  (v.verify assumptions goals).outcome.map Verdict.kind

/-- The kind of answer about facts, if there is one. -/
def consistencyKind (v : Verifier) (facts : List Value) : Except Error Consistency.Kind :=
  (v.checkConsistency facts).outcome.map Consistency.kind

open Classical in
/-- With a solver that decides, the kind of a verdict is a matter of tensors. -/
theorem verdictKind_eq (hsolver : solver.Decides) (shapeLaws : Bool)
    (assumptions goals : List Value) :
    verdictKind ⟨some solver, shapeLaws⟩ assumptions goals = .ok
      (if ∀ g ∈ goals, g.Encodable then
        if Follows shapeLaws assumptions goals then .verified else .counterexample
      else .inconclusive) := by
  unfold verdictKind
  split
  · next hgoals =>
    split
    · next hfollows =>
      rw [verify_of_follows hsolver hgoals hfollows]
      rfl
    · next hfollows =>
      obtain ⟨w, hw⟩ := verify_of_not_follows hsolver hgoals hfollows
      rw [hw]
      rfl
  · next hgoals =>
    obtain ⟨reason, hreason⟩ := verify_of_not_encodable hgoals
    rw [hreason]
    rfl

open Classical in
/-- With a solver that decides, the kind of an answer about facts is a matter of tensors. -/
theorem consistencyKind_eq (hsolver : solver.Decides) (shapeLaws : Bool) (facts : List Value) :
    consistencyKind ⟨some solver, shapeLaws⟩ facts = .ok
      (if ∃ τ : Tensors shapeLaws, τ.Meets facts then .consistent else .contradictory) := by
  unfold consistencyKind
  split
  · next hmeets =>
    obtain ⟨w, hw⟩ := checkConsistency_of_meets hsolver hmeets
    rw [hw]
    rfl
  · next hmeets =>
    rw [checkConsistency_of_not_meets hsolver hmeets]
    rfl

/-! ### Entailment -/

/-- With a solver that decides, a question gets an answer, and it is the right one: assumptions that
can be encoded entail the goals over all tensors, or they do not, or a goal cannot be encoded. -/
theorem verify_decides_entailment (hsolver : solver.Decides) (shapeLaws : Bool)
    (hassumptions : ∀ v ∈ assumptions, v.Encodable) (goals : List Value) :
    ∃ verdict, (verify ⟨some solver, shapeLaws⟩ assumptions goals).outcome = .ok verdict ∧
      ((∃ reason, verdict = .inconclusive reason) ↔ ∃ g ∈ goals, ¬g.Encodable) ∧
      (verdict = .verified ↔
        (∀ g ∈ goals, g.Encodable) ∧ Entails shapeLaws assumptions goals) ∧
      ((∃ w, verdict = .counterexample w) ↔
        (∀ g ∈ goals, g.Encodable) ∧ ¬Entails shapeLaws assumptions goals) := by
  rw [← follows_iff_entails hassumptions]
  have hopen : (∃ g ∈ goals, ¬g.Encodable) ↔ ¬∀ g ∈ goals, g.Encodable := by simp
  rw [hopen]
  by_cases hgoals : ∀ g ∈ goals, g.Encodable
  · by_cases hfollows : Follows shapeLaws assumptions goals
    · have hok := verify_of_follows hsolver hgoals hfollows
      refine ⟨.verified, hok, ⟨?_, fun h => absurd hgoals h⟩, ⟨fun _ => ⟨hgoals, hfollows⟩, ?_⟩,
        ⟨?_, fun h => absurd hfollows h.2⟩⟩
      · rintro ⟨reason, ⟨⟩⟩
      · exact fun _ => rfl
      · rintro ⟨w, ⟨⟩⟩
    · obtain ⟨w, hok⟩ := verify_of_not_follows hsolver hgoals hfollows
      refine ⟨.counterexample w, hok, ⟨?_, fun h => absurd hgoals h⟩,
        ⟨nofun, fun h => absurd h.2 hfollows⟩, ⟨fun _ => ⟨hgoals, hfollows⟩, fun _ => ⟨w, rfl⟩⟩⟩
      rintro ⟨reason, ⟨⟩⟩
  · obtain ⟨reason, hok⟩ := verify_of_not_encodable hgoals
    refine ⟨.inconclusive reason, hok, ⟨fun _ => hgoals, fun _ => ⟨reason, rfl⟩⟩,
      ⟨nofun, fun h => absurd h.1 hgoals⟩, ⟨?_, fun h => absurd h.1 hgoals⟩⟩
    rintro ⟨w, ⟨⟩⟩

/-- If it is as true that a tensor has two axes as that zero is zero, then its last axis is there to
be compared with itself. -/
theorem verify_axis_of_rank_two :
    Solver.ideal.Decides ∧
    (verify ⟨some Solver.ideal, true⟩
      [.equals (.equals (.rankOf "%x") (.int 2)) (.equals (.int 0) (.int 0))]
      [.equals (.dimOf 1 "%x") (.dimOf 1 "%x")]).outcome = .ok .verified := by
  have hassumptions : ∀ v ∈ [Value.equals (.equals (.rankOf "%x") (.int 2))
      (.equals (.int 0) (.int 0))], v.Encodable := by
    rw [List.forall_mem_singleton]
    exact ⟨_, rfl⟩
  obtain ⟨verdict, hok, -, hverified, -⟩ := verify_decides_entailment Solver.ideal_decides true
    hassumptions [.equals (.dimOf 1 "%x") (.dimOf 1 "%x")]
  refine ⟨Solver.ideal_decides, ?_⟩
  rw [hok, hverified.2]
  refine ⟨?_, fun τ hτ => ?_⟩
  · rw [List.forall_mem_singleton]
    exact ⟨_, rfl⟩
  · rw [List.forall_mem_singleton] at hτ ⊢
    have hrank : (τ.tensor "%x").rank = 2 := by
      simpa [Value.Holds, Value.denote, Tensors.data] using hτ.holds
    refine ⟨by simp [Value.Holds, Value.denote, Tensors.data], fun _ a ha => ?_⟩
    obtain rfl : a = ⟨"%x", 1⟩ := by simpa [Value.axes] using ha
    rw [Axis.Within, hrank]
    decide

/-! ### Satisfiability -/

/-- With a solver that decides, a question about facts that can be encoded gets an answer, and it is
the right one: the facts cannot hold together if and only if no tensors satisfy them. -/
theorem checkConsistency_decides_satisfiability (hsolver : solver.Decides) (shapeLaws : Bool)
    (hfacts : ∀ v ∈ facts, v.Encodable) :
    ∃ answer, (checkConsistency ⟨some solver, shapeLaws⟩ facts).outcome = .ok answer ∧
      (answer = .contradictory ↔ ¬Satisfiable shapeLaws facts) ∧
      ((∃ w, answer = .consistent w) ↔ Satisfiable shapeLaws facts) := by
  rw [← exists_meets_iff_satisfiable hfacts]
  by_cases hmeets : ∃ τ : Tensors shapeLaws, τ.Meets facts
  · obtain ⟨w, hok⟩ := checkConsistency_of_meets hsolver hmeets
    exact ⟨.consistent w, hok, ⟨nofun, fun h => absurd hmeets h⟩,
      ⟨fun _ => hmeets, fun _ => ⟨w, rfl⟩⟩⟩
  · have hok := checkConsistency_of_not_meets hsolver hmeets
    refine ⟨.contradictory, hok, ⟨fun _ => hmeets, fun _ => rfl⟩, ⟨?_, fun h => absurd h hmeets⟩⟩
    rintro ⟨w, ⟨⟩⟩

/-- It is as true that `%x` is a vector as that zero is zero, and its extent along axis 1 is what it
is. The name of the register has a NUL character in the first fact, and is the same for all that. -/
def secondAxisOfVector : List Value :=
  [.equals (.equals (.rankOf "%x\x00") (.int 1)) (.equals (.int 0) (.int 0)),
    .equals (.dimOf 1 "%x") (.dimOf 1 "%x")]

/-- A vector has no axis 1. With the laws of shapes off, nobody asks. -/
theorem checkConsistency_secondAxisOfVector :
    Solver.ideal.Decides ∧ (∀ v ∈ secondAxisOfVector, v.Encodable) ∧
    (checkConsistency ⟨some Solver.ideal, true⟩ secondAxisOfVector).outcome = .ok .contradictory ∧
    ∃ w, (checkConsistency ⟨some Solver.ideal, false⟩ secondAxisOfVector).outcome =
      .ok (.consistent w) := by
  have hfacts : ∀ v ∈ secondAxisOfVector, v.Encodable := by
    simp only [secondAxisOfVector, List.forall_mem_cons]
    exact ⟨⟨_, rfl⟩, ⟨_, rfl⟩, by simp⟩
  refine ⟨Solver.ideal_decides, hfacts, ?_, ?_⟩
  · obtain ⟨answer, hok, hcontradictory, -⟩ :=
      checkConsistency_decides_satisfiability Solver.ideal_decides true hfacts
    rw [hok, hcontradictory.2]
    rintro ⟨τ, hτ⟩
    simp only [secondAxisOfVector, List.forall_mem_cons] at hτ
    have hname : Symbol.ofName "%x\x00" = Symbol.ofName "%x" := by decide
    have hrank : (τ.tensor "%x").rank = 1 := by
      simpa [Value.Holds, Value.denote, Tensors.data, τ.tensor_congr hname] using hτ.1.holds
    have hwithin : Axis.Within τ.tensor ⟨"%x", 1⟩ := hτ.2.1.within rfl _ (by simp [Value.axes])
    rw [Axis.Within, hrank] at hwithin
    exact absurd hwithin.2 (by decide)
  · obtain ⟨answer, hok, -, hconsistent⟩ :=
      checkConsistency_decides_satisfiability Solver.ideal_decides false hfacts
    obtain ⟨w, rfl⟩ := hconsistent.2 <| by
      refine ⟨.empties false 1, ?_⟩
      simp only [secondAxisOfVector, List.forall_mem_cons]
      exact ⟨⟨by simp [Value.Holds, Value.denote, Tensors.data, Tensors.empties], by simp⟩,
        ⟨by simp [Value.Holds, Value.denote, Tensors.data], by simp⟩, by simp⟩
    exact ⟨w, hok⟩

end Verifier

end TensorShape
