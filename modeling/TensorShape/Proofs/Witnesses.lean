import TensorShape.Proofs.Translation

/-!
# TensorShape.Proofs.Witnesses

Witnesses are complete and true to the model.

All that is asserted for a question is made in place by one translator, and the witness in the answer
is read out of its tables.

* `Translator.run_consistency`, `Translator.run_entailment`: what is made in place is the question,
  and the tables hold what the facts, dropped or not, and the goals have reached;
* `Encoder.readsOut_witness`: a witness has an entry for each rank and dimension that was reached and
  is a word, and the entry is its value;
* `Witness.ReadsOut.proper`, `Witness.ReadsOut.axesWithin`: what the laws and the obligations make of
  the entries, which are about the same ranks and dimensions.
-/

namespace TensorShape

/-! ## Questions in place -/

theorem Query.reached_cons (v : Value) (l : List Value) :
    reached (v :: l) = v.reachedAsFact ++ reached l := rfl

theorem encodable_cons (v : Value) (l : List Value) :
    encodable (v :: l) = v.asFact.toOption.toList ++ encodable l := by
  cases h : v.asFact.toOption <;> simp [encodable, h]

namespace Translator

/-- A fact that fails is dropped, but not what it has reached. -/
theorem run_attempt (enc : Encoder) (v : Value) :
    (try some <$> fact v catch _ => pure none : Action (Option Formula)).run (filled enc) =
      .ok v.asFact.toOption (filled (enc.reachAll v.reachedAsFact)) := by
  have hfact : fact v (filled enc) = ended (enc.fact v) := run_fact enc v
  simp only [EStateM.run, tryCatch, tryCatchThe, MonadExceptOf.tryCatch, EStateM.tryCatch, Functor.map,
    EStateM.map, hfact, Encoder.fact]
  cases v.asFact <;> rfl

/-- Facts are put together in place: those that can be encoded, and all that was reached. -/
theorem run_facts (l : List Value) (enc : Encoder) :
    (facts l).run (filled enc) = .ok (encodable l) (filled (enc.reachAll (Query.reached l))) := by
  induction l generalizing enc with
  | nil => rfl
  | cons v l ih =>
    unfold facts
    rw [EStateM.run_bind, run_attempt]
    simp only [EStateM.run_bind, ih, EStateM.run_pure]
    rw [Query.reached_cons, Encoder.reachAll_append, encodable_cons]

/-- Goals that can be encoded are put together in place. -/
theorem run_mapM_fact {goals : List Value} (h : ∀ g ∈ goals, g.Encodable) (enc : Encoder) :
    (goals.mapM fact).run (filled enc) =
      .ok (encodable goals) (filled (enc.reachAll (Query.reached goals))) := by
  induction goals generalizing enc with
  | nil => rfl
  | cons g goals ih =>
    rw [List.forall_mem_cons] at h
    obtain ⟨f, hf⟩ := h.1
    rw [List.mapM_cons, EStateM.run_bind, run_fact, Encoder.fact, hf]
    simp only [ended, EStateM.run_bind, ih h.2, EStateM.run_pure]
    rw [Query.reached_cons, Encoder.reachAll_append, encodable_cons, hf]
    rfl

theorem run_assume (shapeLaws : Bool) (l : List Value) :
    (assume l).run (start shapeLaws) =
      .ok (Query.assume shapeLaws l).1 (filled (Query.assume shapeLaws l).2) := by
  unfold assume
  rw [← filled_start, EStateM.run_bind, run_facts]
  rfl

/-- A question about facts is put together in place. -/
theorem run_consistency (shapeLaws : Bool) (l : List Value) :
    (consistency l).run (start shapeLaws) =
      .ok (Query.consistency shapeLaws l).assertions
        (filled (Query.consistency shapeLaws l).encoder) := by
  have hasserted : (Query.consistency shapeLaws l).assertions =
      (Query.assume shapeLaws l).1 ++ (Query.assume shapeLaws l).2.laws := List.append_nil _
  unfold consistency
  rw [EStateM.run_bind, run_assume, hasserted]
  rfl

/-- A question about goals is put together in place, if they can be encoded. -/
theorem run_entailment {shapeLaws : Bool} {assumptions goals : List Value} {q : Query}
    (hq : Query.entailment shapeLaws assumptions goals = .ok q) (h : ∀ g ∈ goals, g.Encodable) :
    (entailment assumptions goals).run (start shapeLaws) = .ok q.assertions (filled q.encoder) := by
  rw [Query.entailment_of_encodable shapeLaws assumptions h] at hq
  cases hq
  unfold entailment
  rw [EStateM.run_bind, run_assume]
  simp only [EStateM.run_bind, run_mapM_fact h]
  rfl

/-- A witness can be read out of the tables in place. -/
theorem witness_filled (enc : Encoder) : (filled enc).witness = enc.witness := by
  funext m
  simp only [witness, Encoder.witness, filled, Memo.filled, Table.values, Table.keys,
    Table.entries_fill, List.map_map, List.filterMap_map]
  rfl

end Translator

/-! ## What witnesses say -/

namespace Witness

/-- The witness has an entry for each rank and each dimension that was reached and is a word in the
model, and no others. Every entry is the value in the model. -/
structure ReadsOut (w : Witness) (l : List Reached) (m : Model) : Prop where
  isSome_rank?_iff : ∀ r, (w.rank? r).isSome = true ↔
    (∃ x ∈ l, x.register = r) ∧ IsWord ((rankTerm r).eval m)
  isSome_dim?_iff : ∀ r k, (w.dim? r k).isSome = true ↔
    .dim ⟨r, k⟩ ∈ l ∧ IsWord ((dimTerm ⟨r, k⟩).eval m)
  toInt_rank : ∀ {r n}, w.rank? r = some n → n.toInt = (rankTerm r).eval m
  toInt_dim : ∀ {r k n}, w.dim? r k = some n → n.toInt = (dimTerm ⟨r, k⟩).eval m

/-- No entry is negative. -/
structure Proper (w : Witness) : Prop where
  rank_nonneg : ∀ {r n}, w.rank? r = some n → 0 ≤ n.toInt
  dim_nonneg : ∀ {r k n}, w.dim? r k = some n → 0 ≤ n.toInt

/-- The axes that have an entry are there, as far as the rank of their tensor has one. -/
def AxesWithin (w : Witness) : Prop :=
  ∀ r k, (w.dim? r k).isSome = true →
    0 ≤ k.toInt ∧ ∀ n, w.rank? r = some n → k.toInt < n.toInt

end Witness

namespace Encoder

variable {enc : Encoder} {l : List Reached} {m : Model}

/-- A witness gives the rank of each register of which anything was reached, if it is a word. -/
theorem rank?_witness_iff (htracks : enc.Tracks l) (m : Model) (r : Register) (n : Int64) :
    (enc.witness m).rank? r = some n ↔
      (∃ x ∈ l, x.register = r) ∧ word? ((rankTerm r).eval m) = some n := by
  rw [← htracks.ranks, Table.contains, ← Table.mem_keys_iff]
  exact Table.get?_ofList_filterMap_iff enc.ranks.keys (fun r => word? ((rankTerm r).eval m)) r n

/-- A witness gives each extent that was reached, if it is a word. -/
theorem dim?_witness_iff (htracks : enc.Tracks l) (m : Model) (r : Register) (k n : Int64) :
    (enc.witness m).dim? r k = some n ↔
      .dim ⟨r, k⟩ ∈ l ∧ word? ((dimTerm ⟨r, k⟩).eval m) = some n := by
  rw [← htracks.dims, Table.contains, ← Table.mem_keys_iff]
  exact Table.get?_ofList_filterMap_iff enc.dims.keys (fun a => word? ((dimTerm a).eval m)) ⟨r, k⟩ n

/-- A witness has all that was reached, with the values of the model. -/
theorem readsOut_witness (htracks : enc.Tracks l) (m : Model) : (enc.witness m).ReadsOut l m where
  isSome_rank?_iff r := by
    rw [← isSome_word?_iff, Option.isSome_iff_exists, Option.isSome_iff_exists]
    simp only [rank?_witness_iff htracks, exists_and_left]
  isSome_dim?_iff r k := by
    rw [← isSome_word?_iff, Option.isSome_iff_exists, Option.isSome_iff_exists]
    simp only [dim?_witness_iff htracks, exists_and_left]
  toInt_rank h := toInt_of_word? ((rank?_witness_iff htracks ..).1 h).2
  toInt_dim h := toInt_of_word? ((dim?_witness_iff htracks ..).1 h).2

end Encoder

namespace Witness.ReadsOut

variable {w : Witness} {l : List Reached} {m : Model}

/-- Where the laws hold of what was reached, no entry is negative. -/
theorem proper (h : w.ReadsOut l m) (hlawful : ∀ x ∈ l, x.Lawful m) : w.Proper where
  rank_nonneg {r n} hr := by
    obtain ⟨⟨x, hx, hxr⟩, -⟩ := (h.isSome_rank?_iff r).1 (by rw [hr]; rfl)
    rw [h.toInt_rank hr, ← hxr]
    exact (hlawful x hx).rank_nonneg
  dim_nonneg {r k n} hd := by
    obtain ⟨hmem, -⟩ := (h.isSome_dim?_iff r k).1 (by rw [hd]; rfl)
    rw [h.toInt_dim hd]
    exact (hlawful _ hmem).2

/-- Where the obligations hold of what was reached, the axes are there. -/
theorem axesWithin (h : w.ReadsOut l m)
    (hobligations : ∀ a, .dim a ∈ l → m.Satisfies (Encoder.axisObligations a)) :
    w.AxesWithin := by
  intro r k hk
  obtain ⟨hmem, -⟩ := (h.isSome_dim?_iff r k).1 hk
  have hagree := Tensors.agree_ofModel_false m (.dim ⟨r, k⟩)
  obtain ⟨hnonneg, hlt⟩ := (Encoder.satisfies_axisObligations_iff hagree).1 (hobligations _ hmem)
  refine ⟨hnonneg, fun n hn => ?_⟩
  rw [h.toInt_rank hn, hagree.1]
  exact hlt

end Witness.ReadsOut

/-! ## Witnesses of questions -/

namespace Query

variable {shapeLaws : Bool} {m : Model}

/-- What facts reach is what their parts reach, up to the first that is refused. -/
theorem reached_eq (l : List Value) :
    reached l = l.flatMap fun v => v.accepted.filterMap Value.reached? :=
  congrArg l.flatMap (funext Value.reachedAsFact_eq)

/-- The encoder of a question keeps track of what assumptions and goals reach. -/
theorem tracks_entailment {assumptions goals : List Value} {q : Query}
    (hgoals : ∀ g ∈ goals, g.Encodable) (hq : entailment shapeLaws assumptions goals = .ok q) :
    q.encoder.Tracks (reached (assumptions ++ goals)) := by
  rw [entailment_of_encodable shapeLaws assumptions hgoals] at hq
  cases hq
  have hreached : reached (assumptions ++ goals) = reached assumptions ++ reached goals :=
    List.flatMap_append
  have hrun := (tracks_assume shapeLaws assumptions).reachAll (reached goals)
  rw [hreached]
  exact ⟨hrun.ranks, hrun.dims, hrun.laws⟩

theorem shapeLaws_entailment {assumptions goals : List Value} {q : Query}
    (hgoals : ∀ g ∈ goals, g.Encodable) (hq : entailment shapeLaws assumptions goals = .ok q) :
    q.encoder.shapeLaws = shapeLaws := by
  rw [entailment_of_encodable shapeLaws assumptions hgoals] at hq
  cases hq
  exact (Encoder.shapeLaws_reachAll ..).trans (shapeLaws_assume assumptions)

/-- In a model of all that is asserted, the laws hold of what was reached. -/
theorem lawful_of_satisfies {q : Query} {l : List Reached} (htracks : q.encoder.Tracks l)
    (hlaws : q.encoder.shapeLaws = true) (hm : m.Satisfies q.assertions) : ∀ x ∈ l, x.Lawful m := by
  have hbackground : m.Satisfies (q.premises ++ q.encoder.laws) :=
    (Model.satisfies_append.1 hm).1
  exact (htracks.laws m).1 (Model.satisfies_append.1 hbackground).2 hlaws

/-- In a model of facts, the axes that they reach are there. -/
theorem satisfies_axisObligations_of_consistency {facts : List Value}
    (hm : m.Satisfies (consistency true facts).assertions) :
    ∀ a, .dim a ∈ reached facts → m.Satisfies (Encoder.axisObligations a) := by
  intro a ha
  have hbackground : m.Satisfies ((assume true facts).1 ++ (assume true facts).2.laws) :=
    (Model.satisfies_append.1 hm).1
  have hobligations : m.Satisfies ((Encoder.start true).reachAll (reached facts)).obligations :=
    (Model.satisfies_append.1 (Model.satisfies_append.1 hbackground).1).2
  rw [Encoder.satisfies_obligations_reachAll] at hobligations
  exact hobligations.2 rfl a ha (by simp [Encoder.start, Table.contains])

end Query

namespace Verifier

variable {solver : Solver} {shapeLaws : Bool} {facts assumptions goals : List Value}

/-- The witness of consistency is read out of the solver's model, and empty without one. -/
theorem checkConsistency_eq_consistent_iff (w : Witness) :
    (checkConsistency ⟨some solver, shapeLaws⟩ facts).outcome = .ok (.consistent w) ↔
      ∃ model?, solver (Query.consistency shapeLaws facts).assertions = .sat model? ∧
        w = (model?.map (Query.consistency shapeLaws facts).encoder.witness).getD .empty := by
  rw [outcome_checkConsistency]
  cases solver (Query.consistency shapeLaws facts).assertions <;> simp [eq_comm]

/-- A counterexample is read out of the solver's model, and empty without one. -/
theorem verify_eq_counterexample_iff {q : Query}
    (hq : Query.entailment shapeLaws assumptions goals = .ok q) (w : Witness) :
    (verify ⟨some solver, shapeLaws⟩ assumptions goals).outcome = .ok (.counterexample w) ↔
      ∃ model?, solver q.assertions = .sat model? ∧
        w = (model?.map q.encoder.witness).getD .empty := by
  rw [outcome_verify_of_ok hq]
  cases solver q.assertions <;> simp [eq_comm]

/-- Witnesses are complete and true to the model. A question is put together in place, and the
witness in the answer is read out of the model that the solver gives for all that is asserted; it is
empty if the solver gives none. In any model of what is asserted, a witness has an entry for each
rank and dimension that was reached, unless the value is no word, and each entry is the value in the
model. With the laws of shapes on no entry is negative and, for facts that are consistent, the axes
are there. -/
theorem witness_exact (solver : Solver) (shapeLaws : Bool) (facts assumptions goals : List Value) :
    (∃ asserted t, (Translator.consistency facts).run (.start shapeLaws) = .ok asserted t ∧
      (∀ w, (checkConsistency ⟨some solver, shapeLaws⟩ facts).outcome = .ok (.consistent w) ↔
        ∃ model?, solver asserted = .sat model? ∧ w = (model?.map t.witness).getD .empty) ∧
      ∀ m : Model, m.Satisfies asserted →
        (t.witness m).ReadsOut (facts.flatMap fun v => v.accepted.filterMap Value.reached?) m ∧
        (shapeLaws = true → (t.witness m).Proper ∧ (t.witness m).AxesWithin)) ∧
    ((∀ g ∈ goals, (∃ k, g = .int k) ∨ g.WellKinded) →
      ∃ asserted t,
        (Translator.entailment assumptions goals).run (.start shapeLaws) = .ok asserted t ∧
        (∀ w, (verify ⟨some solver, shapeLaws⟩ assumptions goals).outcome =
            .ok (.counterexample w) ↔
          ∃ model?, solver asserted = .sat model? ∧ w = (model?.map t.witness).getD .empty) ∧
        ∀ m : Model, m.Satisfies asserted →
          (t.witness m).ReadsOut
            ((assumptions ++ goals).flatMap fun v => v.accepted.filterMap Value.reached?) m ∧
          (shapeLaws = true → (t.witness m).Proper)) := by
  simp only [← Query.reached_eq, ← Value.encodable_iff_wellKinded]
  constructor
  · refine ⟨_, _, Translator.run_consistency shapeLaws facts, ?_, fun m hm => ?_⟩
    all_goals simp only [Translator.witness_filled]
    · exact checkConsistency_eq_consistent_iff
    · have htracks := Query.tracks_assume shapeLaws facts
      have hreads := Encoder.readsOut_witness htracks m
      refine ⟨hreads, ?_⟩
      rintro rfl
      exact ⟨hreads.proper (Query.lawful_of_satisfies htracks (Query.shapeLaws_assume facts) hm),
        hreads.axesWithin (Query.satisfies_axisObligations_of_consistency hm)⟩
  · intro hgoals
    obtain ⟨q, hq⟩ : ∃ q, Query.entailment shapeLaws assumptions goals = .ok q :=
      ⟨_, Query.entailment_of_encodable shapeLaws assumptions hgoals⟩
    refine ⟨_, _, Translator.run_entailment hq hgoals, ?_, fun m hm => ?_⟩
    all_goals simp only [Translator.witness_filled]
    · exact verify_eq_counterexample_iff hq
    · have htracks := Query.tracks_entailment hgoals hq
      have hreads := Encoder.readsOut_witness htracks m
      refine ⟨hreads, fun hlaws => hreads.proper ?_⟩
      exact Query.lawful_of_satisfies htracks ((Query.shapeLaws_entailment hgoals hq).trans hlaws) hm

/-- A tensor may be empty along its second axis. A witness gives that extent, and no rank below two.
That the rank is three does not follow. -/
theorem witness_exact_emptyAxis :
    (∃ w, (checkConsistency ⟨some Solver.ideal, true⟩
        [.equals (.dimOf 1 "%x") (.int 0)]).outcome = .ok (.consistent w) ∧
      w.dim? "%x" 1 = some 0 ∧ ∀ n, w.rank? "%x" = some n → 1 < n.toInt) ∧
    ∃ w, (verify ⟨some Solver.ideal, true⟩ [.equals (.dimOf 1 "%x") (.int 0)]
        [.equals (.rankOf "%x") (.int 3)]).outcome = .ok (.counterexample w) ∧ w.Proper := by
  have hfacts : ∀ v ∈ [Value.equals (.dimOf 1 "%x") (.int 0)], v.Encodable :=
    List.forall_mem_singleton.2 ⟨_, rfl⟩
  have hempty : (Tensors.empties true 2).Meets [.equals (.dimOf 1 "%x") (.int 0)] := by
    rw [Tensors.meets_iff hfacts, List.forall_mem_singleton]
    refine ⟨by simp [Value.Holds, Value.denote, Tensors.data, Tensors.empties], fun _ a ha => ?_⟩
    obtain rfl : a = ⟨"%x", 1⟩ := by simpa [Value.axes] using ha
    exact ⟨by decide, by decide⟩
  constructor
  · obtain ⟨asserted, t, hrun, hanswer, hwitness⟩ :=
      (witness_exact Solver.ideal true [.equals (.dimOf 1 "%x") (.int 0)] [] []).1
    obtain ⟨w, hw⟩ := checkConsistency_of_meets Solver.ideal_decides ⟨_, hempty⟩
    obtain ⟨model?, hsat, rfl⟩ := (hanswer w).1 hw
    obtain ⟨m, rfl, hm⟩ := Solver.ideal_givesModels hsat
    rw [Option.map_some, Option.getD_some] at hw
    obtain ⟨hreads, hlaws⟩ := hwitness m hm
    have hzero : (dimTerm ⟨"%x", 1⟩).eval m = (0 : Int64).toInt := by
      rw [Translator.run_consistency] at hrun
      cases hrun
      have hfact := hm (.eq (dimTerm ⟨"%x", 1⟩) (.lit (0 : Int64).toInt)) (List.mem_cons_self ..)
      exact (Formula.eval_eq_iff ..).1 hfact
    have hword : IsWord ((dimTerm ⟨"%x", 1⟩).eval m) := by
      rw [hzero]
      exact ⟨by decide, by decide⟩
    have hdim := (hreads.isSome_dim?_iff "%x" 1).2 ⟨List.mem_cons_self .., hword⟩
    obtain ⟨n, hn⟩ := Option.isSome_iff_exists.1 hdim
    refine ⟨_, hw, ?_, ((hlaws rfl).2 "%x" 1 hdim).2⟩
    rw [hn, Int64.toInt_inj.1 ((hreads.toInt_dim hn).trans hzero)]
  · have hgoals : ∀ g ∈ [Value.equals (.rankOf "%x") (.int 3)],
        (∃ k, g = .int k) ∨ g.WellKinded :=
      List.forall_mem_singleton.2 (.inr (.integers rfl rfl))
    have hmiss : ¬Follows true [.equals (.dimOf 1 "%x") (.int 0)]
        [.equals (.rankOf "%x") (.int 3)] := by
      intro hfollows
      have hthree := (hfollows _ hempty _ (List.mem_cons_self ..)).holds
      simp [Value.Holds, Value.denote, Tensors.data, Tensors.empties] at hthree
    obtain ⟨asserted, t, -, hanswer, hwitness⟩ :=
      (witness_exact Solver.ideal true [] [.equals (.dimOf 1 "%x") (.int 0)]
        [.equals (.rankOf "%x") (.int 3)]).2 hgoals
    obtain ⟨w, hw⟩ := verify_of_not_follows Solver.ideal_decides
      (fun g hg => g.encodable_iff_wellKinded.2 (hgoals g hg)) hmiss
    obtain ⟨model?, hsat, rfl⟩ := (hanswer w).1 hw
    obtain ⟨m, rfl, hm⟩ := Solver.ideal_givesModels hsat
    exact ⟨_, hw, (hwitness m hm).2 rfl⟩

end Verifier

end TensorShape
