import Mathlib.Data.List.Chain
import Mathlib.Data.List.Flatten
import TensorShape.CallGraph.Analysis
import TensorShape.Proofs.MissingSummary
import TensorShape.Proofs.RegisterNames

/-!
# TensorShape.Proofs.Paths

What a contradiction says about the paths of a function.

A summary has the constraints of all blocks, whether or not one execution passes through them all
(`Function.eq_summaryOn_of_summarize`). So a contradiction may be one between blocks of different
branches, and then no path shows it. What holds instead is that only the constraints count
(`Function.constraintsOn_congr`) and that more of them contradict each other no less
(`Verifier.contradictory_of_more_blocks`): a path is contradictory if it passes through blocks that
contradict each other, and a function is if one of its paths is.

Calls in the blocks off a path take no numbers on it, so the facts of the path have other fresh
names; see `TensorShape.Proofs.MissingSummary`.
-/

namespace TensorShape

/-- The constraints of a block, none if it cannot be interpreted. -/
def Block.emitted (b : Block) : List Constraint := b.constraints.outcome.toOption.getD []

namespace Function

/-! ## Paths -/

/-- Control may go from the block at `i` to the one at `j`. -/
def Step (f : Function) (i j : Nat) : Prop :=
  ∃ b c, f.blocks[i]? = some b ∧ f.blocks[j]? = some c ∧ c.label ∈ b.terminator.targets

/-- The places of the blocks on a way from the entry block to a block that returns. -/
structure IsPath (f : Function) (path : List Nat) : Prop where
  entry : path.head? = some 0
  steps : path.IsChain f.Step
  returns : ∃ i b r, path.getLast? = some i ∧ f.blocks[i]? = some b ∧ b.terminator = .ret r

/-- The block at `i` has constraints. -/
def Emits (f : Function) (i : Nat) : Prop := ∃ b, f.blocks[i]? = some b ∧ b.emitted ≠ []

/-! ## Summaries of some blocks -/

/-- The constraints of some blocks, in block order and under function-wide names. -/
def constraintsOn (f : Function) (on : List Nat) : List Constraint :=
  f.blocks.zipIdx.flatMap fun p =>
    if p.2 ∈ on then p.1.emitted.map (Constraint.mapRegisters (f.scope p.2)) else []

/-- The summary of a function restricted to the constraints of some blocks. -/
def summaryOn (f : Function) (on : List Nat) : Summary :=
  ⟨f.name, f.params, f.returnedRegisters, f.constraintsOn on⟩

/-- The places of all blocks. -/
def places (f : Function) : List Nat := List.range f.blocks.length

variable {f : Function} {s : Summary} {on on' : List Nat}

@[simp] theorem name_summaryOn : (f.summaryOn on).name = f.name := rfl

theorem mem_places_of_mem_zipIdx {p : Block × Nat} (hp : p ∈ f.blocks.zipIdx) : p.2 ∈ f.places := by
  rw [List.mem_zipIdx_iff_getElem?] at hp
  exact List.mem_range.2 (List.getElem?_eq_some_iff.1 hp).1

theorem Emits.mem_places {i : Nat} (h : f.Emits i) : i ∈ f.places := by
  obtain ⟨b, hb, -⟩ := h
  exact List.mem_range.2 (List.getElem?_eq_some_iff.1 hb).1

/-- More blocks have more constraints. -/
theorem constraintsOn_sublist (h : ∀ i ∈ on, i ∈ f.places → i ∈ on') :
    (f.constraintsOn on).Sublist (f.constraintsOn on') := by
  refine List.Sublist.flatMap_right _ fun p hp => ?_
  by_cases hon : p.2 ∈ on
  · rw [if_pos hon, if_pos (h _ hon (mem_places_of_mem_zipIdx hp))]
  · rw [if_neg hon]
    exact List.nil_sublist _

/-- Blocks without constraints do not count. -/
theorem constraintsOn_congr (h : ∀ i, f.Emits i → (i ∈ on ↔ i ∈ on')) :
    f.constraintsOn on = f.constraintsOn on' := by
  refine List.flatMap_congr fun p hp => ?_
  by_cases hemitted : p.1.emitted = []
  · rw [hemitted, List.map_nil, ite_self, ite_self]
  · have hemits : f.Emits p.2 := ⟨p.1, List.mem_zipIdx_iff_getElem?.1 hp, hemitted⟩
    exact if_congr (h _ hemits) rfl rfl

/-- The summary of a function is that of all its blocks. -/
theorem eq_summaryOn_of_summarize (h : f.summarize.outcome = .ok s) : s = f.summaryOn f.places := by
  rw [summarize, Report.outcome_bind_eq_ok] at h
  obtain ⟨parts, hparts, h⟩ := h
  rw [Report.outcome_mapM_eq_ok] at hparts
  have hparts' : parts = f.blocks.zipIdx.map fun p =>
      p.1.emitted.map (Constraint.mapRegisters (f.scope p.2)) := calc
    parts = (parts.map some).map fun part => part.getD [] := by
      rw [List.map_map]
      exact (List.map_id parts).symm
    _ = _ := by
      rw [← hparts, List.map_map]
      refine List.map_congr_left fun p _ => ?_
      rw [Function.comp_apply, Report.outcome_bind, Block.emitted]
      cases p.1.constraints.outcome <;> rfl
  have hall : f.constraintsOn f.places = parts.flatten := by
    rw [hparts', ← List.flatMap_def]
    exact List.flatMap_congr fun p hp => if_pos (mem_places_of_mem_zipIdx hp)
  rw [Report.outcome_bind, Report.outcome_log] at h
  rw [summaryOn, hall]
  exact (Except.ok.inj h).symm

end Function

namespace Environment

variable {env : Environment} {f : Function} {on on' : List Nat}

/-- The summary of some blocks stands under the name of the function. -/
theorem summary?_addSummary_summaryOn (env : Environment) (f : Function) (on : List Nat) :
    (env.addSummary (f.summaryOn on)).summary? f.name = some (f.summaryOn on) := by
  rw [summary?_addSummary, Function.name_summaryOn, if_pos rfl]

/-- Whatever blocks of a function count, the other functions are known alike. -/
theorem summary?_addSummary_of_ne {g : String} (h : g ≠ f.name) :
    (env.addSummary (f.summaryOn on)).summary? g = env.summary? g := by
  rw [summary?_addSummary, Function.name_summaryOn, if_neg (Ne.symm h)]

/-- The summary of fewer blocks mentions no registers that the summary of more does not. -/
theorem HashFree.fewer_blocks (hhash : (env.addSummary (f.summaryOn on')).HashFree)
    (h : ∀ i ∈ on, i ∈ f.places → i ∈ on') : (env.addSummary (f.summaryOn on)).HashFree := by
  intro g t ht r hr
  by_cases hg : g = f.name
  · subst hg
    rw [summary?_addSummary_summaryOn] at ht
    cases ht
    refine hhash _ _ (summary?_addSummary_summaryOn env f on') r ?_
    refine List.mem_append.2 ((List.mem_append.1 hr).imp_right fun hr => ?_)
    exact ((Function.constraintsOn_sublist h).flatMap _).subset hr
  · rw [summary?_addSummary_of_ne hg] at ht
    refine hhash g t ?_ r hr
    rwa [summary?_addSummary_of_ne hg]

/-- If blocks have facts, so have fewer of them, and these are, in order, some of those facts once
the fresh names get the numbers that they have there. -/
theorem exists_instantiate_fewer_blocks (hhash : (env.addSummary (f.summaryOn on')).HashFree)
    (h : ∀ i ∈ on, i ∈ f.places → i ∈ on') {facts : List Value}
    (hfacts : ((env.addSummary (f.summaryOn on')).instantiate f.name).outcome = .ok facts) :
    ∃ facts' ν, ((env.addSummary (f.summaryOn on)).instantiate f.name).outcome = .ok facts' ∧
      (facts'.map (Value.mapRegisters (renumber ν))).Sublist facts := by
  refine exists_instantiate_fewer (hhash.fewer_blocks h) (summary?_addSummary_summaryOn env f on')
    (summary?_addSummary_summaryOn env f on) (Function.constraintsOn_sublist h) ?_ hfacts
  intro g t hg ht
  rw [summary?_addSummary_of_ne hg] at ht ⊢
  exact ht

end Environment

/-! ## Answers -/

namespace Verifier

variable {solver : Solver} {shapeLaws : Bool} {env : Environment} {f : Function} {s : Summary}
  {on on' : List Nat}

/-- The answer about a function of which the constraints of some blocks are known. -/
def checkBlocks (v : Verifier) (env : Environment) (f : Function) (on : List Nat) :
    Report Error Consistency :=
  v.checkFunction (env.addSummary (f.summaryOn on)) f.name

/-- If blocks contradict each other, so do more blocks, provided that these have facts at all. -/
theorem contradictory_of_more_blocks (hsolver : solver.Decides)
    (hhash : (env.addSummary (f.summaryOn on')).HashFree) (h : ∀ i ∈ on, i ∈ f.places → i ∈ on')
    {facts : List Value}
    (hfacts : ((env.addSummary (f.summaryOn on')).instantiate f.name).outcome = .ok facts)
    (hon : (checkBlocks ⟨some solver, shapeLaws⟩ env f on).outcome = .ok .contradictory) :
    (checkBlocks ⟨some solver, shapeLaws⟩ env f on').outcome = .ok .contradictory := by
  obtain ⟨facts', hless, hrefutes⟩ := checkFunction_eq_ok.1 hon
  obtain ⟨facts'', ν, hless', hsub⟩ :=
    Environment.exists_instantiate_fewer_blocks hhash h hfacts
  rw [hless] at hless'
  cases hless'
  have hgiven := Environment.given_of_instantiate (hhash.fewer_blocks h) hless
  have hnone : ¬∃ τ : Tensors shapeLaws, τ.Meets facts' := (refutes_iff hsolver).1 hrefutes
  refine checkFunction_eq_ok.2 ⟨facts, hfacts, (refutes_iff hsolver).2 ?_⟩
  rintro ⟨τ, hmeets⟩
  exact hnone ⟨τ.renumbered ν, hmeets.renumbered hsub hgiven⟩

/-- **What a contradiction says about paths.** For a function whose blocks can all be interpreted, a
path that passes through every block with constraints is reported on just as the function is. Under a
solver that decides, and if the calls of the function can be filled in, a path that passes through
some blocks that contradict each other is contradictory. And a function with a contradictory path is
contradictory itself, unless some call off the path passes a wrong number of operands. -/
theorem checkBlocks_path (hsummary : f.summarize.outcome = .ok s) :
    (∀ v env path, f.IsPath path → (∀ i, f.Emits i → i ∈ path) →
      checkBlocks v env f path = checkFunction v (env.addSummary s) f.name) ∧
    ∀ solver : Solver, solver.Decides → ∀ shapeLaws env, (env.addSummary s).HashFree →
      ∀ path, f.IsPath path →
        ((∃ facts, ((env.addSummary s).instantiate f.name).outcome = .ok facts) →
          ∀ on, on ⊆ path →
            (checkBlocks ⟨some solver, shapeLaws⟩ env f on).outcome = .ok .contradictory →
            (checkBlocks ⟨some solver, shapeLaws⟩ env f path).outcome = .ok .contradictory) ∧
        ((checkBlocks ⟨some solver, shapeLaws⟩ env f path).outcome = .ok .contradictory →
          (checkFunction ⟨some solver, shapeLaws⟩ (env.addSummary s) f.name).outcome =
              .ok .contradictory ∨
            ∃ callee expected got,
              (checkFunction ⟨some solver, shapeLaws⟩ (env.addSummary s) f.name).outcome =
                .error (.call (.arityMismatch callee expected got))) := by
  cases Function.eq_summaryOn_of_summarize hsummary
  constructor
  · intro v env path _ hcovers
    have hsame : f.constraintsOn path = f.constraintsOn f.places :=
      Function.constraintsOn_congr fun i hi => iff_of_true (hcovers i hi) hi.mem_places
    rw [checkBlocks, Function.summaryOn, hsame]
    rfl
  · intro solver hsolver shapeLaws env hhash path _
    have hpath : ∀ i ∈ path, i ∈ f.places → i ∈ f.places := fun _ _ hi => hi
    constructor
    · rintro ⟨facts, hfacts⟩ on hon hcontradictory
      obtain ⟨factsOn, -, hfactsOn, -⟩ :=
        Environment.exists_instantiate_fewer_blocks hhash hpath hfacts
      exact contradictory_of_more_blocks hsolver (hhash.fewer_blocks hpath)
        (fun i hi _ => hon hi) hfactsOn hcontradictory
    · intro hcontradictory
      cases hfacts : ((env.addSummary (f.summaryOn f.places)).instantiate f.name).outcome with
      | error e =>
        obtain ⟨callee, expected, got, rfl⟩ := Environment.arityMismatch_of_outcome_instantiate
          (Environment.summary?_addSummary_summaryOn env f f.places) hfacts
        exact .inr ⟨callee, expected, got, checkFunction_of_error hfacts⟩
      | ok facts =>
        exact .inl (contradictory_of_more_blocks hsolver hhash hpath hfacts hcontradictory)

/-- Facts that give one register two ranks are refuted. -/
theorem refutes_of_ranksDiffer_subset (hsolver : solver.Decides) {facts : List Value} {r : Register}
    (h : ranksDiffer r r ⊆ facts) : Refutes ⟨some solver, shapeLaws⟩ facts := by
  rw [refutes_iff hsolver]
  rintro ⟨τ, hmeets⟩
  exact exists_meets_ranksDiffer_iff.1 ⟨τ, hmeets.mono h⟩ rfl

/-- Statements that check the rank of `%x`. -/
def rankCheck (rank : Int64) : List Statement :=
  [⟨["%0"], .functionRef Builtin.rankGetter.symbol (.named "Getter")⟩,
    ⟨["%1"], .apply "%0" ["%x"]⟩,
    ⟨["%2"], .integerLiteral (.select (.named "Builtin") "Int64") rank⟩,
    ⟨["%3"], .builtin "cmp_eq_Int64" [⟨"%1", .named "Int64"⟩, ⟨"%2", .named "Int64"⟩]
      (.named "Int1")⟩,
    ⟨["%4"], .functionRef Builtin.check.symbol (.named "Check")⟩,
    ⟨["%5"], .apply "%4" ["%3"]⟩]

/-- Checks that do not agree, before a branch and after it. One side of the branch calls `g`. -/
def checksAround : Function where
  name := "f"
  blocks :=
    [⟨"bb0", [⟨"%x", .named "Tensor"⟩, ⟨"%c", .named "Int1"⟩], rankCheck 1,
        .condBranch "%c" "bb1" "bb2"⟩,
      ⟨"bb1", [], [], .branch "bb3" []⟩,
      ⟨"bb2", [], [⟨["%6"], .functionRef "g" (.named "G")⟩, ⟨["%7"], .apply "%6" ["%x"]⟩],
        .branch "bb3" []⟩,
      ⟨"bb3", [], rankCheck 2, .ret ⟨"%x", .named "Tensor"⟩⟩]

/-- Checks that do not agree, on the two sides of a branch. -/
def checksApart : Function where
  name := "f"
  blocks :=
    [⟨"bb0", [⟨"%x", .named "Tensor"⟩, ⟨"%c", .named "Int1"⟩], [], .condBranch "%c" "bb1" "bb2"⟩,
      ⟨"bb1", [], rankCheck 1, .ret ⟨"%x", .named "Tensor"⟩⟩,
      ⟨"bb2", [], rankCheck 2, .ret ⟨"%x", .named "Tensor"⟩⟩]

/-- All that is known is that `g` compares its parameter with a tensor of its own. -/
def compares : Environment :=
  Environment.empty.addSummary ⟨"g", ["%p"], [], [.holds (.equals (.rankOf "%p") (.rankOf "%l"))]⟩

/-- Both sides of the branch go through the checks that do not agree. -/
theorem checkBlocks_path_checksAround :
    Solver.ideal.Decides ∧ checksAround.IsPath [0, 1, 3] ∧ checksAround.IsPath [0, 2, 3] ∧
    (∀ i, checksAround.Emits i → i ∈ [0, 2, 3]) ∧
    ∃ s, checksAround.summarize.outcome = .ok s ∧ (compares.addSummary s).HashFree ∧
      (checkFunction ⟨some Solver.ideal, true⟩ (compares.addSummary s) "f").outcome =
        .ok .contradictory ∧
      (checkBlocks ⟨some Solver.ideal, true⟩ compares checksAround [0, 3]).outcome =
        .ok .contradictory ∧
      (checkBlocks ⟨some Solver.ideal, true⟩ compares checksAround [0, 1, 3]).outcome =
        .ok .contradictory ∧
      (checkBlocks ⟨some Solver.ideal, true⟩ compares checksAround [0, 2, 3]).outcome =
        .ok .contradictory := by
  have hleft : checksAround.IsPath [0, 1, 3] := by
    refine ⟨rfl, ?_, 3, _, _, rfl, rfl, rfl⟩
    exact .cons_cons ⟨_, _, rfl, rfl, by decide⟩
      (.cons_cons ⟨_, _, rfl, rfl, by decide⟩ (.singleton 3))
  have hright : checksAround.IsPath [0, 2, 3] := by
    refine ⟨rfl, ?_, 3, _, _, rfl, rfl, rfl⟩
    exact .cons_cons ⟨_, _, rfl, rfl, by decide⟩
      (.cons_cons ⟨_, _, rfl, rfl, by decide⟩ (.singleton 3))
  have hemits : ∀ i, checksAround.Emits i → i ∈ [0, 2, 3] := by
    rintro (_ | _ | _ | _ | i) ⟨b, hb, hemitted⟩
    · decide
    · cases hb
      exact absurd rfl hemitted
    · decide
    · decide
    · cases hb
  have hsummary : checksAround.summarize.outcome =
      .ok (checksAround.summaryOn checksAround.places) := rfl
  have hvalues : ∀ s ∈ (compares.addSummary
      (checksAround.summaryOn checksAround.places)).summaries.values,
      ∀ r ∈ s.registers, '#' ∉ r.toList := by
    decide +kernel
  have hhash : (compares.addSummary (checksAround.summaryOn checksAround.places)).HashFree :=
    fun f s hs => hvalues s (Environment.mem_values_of_summary? hs)
  have hexpands : (compares.addSummary (checksAround.summaryOn checksAround.places)).Expands
      .root ["f"] 0 [.holds (.equals (.rankOf "%x") (.int 1)), .call "g" "%7" ["%x"],
        .holds (.equals (.rankOf "%x") (.int 2))] _ _ :=
    .holds _ (.filled rfl (by decide) rfl (.holds _ (.nil ..)) (.holds _ (.nil ..)))
  have hfacts : ((compares.addSummary
      (checksAround.summaryOn checksAround.places)).instantiate "f").outcome =
      .ok [.equals (.rankOf "%x") (.int 1), .equals (.rankOf "%x") (.rankOf "g#0::%l"),
        .equals (.rankOf "%x") (.int 2)] :=
    Environment.outcome_instantiate_of_expands rfl hexpands
  have hfactsOn : ((compares.addSummary (checksAround.summaryOn [0, 3])).instantiate "f").outcome =
      .ok (ranksDiffer "%x" "%x") :=
    Environment.outcome_instantiate_of_expands rfl (.holds _ (.holds _ (.nil ..)))
  have hwhole : (checkFunction ⟨some Solver.ideal, true⟩
      (compares.addSummary (checksAround.summaryOn checksAround.places)) "f").outcome =
      .ok .contradictory :=
    checkFunction_eq_ok.2
      ⟨_, hfacts, refutes_of_ranksDiffer_subset (r := "%x") Solver.ideal_decides (by decide)⟩
  have hon : (checkBlocks ⟨some Solver.ideal, true⟩ compares checksAround [0, 3]).outcome =
      .ok .contradictory :=
    checkFunction_eq_ok.2 ⟨_, hfactsOn,
      refutes_of_ranksDiffer_subset Solver.ideal_decides (List.Subset.refl _)⟩
  obtain ⟨hcovering, hconflict⟩ := checkBlocks_path hsummary
  exact ⟨Solver.ideal_decides, hleft, hright, hemits, _, hsummary, hhash, hwhole, hon,
    (hconflict _ Solver.ideal_decides true compares hhash _ hleft).1 ⟨_, hfacts⟩ [0, 3] (by decide)
      hon,
    (congrArg Report.outcome (hcovering _ compares _ hright hemits)).trans hwhole⟩

/-- A function may be contradictory without any path that is: each side of the branch of
`checksApart` is consistent. -/
theorem checkBlocks_checksApart_consistent :
    Solver.ideal.Decides ∧ checksApart.flaw? = none ∧
    (∃ s, checksApart.summarize.outcome = .ok s ∧
      (checkFunction ⟨some Solver.ideal, true⟩ (Environment.empty.addSummary s) "f").outcome =
        .ok .contradictory) ∧
    checksApart.IsPath [0, 1] ∧
    ∃ w, (checkBlocks ⟨some Solver.ideal, true⟩ .empty checksApart [0, 1]).outcome =
      .ok (.consistent w) := by
  have hpath : checksApart.IsPath [0, 1] :=
    ⟨rfl, .cons_cons ⟨_, _, rfl, rfl, by decide⟩ (.singleton 1), 1, _, _, rfl, rfl, rfl⟩
  have hfacts : ((Environment.empty.addSummary
      (checksApart.summaryOn checksApart.places)).instantiate "f").outcome =
      .ok (ranksDiffer "%x" "%x") :=
    Environment.outcome_instantiate_of_expands rfl (.holds _ (.holds _ (.nil ..)))
  have hfactsOn : ((Environment.empty.addSummary
      (checksApart.summaryOn [0, 1])).instantiate "f").outcome =
      .ok [.equals (.rankOf "%x") (.int 1)] :=
    Environment.outcome_instantiate_of_expands rfl (.holds _ (.nil ..))
  have hmeets : (Tensors.empties true 1).Meets [.equals (.rankOf "%x") (.int 1)] := by
    rw [Tensors.meets_iff (List.forall_mem_singleton.2 ⟨_, rfl⟩), List.forall_mem_singleton,
      Tensors.satisfies_rank_iff]
    rfl
  obtain ⟨w, hw⟩ := checkConsistency_of_meets Solver.ideal_decides ⟨_, hmeets⟩
  refine ⟨Solver.ideal_decides, by decide, ⟨_, rfl, ?_⟩, hpath, w,
    checkFunction_eq_ok.2 ⟨_, hfactsOn, hw⟩⟩
  exact checkFunction_eq_ok.2 ⟨_, hfacts,
    refutes_of_ranksDiffer_subset Solver.ideal_decides (List.Subset.refl _)⟩

end Verifier

end TensorShape
