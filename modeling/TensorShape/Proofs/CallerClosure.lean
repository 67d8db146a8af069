import Mathlib.Data.Set.Basic
import Mathlib.Logic.Function.Iterate
import Mathlib.Logic.Relation
import Mathlib.Order.Bounds.Defs
import TensorShape.Proofs.Invalidation

/-!
# TensorShape.Proofs.CallerClosure

Which functions an invalidation drops, in any environment whatsoever: records may lead in circles,
come from functions without a summary, or lead to them.

The dropped functions are the least set that holds the function, if it has a summary, and with each
function its summarized callers (`ClosedUnderCallers`). The records of a dropped function are erased
while its callers are still to be found, so the two halves need different arguments:

* `Invalidates.mem_dropped_of_records`: no caller is lost, as a survivor's callees are survivors;
* `Invalidates.mem_of_closed`: nothing else is dropped, as fewer records have fewer callers.

The pending functions may hold a function many times. `Worklist.round` is one turn of the loop, and
`Invalidates.exists_rounds` bounds the number of turns. `mem_invalidate_iff` describes the dropped
functions by paths: `Relays` is a recorded call of a function that has a summary.
-/

namespace TensorShape

namespace Environment

variable {env env' : Environment} {caller callee function f g : String}

/-! ## Callers -/

/-- The function has a summary. -/
def Summarized (env : Environment) (function : String) : Prop :=
  (env.summary? function).isSome = true

/-- The callers of a function are those with a recorded call of it. -/
theorem mem_callersOf_iff : caller ∈ env.callersOf callee ↔ env.Records caller callee := by
  refine ⟨fun h => ?_, mem_callersOf_of_records⟩
  obtain ⟨p, hp, rfl⟩ := List.mem_map.1 h
  obtain ⟨hentry, hcontains⟩ := List.mem_filter.1 hp
  have hget : env.dependencies.get? p.1 = some p.2 := Table.get?_of_mem_entries hentry
  simp only [Records, calleesOf, hget, Option.getD_some]
  exact hcontains

/-- A function has no more callers than there are functions with recorded calls. -/
theorem length_callersOf_le (env : Environment) (function : String) :
    (env.callersOf function).length ≤ env.dependencies.size := by
  simp only [callersOf, List.length_map, Table.size]
  exact List.length_filter_le _ _

/-- Dropping a function takes away its summary and no other. -/
theorem summarized_drop : (env.drop function).Summarized f ↔ f ≠ function ∧ env.Summarized f := by
  by_cases hf : function = f
  · simp [Summarized, summary?_drop, hf]
  · simp [Summarized, summary?_drop, hf, Ne.symm hf]

/-! ## Rounds -/

/-- An invalidation that is under way. -/
structure Worklist where
  env : Environment
  pending : List String
  dropped : List String

/-- One round of an invalidation: the first pending function is dropped and its callers become
pending, or it has no summary and is passed over. -/
def Worklist.round : Worklist → Worklist
  | ⟨env, [], dropped⟩ => ⟨env, [], dropped⟩
  | ⟨env, function :: rest, dropped⟩ =>
    if (env.summary? function).isSome = true then
      ⟨env.drop function, ((env.drop function).callersOf function).reverse ++ rest,
        dropped ++ [function]⟩
    else ⟨env, rest, dropped⟩

/-! ## What an invalidation does, along its derivation -/

namespace Invalidates

variable {pending dropped : List String}

/-- The loop ends: each pending function takes a round, and each dropped one puts at most as many
functions on the list as there are functions with records. -/
theorem exists_rounds (h : Invalidates env pending dropped env') (already : List String) :
    ∃ n ≤ pending.length + dropped.length * env.dependencies.size,
      Worklist.round^[n] ⟨env, pending, already⟩ = ⟨env', [], already ++ dropped⟩ := by
  induction h generalizing already with
  | nil env => exact ⟨0, Nat.zero_le _, by simp⟩
  | @pass env env' function rest dropped hnone tail ih =>
    obtain ⟨n, hn, hround⟩ := ih already
    refine ⟨n + 1, by simp only [List.length_cons]; omega, ?_⟩
    simpa [Function.iterate_succ_apply, Worklist.round, hnone] using hround
  | @drop env env' function rest dropped s hsome tail ih =>
    obtain ⟨n, hn, hround⟩ := ih (already ++ [function])
    have hsize : (env.drop function).dependencies.size ≤ env.dependencies.size :=
      Table.size_erase_le _ _
    have hcallers := length_callersOf_le (env.drop function) function
    have hmul := Nat.mul_le_mul_left dropped.length hsize
    refine ⟨n + 1, ?_, ?_⟩
    · simp only [List.length_append, List.length_reverse] at hn
      simp only [List.length_cons, Nat.succ_mul]
      omega
    · simpa [Function.iterate_succ_apply, Worklist.round, hsome] using hround

/-- Only functions with a summary are dropped. -/
theorem summarized_of_mem_dropped (h : Invalidates env pending dropped env') (hf : f ∈ dropped) :
    env.Summarized f := by
  induction h with
  | nil => exact absurd hf List.not_mem_nil
  | pass _ _ ih => exact ih hf
  | @drop env env' function rest dropped s hsome tail ih =>
    rcases List.mem_cons.1 hf with rfl | hmem
    · simp [Summarized, hsome]
    · exact (summarized_drop.1 (ih hmem)).2

/-- No function is dropped twice. -/
theorem nodup_dropped (h : Invalidates env pending dropped env') : dropped.Nodup := by
  induction h with
  | nil => exact List.nodup_nil
  | pass _ _ ih => exact ih
  | @drop env env' function rest dropped s hsome tail ih =>
    -- What is dropped later still has a summary after this drop.
    have hnot : function ∉ dropped := fun hmem =>
      (summarized_drop.1 (tail.summarized_of_mem_dropped hmem)).1 rfl
    exact List.nodup_cons.2 ⟨hnot, ih⟩

/-- What dropping one function takes away for that function alone, an invalidation takes away for
the dropped functions alone. -/
theorem lookup_eq {α : Type} (lookup : Environment → String → Option α)
    (hdrop : ∀ env function f,
      lookup (env.drop function) f = if function = f then none else lookup env f)
    (h : Invalidates env pending dropped env') (f : String) :
    lookup env' f = if f ∈ dropped then none else lookup env f := by
  induction h with
  | nil => simp
  | pass _ _ ih => exact ih
  | @drop env env' function rest dropped s hsome tail ih =>
    rw [ih, hdrop]
    by_cases hf : f = function
    · simp [hf]
    · simp [hf, Ne.symm hf]

/-- What is not dropped keeps its summary. -/
theorem summaries_get? (h : Invalidates env pending dropped env') (f : String) :
    env'.summaries.get? f = if f ∈ dropped then none else env.summaries.get? f :=
  h.lookup_eq (fun env f => env.summaries.get? f) (fun _ _ _ => Table.get?_erase ..) f

/-- What is not dropped keeps its recorded calls. -/
theorem dependencies_get? (h : Invalidates env pending dropped env') (f : String) :
    env'.dependencies.get? f = if f ∈ dropped then none else env.dependencies.get? f :=
  h.lookup_eq (fun env f => env.dependencies.get? f) (fun _ _ _ => Table.get?_erase ..) f

/-- The functions that are dropped are those that had a summary and have none any more. -/
theorem mem_dropped_iff (h : Invalidates env pending dropped env') :
    f ∈ dropped ↔ env.Summarized f ∧ ¬env'.Summarized f := by
  have hget : env'.summary? f = if f ∈ dropped then none else env.summary? f := h.summaries_get? f
  by_cases hf : f ∈ dropped
  · have hsummary := h.summarized_of_mem_dropped hf
    have hnone : ¬env'.Summarized f := by simp [Summarized, hget, hf]
    simp [hf, hsummary, hnone]
  · have hsame : env'.Summarized f ↔ env.Summarized f := by simp [Summarized, hget, hf]
    simp [hf, hsame]

/-- A function that waits to be dropped is dropped, if it has a summary. -/
theorem mem_dropped_of_mem_pending (h : Invalidates env pending dropped env') (hf : f ∈ pending)
    (hsummary : env.Summarized f) : f ∈ dropped := by
  refine h.mem_dropped_iff.2 ⟨hsummary, ?_⟩
  simp [Summarized, h.summary?_of_mem_pending hf]

/-- No summarized caller of a dropped function is left. -/
theorem mem_dropped_of_records (h : Invalidates env pending dropped env') (hg : callee ∈ dropped)
    (hrecords : env.Records caller callee) (hsummary : env.Summarized caller) :
    caller ∈ dropped := by
  refine h.mem_dropped_iff.2 ⟨hsummary, fun hkept => ?_⟩
  obtain ⟨hbefore, hafter⟩ := h.mem_dropped_iff.1 hg
  obtain ⟨s, hs⟩ := Option.isSome_iff_exists.1 hkept
  -- A survivor is recorded to call nothing that was dropped.
  have hsame : env'.summary? callee = env.summary? callee := h.summary?_of_records hs hrecords
  simp only [Summarized, hsame] at hafter
  exact hafter hbefore

/-- Only what has to be dropped is: every set that holds the summarized functions that are pending,
and with a function its summarized callers, holds the dropped ones. -/
theorem mem_of_closed (h : Invalidates env pending dropped env') {S : Set String}
    (hpending : ∀ f ∈ pending, env.Summarized f → f ∈ S)
    (hcallers : ∀ callee ∈ S, ∀ caller, env.Summarized caller → env.Records caller callee →
      caller ∈ S)
    (hf : f ∈ dropped) : f ∈ S := by
  induction h with
  | nil => exact absurd hf List.not_mem_nil
  | pass _ _ ih => exact ih (fun g hg => hpending g (List.mem_cons_of_mem _ hg)) hcallers hf
  | @drop env env' function rest dropped s hsome tail ih =>
    have hfunction : function ∈ S :=
      hpending function List.mem_cons_self (by simp [Summarized, hsome])
    rcases List.mem_cons.1 hf with rfl | hmem
    · exact hfunction
    · -- With fewer summaries and records the set is still closed.
      refine ih (fun g hg hsummary => ?_) (fun c hc caller hsummary hrecords => ?_) hmem
      · have hbefore := (summarized_drop.1 hsummary).2
        rcases List.mem_append.1 hg with hcaller | hrest
        · have hrecords := mem_callersOf_iff.1 (List.mem_reverse.1 hcaller)
          exact hcallers function hfunction g hbefore (records_drop.1 hrecords).2
        · exact hpending g (List.mem_cons_of_mem _ hrest) hbefore
      · exact hcallers c hc caller (summarized_drop.1 hsummary).2 (records_drop.1 hrecords).2

/-- A dropped function was pending from the start, or it calls one that was dropped before it. -/
theorem mem_pending_or_records (h : Invalidates env pending dropped env')
    {before after : List String} (hf : dropped = before ++ f :: after) :
    f ∈ pending ∨ ∃ callee ∈ before, env.Records f callee := by
  induction h generalizing before with
  | nil => simp at hf
  | pass _ _ ih => exact (ih hf).imp_left (List.mem_cons_of_mem _)
  | @drop env env' function rest dropped s hsome tail ih =>
    cases before with
    | nil =>
      obtain ⟨rfl, -⟩ := List.cons.inj hf
      exact .inl List.mem_cons_self
    | cons first before =>
      obtain ⟨rfl, hrest⟩ := List.cons.inj hf
      rcases ih hrest with hmem | ⟨callee, hcallee, hrecords⟩
      · rcases List.mem_append.1 hmem with hcaller | hmem
        · have hrecords := mem_callersOf_iff.1 (List.mem_reverse.1 hcaller)
          exact .inr ⟨function, List.mem_cons_self, (records_drop.1 hrecords).2⟩
        · exact .inl (List.mem_cons_of_mem _ hmem)
      · exact .inr ⟨callee, List.mem_cons_of_mem _ hcallee, (records_drop.1 hrecords).2⟩

/-- The first function that is dropped is the one that was asked for. -/
theorem head_eq (h : Invalidates env [function] (f :: dropped) env') : f = function := by
  cases h with
  | pass _ tail => cases tail
  | drop => rfl

/-- Each function that is dropped after the first calls one that was dropped before it. -/
theorem exists_records (h : Invalidates env [function] dropped env') {before after : List String}
    (hf : dropped = before ++ f :: after) (hbefore : before ≠ []) :
    ∃ callee ∈ before, env.Records f callee := by
  refine (h.mem_pending_or_records hf).resolve_left fun hmem => ?_
  obtain ⟨first, rest, rfl⟩ := List.exists_cons_of_ne_nil hbefore
  have hnodup := h.nodup_dropped
  subst hf
  -- The function itself is dropped first, and only once.
  have hfirst : first = function := h.head_eq
  have hsecond : f = function := List.mem_singleton.1 hmem
  simp [hfirst, hsecond] at hnodup

end Invalidates

/-! ## The closure -/

/-- The set holds the function, if it has a summary, and with each function its summarized
callers. -/
structure ClosedUnderCallers (env : Environment) (function : String) (S : Set String) : Prop where
  self : env.Summarized function → function ∈ S
  caller : ∀ callee ∈ S, ∀ caller, env.Summarized caller → env.Records caller callee → caller ∈ S

/-- The recursion of `invalidate` is the relation `Invalidates`, from the one function that changed.
-/
theorem invalidates_invalidate (env : Environment) (function : String) :
    Invalidates env [function] (env.invalidate function).1 (env.invalidate function).2 :=
  invalidates_invalidateAll env [function]

/-- The functions that are dropped are closed under callers. -/
theorem closedUnderCallers_invalidate (env : Environment) (function : String) :
    env.ClosedUnderCallers function {g | g ∈ (env.invalidate function).1} where
  self := (invalidates_invalidate env function).mem_dropped_of_mem_pending List.mem_cons_self
  caller _ hg _ hsummary hrecords :=
    (invalidates_invalidate env function).mem_dropped_of_records hg hrecords hsummary

/-- What is dropped is in every set that is closed under callers. -/
theorem ClosedUnderCallers.mem_of_mem_invalidate {S : Set String}
    (h : env.ClosedUnderCallers function S) (hg : g ∈ (env.invalidate function).1) : g ∈ S := by
  refine (invalidates_invalidate env function).mem_of_closed (fun f hf hsummary => ?_) h.caller hg
  rw [List.mem_singleton.1 hf] at hsummary ⊢
  exact h.self hsummary

/-! ### By paths -/

/-- A recorded call of a function that has a summary: an invalidation of it reaches the caller. -/
def Relays (env : Environment) (caller callee : String) : Prop :=
  env.Records caller callee ∧ env.Summarized callee

/-- The dropped functions are those with a summary from which calls lead to the function, through
functions with summaries only. -/
theorem mem_invalidate_iff : g ∈ (env.invalidate function).1 ↔
    env.Summarized g ∧ Relation.ReflTransGen env.Relays g function := by
  constructor
  · intro hg
    have hclosed : env.ClosedUnderCallers function
        {g | env.Summarized g ∧ Relation.ReflTransGen env.Relays g function} :=
      { self := fun hsummary => ⟨hsummary, .refl⟩
        caller := fun callee hcallee caller hsummary hrecords =>
          ⟨hsummary, .head ⟨hrecords, hcallee.1⟩ hcallee.2⟩ }
    exact hclosed.mem_of_mem_invalidate hg
  · intro hg
    have hclosed := closedUnderCallers_invalidate env function
    obtain ⟨hsummary, hpath⟩ := hg
    induction hpath using Relation.ReflTransGen.head_induction_on with
    | refl => exact hclosed.self hsummary
    | head hrelays _ ih => exact hclosed.caller _ (ih hrelays.2) _ hsummary hrelays.1

/-! ### The whole -/

/-- An invalidation ends, and drops just the closure under callers: no function twice, the least
closed set and nothing else, each function after one that it calls; and of the summaries and records
just those of the dropped functions are gone. -/
theorem invalidate_drops_least_closure (env : Environment) (function : String) :
    (∃ n ≤ 1 + (env.invalidate function).1.length * env.dependencies.size,
      Worklist.round^[n] ⟨env, [function], []⟩ =
        ⟨(env.invalidate function).2, [], (env.invalidate function).1⟩) ∧
    (env.invalidate function).1.Nodup ∧
    IsLeast {S | env.ClosedUnderCallers function S} {g | g ∈ (env.invalidate function).1} ∧
    (∀ before g after, (env.invalidate function).1 = before ++ g :: after → before ≠ [] →
      ∃ callee ∈ before, env.Records g callee) ∧
    (∀ g, g ∈ (env.invalidate function).1 ↔
      env.Summarized g ∧ ¬(env.invalidate function).2.Summarized g) ∧
    (∀ g, (env.invalidate function).2.summaries.get? g =
      if g ∈ (env.invalidate function).1 then none else env.summaries.get? g) ∧
    (∀ g, (env.invalidate function).2.dependencies.get? g =
      if g ∈ (env.invalidate function).1 then none else env.dependencies.get? g) := by
  have hinvalidates := invalidates_invalidate env function
  have hleast : IsLeast {S | env.ClosedUnderCallers function S}
      {g | g ∈ (env.invalidate function).1} :=
    ⟨closedUnderCallers_invalidate env function, fun S hS g hg => hS.mem_of_mem_invalidate hg⟩
  exact ⟨hinvalidates.exists_rounds [], hinvalidates.nodup_dropped, hleast,
    fun before g after => hinvalidates.exists_records, fun g => hinvalidates.mem_dropped_iff,
    hinvalidates.summaries_get?, hinvalidates.dependencies_get?⟩

end Environment

end TensorShape
