import TensorShape.Proofs.Expansion

/-!
# TensorShape.Proofs.Invalidation

Invalidation does not change the meaning of what it leaves.

In every environment with a history (`Environment.Reachable`) the calls of each summary are recorded
(`Environment.Recorded`), also if the summary was replaced or others were dropped. Invalidation
follows the records backwards. So a function that keeps its summary calls no function that lost its
own (`Invalidates.summary?_of_records`), nor do the functions it calls, and so on. Filling in calls
looks up called functions only (`expand_congr`), and finds the same.

* `Invalidates` says step by step what dropping the pending functions does, and
  `invalidates_invalidateAll` that `Environment.invalidateAll` does just that;
* `Reachable.recorded`: the records of an environment with a history are complete;
* `instantiate_invalidate`: survivors keep their meaning.
-/

namespace TensorShape

/-- A function that a constraint calls is a callee of the summary. -/
theorem Summary.mem_callees_of_call {s : Summary} {callee : String} {result : Register}
    {operands : List Register} (h : .call callee result operands ∈ s.constraints) :
    callee ∈ s.callees.keys := by
  have hcallee : callee ∈ s.constraints.filterMap Constraint.callee? :=
    List.mem_filterMap.2 ⟨_, h, rfl⟩
  have hkey : callee ∈
      ((s.constraints.filterMap Constraint.callee?).map fun n => (n, ())).map Prod.fst := by
    simpa using hcallee
  rw [Table.mem_keys_iff, Option.isSome_iff_ne_none]
  exact Table.get?_ofList_ne_none hkey

namespace Environment

/-! ## Records -/

/-- It is recorded that `caller` calls `callee`. -/
def Records (env : Environment) (caller callee : String) : Prop :=
  (env.calleesOf caller).contains callee = true

/-- Every call of a summary is recorded. -/
def Recorded (env : Environment) : Prop :=
  ∀ function s, env.summary? function = some s → ∀ callee ∈ s.callees.keys,
    env.Records function callee

variable {env env' : Environment} {caller callee function : String}

/-- Recording a call adds this call and no other. -/
theorem records_addDependency {f g : String} :
    (env.addDependency caller callee).Records f g ↔
      (f = caller ∧ g = callee) ∨ env.Records f g := by
  by_cases hf : f = caller
  · subst hf
    simp [Records, addDependency, calleesOf, Table.contains_insert_iff, @eq_comm _ callee]
  · simp [Records, addDependency, calleesOf, hf, Ne.symm hf]

@[simp] theorem summary?_addDependency {f : String} :
    (env.addDependency caller callee).summary? f = env.summary? f := rfl

/-- Recording a list of calls, one after the other. -/
theorem records_foldl_addDependency {names : List String} {f g : String} :
    (names.foldl (fun env callee => env.addDependency caller callee) env).Records f g ↔
      (f = caller ∧ g ∈ names) ∨ env.Records f g := by
  induction names generalizing env with
  | nil => simp
  | cons name names ih =>
    rw [List.foldl_cons, ih, records_addDependency, List.mem_cons, and_or_left, or_left_comm,
      or_assoc]

theorem summary?_foldl_addDependency {names : List String} {f : String} :
    (names.foldl (fun env callee => env.addDependency caller callee) env).summary? f =
      env.summary? f := by
  induction names generalizing env with
  | nil => rfl
  | cons name names ih => rw [List.foldl_cons, ih, summary?_addDependency]

/-- Adding a summary records the calls it makes, and forgets none. -/
theorem records_addSummary {s : Summary} {f g : String} :
    (env.addSummary s).Records f g ↔ (f = s.name ∧ g ∈ s.callees.keys) ∨ env.Records f g :=
  records_foldl_addDependency

/-- Adding a summary replaces that of its function, and touches no other. -/
theorem summary?_addSummary {s : Summary} {f : String} :
    (env.addSummary s).summary? f = if s.name = f then some s else env.summary? f := by
  have hold : (s.callees.keys.foldl (fun env callee => env.addDependency s.name callee)
      env).summary? f = env.summary? f := summary?_foldl_addDependency
  unfold summary? at hold ⊢
  simp only [addSummary, Table.get?_insert, hold]

/-- Dropping a function forgets the calls that it makes, not those of it. -/
theorem records_drop {f g : String} :
    (env.drop function).Records f g ↔ f ≠ function ∧ env.Records f g := by
  by_cases hf : f = function
  · simp [Records, drop, calleesOf, hf, Table.contains]
  · simp [Records, drop, calleesOf, hf, Ne.symm hf]

/-- Dropping a function takes away its summary, and touches no other. -/
theorem summary?_drop {f : String} :
    (env.drop function).summary? f = if function = f then none else env.summary? f := by
  simp [summary?, drop]

/-- A recorded caller is one of the callers. -/
theorem mem_callersOf_of_records (h : env.Records caller callee) :
    caller ∈ env.callersOf callee := by
  unfold Records calleesOf at h
  cases hcallees : env.dependencies.get? caller with
  | none =>
    rw [hcallees] at h
    simp [Table.contains] at h
  | some callees =>
    rw [hcallees] at h
    have hentry := Table.mem_entries_of_get? hcallees
    exact List.mem_map.2 ⟨(caller, callees), List.mem_filter.2 ⟨hentry, h⟩, rfl⟩

/-! ### What keeps the records complete -/

/-- Recording more calls leaves all calls of summaries recorded. -/
theorem Recorded.addDependency (h : env.Recorded) (caller callee : String) :
    (env.addDependency caller callee).Recorded := by
  intro f s hs g hg
  rw [summary?_addDependency] at hs
  exact records_addDependency.2 (.inr (h f s hs g hg))

/-- Adding a summary records its own calls, so all calls of summaries stay recorded. -/
theorem Recorded.addSummary (h : env.Recorded) (s : Summary) : (env.addSummary s).Recorded := by
  intro f t ht g hg
  rw [summary?_addSummary] at ht
  rw [records_addSummary]
  by_cases hf : s.name = f
  · rw [if_pos hf] at ht
    cases ht
    exact .inl ⟨hf.symm, hg⟩
  · -- A summary of another name is as it was, and so are its records.
    rw [if_neg hf] at ht
    exact .inr (h f t ht g hg)

/-- A dropped function takes its calls along, so all calls of summaries stay recorded. -/
theorem Recorded.drop (h : env.Recorded) (function : String) : (env.drop function).Recorded := by
  intro f s hs g hg
  rw [summary?_drop] at hs
  by_cases hf : function = f
  · rw [if_pos hf] at hs
    cases hs
  · rw [if_neg hf] at hs
    exact records_drop.2 ⟨Ne.symm hf, h f s hs g hg⟩

/-! ## Derivations of an invalidation -/

/-- Dropping the pending functions, the first one first: the functions dropped, in order, and the
environment that is left. -/
inductive Invalidates : Environment → List String → List String → Environment → Prop where
  | nil (env : Environment) : Invalidates env [] [] env
  /-- A function without a summary is passed over. -/
  | pass {env env' : Environment} {function : String} {rest dropped : List String}
      (hnone : env.summary? function = none) (tail : Invalidates env rest dropped env') :
      Invalidates env (function :: rest) dropped env'
  /-- A function with a summary loses it, and its callers are pending from then on. -/
  | drop {env env' : Environment} {function : String} {rest dropped : List String} {s : Summary}
      (hsome : env.summary? function = some s)
      (tail : Invalidates (env.drop function)
        (((env.drop function).callersOf function).reverse ++ rest) dropped env') :
      Invalidates env (function :: rest) (function :: dropped) env'

/-- The recursion of `invalidateAll` is the relation `Invalidates`. -/
theorem invalidates_invalidateAll (env : Environment) (pending : List String) :
    Invalidates env pending (env.invalidateAll pending).1 (env.invalidateAll pending).2 := by
  induction env, pending using invalidateAll.induct with
  | case1 env =>
    rw [invalidateAll]
    exact .nil env
  | case2 env function rest hsome _ env' dropped env'' _ ih =>
    obtain ⟨s, hs⟩ := Option.isSome_iff_exists.1 hsome
    rw [invalidateAll, dif_pos hsome]
    exact .drop hs ih
  | case3 env function rest hnone ih =>
    rw [invalidateAll, dif_neg hnone]
    exact .pass (Option.not_isSome_iff_eq_none.1 hnone) ih

/-- The pending functions are dropped in one way only. -/
theorem Invalidates.invalidateAll_eq {pending dropped : List String}
    (h : Invalidates env pending dropped env') : env.invalidateAll pending = (dropped, env') := by
  induction h with
  | nil env => rw [invalidateAll]
  | pass hnone tail ih =>
    rw [invalidateAll, dif_neg (by simp [hnone]), ih]
  | drop hsome tail ih =>
    rw [invalidateAll, dif_pos (by simp [hsome])]
    simp only [ih]

namespace Invalidates

variable {pending dropped : List String} {f g : String}

/-- Summaries are dropped, and never changed. -/
theorem summary?_eq_some (h : Invalidates env pending dropped env') {s : Summary}
    (hs : env'.summary? f = some s) : env.summary? f = some s := by
  induction h with
  | nil env => exact hs
  | pass _ _ ih => exact ih hs
  | @drop env env' function rest dropped t _ _ ih =>
    have hdrop := ih hs
    rw [summary?_drop] at hdrop
    by_cases hf : function = f
    · rw [if_pos hf] at hdrop
      cases hdrop
    · rwa [if_neg hf] at hdrop

/-- Invalidation makes no summary. -/
theorem summary?_eq_none (h : Invalidates env pending dropped env')
    (hnone : env.summary? f = none) : env'.summary? f = none := by
  cases hs : env'.summary? f with
  | none => rfl
  | some s =>
    rw [h.summary?_eq_some hs] at hnone
    cases hnone

/-- A function that is pending has no summary in the end. -/
theorem summary?_of_mem_pending (h : Invalidates env pending dropped env') (hf : f ∈ pending) :
    env'.summary? f = none := by
  induction h with
  | nil => exact absurd hf List.not_mem_nil
  | pass hnone tail ih =>
    rcases List.mem_cons.1 hf with rfl | hf
    · exact tail.summary?_eq_none hnone
    · exact ih hf
  | drop _ tail ih =>
    rcases List.mem_cons.1 hf with rfl | hf
    · exact tail.summary?_eq_none (by rw [summary?_drop, if_pos rfl])
    · exact ih (List.mem_append_right _ hf)

/-- A function that keeps its summary is recorded to call only functions of which the same is
known as before: none of those was dropped. -/
theorem summary?_of_records (h : Invalidates env pending dropped env') {s : Summary}
    (hs : env'.summary? f = some s) (hrecords : env.Records f g) :
    env'.summary? g = env.summary? g := by
  induction h with
  | nil => rfl
  | pass _ _ ih => exact ih hs hrecords
  | @drop env env' function rest dropped t hsome tail ih =>
    -- `f` is not the one that is dropped here, so what it calls is still recorded.
    have hkept := tail.summary?_eq_some hs
    have hf : f ≠ function := by
      rintro rfl
      rw [summary?_drop, if_pos rfl] at hkept
      cases hkept
    have hrecords' : (env.drop function).Records f g := records_drop.2 ⟨hf, hrecords⟩
    by_cases hg : function = g
    · -- If `g` were dropped here, its caller `f` would be pending.
      have hpending : f ∈ ((env.drop function).callersOf function).reverse ++ rest := by
        rw [List.mem_append, List.mem_reverse]
        exact .inl (mem_callersOf_of_records (hg ▸ hrecords'))
      rw [tail.summary?_of_mem_pending hpending] at hs
      cases hs
    · rw [ih hs hrecords', summary?_drop, if_neg hg]

/-- Invalidation leaves all calls of summaries recorded. -/
theorem recorded (h : Invalidates env pending dropped env') (hrecorded : env.Recorded) :
    env'.Recorded := by
  induction h with
  | nil => exact hrecorded
  | pass _ _ ih => exact ih hrecorded
  | drop _ _ ih => exact ih (hrecorded.drop _)

end Invalidates

/-! ## Histories -/

/-- The environments that come about from the empty one: by adding summaries, over others of the
same name or not, by recording calls, and by invalidating functions. -/
inductive Reachable : Environment → Prop where
  | empty : Reachable empty
  | addSummary {env : Environment} (s : Summary) (h : Reachable env) : Reachable (env.addSummary s)
  | addDependency {env : Environment} (caller callee : String) (h : Reachable env) :
      Reachable (env.addDependency caller callee)
  | invalidate {env : Environment} (function : String) (h : Reachable env) :
      Reachable (env.invalidate function).2

/-- In every environment that can be reached, the calls of summaries are recorded. -/
theorem Reachable.recorded (h : env.Reachable) : env.Recorded := by
  induction h with
  | empty =>
    intro f s hs
    cases hs
  | addSummary s _ ih => exact ih.addSummary s
  | addDependency caller callee _ ih => exact ih.addDependency caller callee
  | invalidate function _ ih => exact (invalidates_invalidateAll _ [function]).recorded ih

/-! ## Survivors -/

/-- Filling in calls looks up the functions that are called, those that they call, and so on. -/
theorem expand_congr
    (hclosed : ∀ f s, env.summary? f = some s → ∀ g ∈ s.callees.keys,
      env'.summary? g = env.summary? g)
    (caller : String) (naming : Naming) (stack : List String) (n : Nat)
    (constraints : List Constraint)
    (hcalls : ∀ g result operands, .call g result operands ∈ constraints →
      env'.summary? g = env.summary? g) :
    env'.expand caller naming stack n constraints =
      env.expand caller naming stack n constraints := by
  induction caller, naming, stack, n, constraints using expand.induct env with
  | case1 caller naming stack n => rw [expand, expand]
  | case2 caller naming stack n v rest ih =>
    rw [expand, expand, ih fun g r os hmem => hcalls g r os (List.mem_cons_of_mem _ hmem)]
  | case3 caller naming stack n function result operands rest hsummary ih =>
    have hsame := hcalls function result operands List.mem_cons_self
    have hrest := ih fun g r os hmem => hcalls g r os (List.mem_cons_of_mem _ hmem)
    rw [expand_unknown hsummary, expand_unknown (hsame.trans hsummary), hrest]
  | case4 caller naming stack n function result operands rest callee hsummary hstack ih =>
    have hsame := hcalls function result operands List.mem_cons_self
    have hrest := ih fun g r os hmem => hcalls g r os (List.mem_cons_of_mem _ hmem)
    rw [expand_recursive hsummary hstack, expand_recursive (hsame.trans hsummary) hstack, hrest]
  | case5 caller naming stack n function result operands rest callee hsummary hstack hlen =>
    have hsame := hcalls function result operands List.mem_cons_self
    rw [expand_mismatch hsummary hstack hlen, expand_mismatch (hsame.trans hsummary) hstack hlen]
  | case6 caller naming stack n function result operands rest callee hsummary hstack hlen _ _ ihbody
      ihtail
  | case7 caller naming stack n function result operands rest callee hsummary hstack hlen _ _ ihbody
      ihtail =>
    have hlen := Decidable.not_not.1 hlen
    have hsame := hcalls function result operands List.mem_cons_self
    have hbody := ihbody fun g r os hmem =>
      hclosed function callee hsummary g (Summary.mem_callees_of_call hmem)
    have hrest := fun m =>
      ihtail m fun g r os hmem => hcalls g r os (List.mem_cons_of_mem _ hmem)
    rw [expand_filled hsummary hstack hlen, expand_filled (hsame.trans hsummary) hstack hlen]
    simp only [callSite, hbody, hrest]

/-- What survives an invalidation keeps its meaning: a function that still has a summary has the
same facts as before, under the same fresh names, or the same error, and the same log. -/
theorem instantiate_invalidate (h : env.Reachable) (function : String) {survivor : String}
    (hsurvivor : ((env.invalidate function).2.summary? survivor).isSome = true) :
    (env.invalidate function).2.instantiate survivor = env.instantiate survivor := by
  have hrecorded := h.recorded
  have hinvalidates := invalidates_invalidateAll env [function]
  obtain ⟨s, hs⟩ := Option.isSome_iff_exists.1 hsurvivor
  -- The functions that a survivor calls are as they were.
  have hclosed : ∀ f t, (env.invalidate function).2.summary? f = some t → ∀ g ∈ t.callees.keys,
      env.summary? g = (env.invalidate function).2.summary? g := by
    intro f t ht g hg
    have hrecords := hrecorded f t (hinvalidates.summary?_eq_some ht) g hg
    exact (hinvalidates.summary?_of_records ht hrecords).symm
  have hbefore : env.summary? survivor = some s := hinvalidates.summary?_eq_some hs
  have hexpand := expand_congr hclosed s.name .root [survivor] 0 s.constraints
    fun g r os hmem => hclosed survivor s hs g (Summary.mem_callees_of_call hmem)
  simp only [instantiate, hs, hbefore, hexpand]

/-- Everybody calls `leaf`; `right` has called `left` before its summary was replaced, and `other`
calls itself. -/
def sharedLeaf : Environment :=
  ((((empty.addSummary
    ⟨"leaf", ["%a"], [], [.holds (.equals (.rankOf "%a") (.rankOf "%l"))]⟩).addSummary
    ⟨"left", ["%p"], [], [.call "leaf" "%r" ["%p"]]⟩).addSummary
    ⟨"right", ["%q"], [], [.call "left" "%r" ["%q"]]⟩).addSummary
    ⟨"right", ["%q"], [], [.call "leaf" "%r" ["%q"]]⟩).addSummary
    ⟨"other", ["%x"], [], [.call "leaf" "%r" ["%x"], .call "other" "%s" ["%x"]]⟩

/-- Without `left` the function `right` goes too, as its first summary is on record, and `other` has
the facts that it had. -/
theorem instantiate_invalidate_sharedLeaf :
    sharedLeaf.Reachable ∧ (sharedLeaf.invalidate "left").1 = ["left", "right"] ∧
    (sharedLeaf.invalidate "left").2.instantiate "other" = sharedLeaf.instantiate "other" ∧
    (sharedLeaf.instantiate "other").outcome =
      .ok [.equals (.rankOf "%x") (.rankOf "leaf#0::%l")] := by
  have hreachable : sharedLeaf.Reachable :=
    .addSummary _ (.addSummary _ (.addSummary _ (.addSummary _ (.addSummary _ .empty))))
  have hinvalidates : Invalidates sharedLeaf ["left"] ["left", "right"]
      ((sharedLeaf.drop "left").drop "right") := .drop rfl (.drop rfl (.nil _))
  have hinvalidate : sharedLeaf.invalidate "left" = _ := hinvalidates.invalidateAll_eq
  have hexpands : sharedLeaf.Expands .root ["other"] 0
      [.call "leaf" "%r" ["%x"], .call "other" "%s" ["%x"]] _ _ :=
    .filled rfl (by decide) rfl (.holds _ (.nil ..)) (.recursive _ _ (by decide) (.nil ..))
  refine ⟨hreachable, congrArg Prod.fst hinvalidate, ?_,
    outcome_instantiate_of_expands rfl hexpands⟩
  refine instantiate_invalidate hreachable "left" ?_
  rw [hinvalidate]
  decide

end Environment

end TensorShape
