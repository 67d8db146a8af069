import TensorShape.Proofs.CallerClosure

/-!
# TensorShape.Proofs.CallRecords

What the recorded calls say of the summaries of an environment, and what an invalidation misses.

Records are added with each summary and erased with it, but a summary that is stored over another
leaves the records of the other in place. So the records of a function are the calls of all
summaries that were stored under its name since it was last dropped (`records_built_iff`), and not
of the latest alone: `calleesOf_built_iff` says when the two are the same.

An invalidation follows the records backwards as long as it meets summaries. A function without one
is passed over, and whoever calls it is not looked at, so a caller may survive: `leavesNoCaller_iff`
says when none does.

* `Edit`, `built` and `stored` are a history, what it leads to and what it has stored;
* `calleesOf_replaced_ne` and `not_leavesNoCaller`: old records stay, and callers are missed.
-/

namespace TensorShape

namespace Environment

variable {env : Environment} {function f g : String}

/-- A call is recorded if the callee is listed for the caller. -/
theorem records_iff_mem_keys : env.Records f g ↔ g ∈ (env.calleesOf f).keys := by
  rw [Table.mem_keys_iff]
  rfl

/-! ## Histories -/

/-- A change of the summaries of an environment. -/
inductive Edit where
  /-- Store a summary, over one of the same name if there is one. -/
  | store (s : Summary)
  | invalidate (function : String)

/-- The environment that edits make of the empty one. The latest edit stands first. -/
def built : List Edit → Environment
  | [] => empty
  | .store s :: past => (built past).addSummary s
  | .invalidate function :: past => ((built past).invalidate function).2

/-- The summaries that were stored under a name since it was last dropped, the latest first. -/
def stored (f : String) : List Edit → List Summary
  | [] => []
  | .store s :: past => if s.name = f then s :: stored f past else stored f past
  | .invalidate function :: past =>
    if f ∈ ((built past).invalidate function).1 then [] else stored f past

variable {edits : List Edit}

theorem reachable_built (edits : List Edit) : (built edits).Reachable := by
  induction edits with
  | nil => exact .empty
  | cons e past ih =>
    cases e with
    | store s => exact .addSummary s ih
    | invalidate function => exact .invalidate function ih

/-- The latest summary that was stored counts. -/
theorem summary?_built (edits : List Edit) (f : String) :
    (built edits).summary? f = (stored f edits).head? := by
  induction edits with
  | nil => rfl
  | cons e past ih =>
    cases e with
    | store s =>
      rw [built, summary?_addSummary, ih]
      by_cases hname : s.name = f <;> simp [stored, hname]
    | invalidate function =>
      have hget : ((built past).invalidate function).2.summary? f =
          if f ∈ ((built past).invalidate function).1 then none else (built past).summary? f :=
        (invalidates_invalidate (built past) function).summaries_get? f
      rw [built, hget, ih]
      by_cases hf : f ∈ ((built past).invalidate function).1 <;> simp [stored, hf]

/-- Invalidation forgets the calls that dropped functions make, and no others. -/
theorem records_invalidate_iff : (env.invalidate function).2.Records f g ↔
    f ∉ (env.invalidate function).1 ∧ env.Records f g := by
  have hget := (invalidates_invalidate env function).dependencies_get? f
  by_cases hf : f ∈ (env.invalidate function).1
  · simp [Records, calleesOf, hget, hf, Table.contains]
  · simp [Records, calleesOf, hget, hf]

/-- The calls of every summary that was stored count. -/
theorem records_built_iff :
    (built edits).Records f g ↔ ∃ s ∈ stored f edits, g ∈ s.callees.keys := by
  induction edits with
  | nil => simp [built, stored, Records, calleesOf, empty, Table.contains]
  | cons e past ih =>
    cases e with
    | store s =>
      rw [built, records_addSummary, ih]
      by_cases hname : s.name = f
      · simp [stored, hname]
      · simp [stored, hname, Ne.symm hname]
    | invalidate function =>
      rw [built, records_invalidate_iff, ih]
      by_cases hf : f ∈ ((built past).invalidate function).1 <;> simp [stored, hf]

/-- Without other records than those of summaries, only summarized functions have any. -/
theorem summarized_of_records_built (h : (built edits).Records f g) :
    (built edits).Summarized f := by
  obtain ⟨s, hs, -⟩ := records_built_iff.1 h
  rw [Summarized, summary?_built, List.isSome_head?]
  exact List.ne_nil_of_mem hs

/-! ## Records and current summaries -/

/-- The functions that the current summary of a function calls; none without a summary. -/
def currentCallees (env : Environment) (f : String) : NameSet :=
  ((env.summary? f).map Summary.callees).getD ∅

/-- The calls of the summary that a function has now are recorded. -/
theorem Recorded.records_of_mem_currentCallees (h : env.Recorded)
    (hg : g ∈ (env.currentCallees f).keys) : env.Records f g := by
  unfold currentCallees at hg
  cases hs : env.summary? f with
  | none =>
    rw [hs] at hg
    exact absurd hg List.not_mem_nil
  | some s =>
    rw [hs] at hg
    exact h f s hs g hg

/-- The records of a function are the calls of all summaries stored under its name since it was last
dropped, none if it has no summary; so they are the calls of its current summary exactly if every
call of those that it replaced is also one of its own. -/
theorem calleesOf_built_iff (edits : List Edit) (f : String) :
    (∀ g, g ∈ ((built edits).calleesOf f).keys ↔ ∃ s ∈ stored f edits, g ∈ s.callees.keys) ∧
    (built edits).summary? f = (stored f edits).head? ∧
    ((built edits).summary? f = none → (built edits).calleesOf f = ∅) ∧
    ((built edits).calleesOf f = (built edits).currentCallees f ↔
      ∀ s ∈ stored f edits, ∀ g ∈ s.callees.keys, g ∈ ((built edits).currentCallees f).keys) := by
  have hkeys : ∀ g, g ∈ ((built edits).calleesOf f).keys ↔
      ∃ s ∈ stored f edits, g ∈ s.callees.keys := fun g => by
    rw [← records_iff_mem_keys, records_built_iff]
  have hrecorded : (built edits).Recorded := (reachable_built edits).recorded
  refine ⟨hkeys, summary?_built edits f, fun hnone => NameSet.ext_keys fun g => ?_, ?_, ?_⟩
  · have hnot : ¬(built edits).Records f g := fun hrecords => by
      have hsummary := summarized_of_records_built hrecords
      simp [Summarized, hnone] at hsummary
    rw [records_iff_mem_keys] at hnot
    exact iff_of_false hnot List.not_mem_nil
  · intro heq s hs g hg
    rw [← heq]
    exact (hkeys g).2 ⟨s, hs, hg⟩
  · intro hsame
    refine NameSet.ext_keys fun g => ⟨fun hg => ?_, fun hg => ?_⟩
    · obtain ⟨s, hs, hmem⟩ := (hkeys g).1 hg
      exact hsame s hs g hmem
    · exact records_iff_mem_keys.1 (hrecorded.records_of_mem_currentCallees hg)

/-- A summary that calls `g`, and then one in its place that calls nothing. -/
def replacedMain : List Edit :=
  [.store ⟨"main", [], [], []⟩, .store ⟨"main", [], [], [.call "g" "%r" []]⟩]

/-- The call of the summary that was replaced is still on record. -/
theorem calleesOf_replaced_ne :
    ((built replacedMain).currentCallees "main").keys = [] ∧
    ((built replacedMain).calleesOf "main").keys = ["g"] ∧
    (built replacedMain).calleesOf "main" ≠ (built replacedMain).currentCallees "main" := by
  decide

/-! ## Callers that survive -/

/-- No function that keeps its summary when `function` is invalidated leads to it by the calls that
were on record before. -/
def LeavesNoCaller (env : Environment) (function : String) : Prop :=
  ∀ g, (env.invalidate function).2.Summarized g → ¬Relation.ReflTransGen env.Records g function

/-- Invalidation leaves the summaries of the functions that do not rely on the one that changed. -/
theorem summarized_invalidate_iff : (env.invalidate function).2.Summarized g ↔
    env.Summarized g ∧ ¬Relation.ReflTransGen env.Relays g function := by
  have hdropped := (invalidates_invalidate env function).mem_dropped_iff (f := g)
  rw [mem_invalidate_iff] at hdropped
  have hkept : (env.invalidate function).2.Summarized g → env.Summarized g := fun h => by
    obtain ⟨s, hs⟩ := Option.isSome_iff_exists.1 h
    simp [Summarized, (invalidates_invalidate env function).summary?_eq_some hs]
  tauto

/-- The last function of a path through summarized functions has a summary, if it is not the only
one. -/
theorem summarized_of_relays (h : Relation.ReflTransGen env.Relays g function)
    (hne : g ≠ function) : env.Summarized function := by
  cases h with
  | refl => exact absurd rfl hne
  | tail _ hlast => exact hlast.2

/-- Where only summarized functions have records, a path to a summarized function is one through
summarized functions. -/
theorem relays_of_records (hcallers : ∀ f g, env.Records f g → env.Summarized f)
    (hfunction : env.Summarized function) (h : Relation.ReflTransGen env.Records g function) :
    Relation.ReflTransGen env.Relays g function := by
  induction h using Relation.ReflTransGen.head_induction_on with
  | refl => exact .refl
  | @head f g hrecords htail ih =>
    have hg : env.Summarized g := by
      rcases htail.cases_head with rfl | ⟨_, hnext, _⟩
      · exact hfunction
      · exact hcallers _ _ hnext
    exact .head ⟨hrecords, hg⟩ ih

/-- An invalidation leaves no caller exactly if every summarized function that leads to the function
leads to it through functions with summaries. In a history without other records than those of
summaries, that is: if the function has a summary itself, or nobody is recorded to call it. -/
theorem leavesNoCaller_iff (function : String) :
    (∀ env : Environment, env.LeavesNoCaller function ↔
      ∀ g, env.Summarized g → Relation.ReflTransGen env.Records g function →
        Relation.ReflTransGen env.Relays g function) ∧
    (∀ edits, (built edits).LeavesNoCaller function ↔
      (built edits).Summarized function ∨ ∀ g, ¬(built edits).Records g function) := by
  have hgeneral : ∀ env : Environment, env.LeavesNoCaller function ↔
      ∀ g, env.Summarized g → Relation.ReflTransGen env.Records g function →
        Relation.ReflTransGen env.Relays g function := by
    intro env
    simp only [LeavesNoCaller, summarized_invalidate_iff, and_imp]
    exact forall_congr' fun g => ⟨fun h hg hpath => not_not.1 fun hnot => h hg hnot hpath,
      fun h hg hnot hpath => hnot (h hg hpath)⟩
  refine ⟨hgeneral, fun edits => ?_⟩
  have hcallers : ∀ f g, (built edits).Records f g → (built edits).Summarized f :=
    fun f g => summarized_of_records_built
  rw [hgeneral]
  constructor
  · intro h
    by_contra hcontra
    obtain ⟨hfunction, hcalled⟩ := not_or.1 hcontra
    obtain ⟨g, hg⟩ := not_forall_not.1 hcalled
    have hpath := h g (hcallers g function hg) (.single hg)
    have hne : g ≠ function := fun heq => hfunction (heq ▸ hcallers g function hg)
    exact hfunction (summarized_of_relays hpath hne)
  · rintro (hfunction | hcalled) g hg hpath
    · exact relays_of_records hcallers hfunction hpath
    · -- Nobody calls the function, so the path is empty.
      rcases hpath.cases_tail with heq | ⟨f, _, hlast⟩
      · exact heq ▸ .refl
      · exact absurd hlast (hcalled f)

/-- `main` calls `g`, which has no summary. -/
def opaqueCallee : Environment := empty.addSummary ⟨"main", [], [], [.call "g" "%r" []]⟩

/-- `main` calls `mid`, which has no summary but is recorded to call `leaf`. -/
def opaqueBetween : Environment :=
  ((empty.addSummary ⟨"leaf", [], [], []⟩).addSummary
    ⟨"main", [], [], [.call "mid" "%r" []]⟩).addDependency "mid" "leaf"

/-- Callers are missed where a function without a summary is met: the one to invalidate, or one on
the way from it to a caller. -/
theorem not_leavesNoCaller :
    (opaqueCallee.Reachable ∧ (opaqueCallee.invalidate "g").1 = [] ∧
      ¬opaqueCallee.LeavesNoCaller "g") ∧
    (opaqueBetween.Reachable ∧ (opaqueBetween.invalidate "leaf").1 = ["leaf"] ∧
      ¬opaqueBetween.LeavesNoCaller "leaf") := by
  have hcallee : opaqueCallee.invalidate "g" = ([], opaqueCallee) :=
    (Invalidates.pass rfl (.nil _)).invalidateAll_eq
  have hbetween : opaqueBetween.invalidate "leaf" = (["leaf"], opaqueBetween.drop "leaf") :=
    (Invalidates.drop rfl (.pass rfl (.nil _))).invalidateAll_eq
  have hdirect : Relation.ReflTransGen opaqueCallee.Records "main" "g" := .single rfl
  have hthrough : Relation.ReflTransGen opaqueBetween.Records "main" "leaf" :=
    .head (show opaqueBetween.Records "main" "mid" from rfl) (.single rfl)
  refine ⟨⟨.addSummary _ .empty, by rw [hcallee], fun h => h "main" ?_ hdirect⟩,
    ⟨.addDependency _ _ (.addSummary _ (.addSummary _ .empty)), by rw [hbetween],
      fun h => h "main" ?_ hthrough⟩⟩
  · rw [hcallee]
    rfl
  · rw [hbetween]
    rfl

end Environment

end TensorShape
