import Mathlib.Data.List.Perm.Subperm
import TensorShape.Proofs.Expansion

/-!
# TensorShape.Proofs.CallStack

Filling in calls ends, and its stack is always a chain of distinct functions.

`Runs` describes the filling in as work done in place: there is one stack, on which a function is
put before its constraints are gone through and from which the top is taken off afterwards, one list
of facts, and one count of the fresh names drawn. A run that stops at an error leaves all three as
they are. On the way each function that is gone through is a `Visit`.

* `Runs.stack_eq`: a run that succeeds leaves the stack as it was. It is this that makes
  `exists_runs` go through: every run ends, by recursion on the summarized functions that are not on
  the stack and on the constraints that are left.
* `Runs.outcome_expand`: `Environment.expand`, which hands the stack down instead, comes to the
  same.
* `Runs.visit_sound`: every visit finds a stack in order (`Visit.Sound`).
-/

namespace TensorShape

namespace Environment

/-! ## Runs -/

/-- What filling in calls changes as it goes. -/
structure Progress where
  /-- The functions being filled in, the last one last. -/
  stack : List String
  /-- The number of fresh names drawn. -/
  drawn : Nat
  facts : List Value

/-- One function gone through, from when it is entered to when it is left. -/
structure Visit where
  summary : Summary
  before : List String
  after : List String
  result : Except CallError Unit

/-- Filling in the calls of a list of constraints in place, with the visits on the way. -/
inductive Runs (env : Environment) :
    Naming → List Constraint → Progress → List Visit → Progress → Except CallError Unit → Prop where
  | nil (naming : Naming) (p : Progress) : Runs env naming [] p [] p (.ok ())
  | holds {naming : Naming} {rest : List Constraint} {p p' : Progress} {visits : List Visit}
      {result : Except CallError Unit} (v : Value)
      (tail : Runs env naming rest
        { p with facts := p.facts ++ [v.mapRegisters naming.name] } visits p' result) :
      Runs env naming (.holds v :: rest) p visits p' result
  | unknown {naming : Naming} {rest : List Constraint} {p p' : Progress} {visits : List Visit}
      {result : Except CallError Unit} {function : String} (register : Register)
      (operands : List Register) (hsummary : env.summary? function = none)
      (tail : Runs env naming rest p visits p' result) :
      Runs env naming (.call function register operands :: rest) p visits p' result
  | recursive {naming : Naming} {rest : List Constraint} {p p' : Progress} {visits : List Visit}
      {result : Except CallError Unit} {function : String} (register : Register)
      (operands : List Register) (hstack : function ∈ p.stack)
      (tail : Runs env naming rest p visits p' result) :
      Runs env naming (.call function register operands :: rest) p visits p' result
  | mismatch {naming : Naming} {p : Progress} {function : String} {operands : List Register}
      {callee : Summary} (register : Register) (rest : List Constraint)
      (hsummary : env.summary? function = some callee) (hstack : function ∉ p.stack)
      (hlen : callee.params.length ≠ operands.length) :
      Runs env naming (.call function register operands :: rest) p [] p
        (.error (.arityMismatch function callee.params.length operands.length))
  /-- The function is put on the stack, gone through and taken off. -/
  | filled {naming : Naming} {rest : List Constraint} {p p₁ p₂ : Progress}
      {inner visits : List Visit} {result : Except CallError Unit} {function : String}
      {register : Register} {operands : List Register} {callee : Summary}
      (hsummary : env.summary? function = some callee) (hstack : function ∉ p.stack)
      (hlen : callee.params.length = operands.length)
      (body : Runs env (naming.atCall callee (callSite function p.drawn) register operands)
        callee.constraints ⟨p.stack ++ [function], p.drawn + 1, p.facts⟩ inner p₁ (.ok ()))
      (tail : Runs env naming rest { p₁ with stack := p₁.stack.dropLast } visits p₂ result) :
      Runs env naming (.call function register operands :: rest) p
        (⟨callee, p.stack ++ [function], p₁.stack, .ok ()⟩ :: (inner ++ visits)) p₂ result
  /-- An error inside ends the run. -/
  | failed {naming : Naming} {p p₁ : Progress} {inner : List Visit} {e : CallError}
      {function : String} {register : Register} {operands : List Register} {callee : Summary}
      (rest : List Constraint) (hsummary : env.summary? function = some callee)
      (hstack : function ∉ p.stack) (hlen : callee.params.length = operands.length)
      (body : Runs env (naming.atCall callee (callSite function p.drawn) register operands)
        callee.constraints ⟨p.stack ++ [function], p.drawn + 1, p.facts⟩ inner p₁ (.error e)) :
      Runs env naming (.call function register operands :: rest) p
        (⟨callee, p.stack ++ [function], p₁.stack, .error e⟩ :: inner) p₁ (.error e)

namespace Runs

variable {env : Environment} {naming : Naming} {constraints : List Constraint} {p p' : Progress}
  {visits : List Visit} {result : Except CallError Unit}

/-- What was put on the stack has been taken off. -/
theorem stack_eq (h : env.Runs naming constraints p visits p' (.ok ())) : p'.stack = p.stack := by
  generalize hresult : (.ok () : Except CallError Unit) = result at h
  induction h with
  | nil naming p => rfl
  | holds v tail ih => exact ih hresult
  | unknown register operands hsummary tail ih => exact ih hresult
  | recursive register operands hstack tail ih => exact ih hresult
  | mismatch register rest hsummary hstack hlen => cases hresult
  | filled hsummary hstack hlen body tail ihbody ihtail =>
    have hbody := ihbody rfl
    have htail := ihtail hresult
    simp only [hbody, List.dropLast_concat] at htail
    exact htail
  | failed rest hsummary hstack hlen body ih => cases hresult

/-- One fresh name is drawn for each visit. -/
theorem drawn_eq (h : env.Runs naming constraints p visits p' result) :
    p'.drawn = p.drawn + visits.length := by
  induction h with
  | nil naming p => rfl
  | holds v tail ih => exact ih
  | unknown register operands hsummary tail ih => exact ih
  | recursive register operands hstack tail ih => exact ih
  | mismatch register rest hsummary hstack hlen => rfl
  | filled hsummary hstack hlen body tail ihbody ihtail =>
    simp only [List.length_cons, List.length_append] at ihbody ihtail ⊢
    omega
  | failed rest hsummary hstack hlen body ih =>
    simp only [List.length_cons] at ih ⊢
    omega

/-- The facts and the next fresh number are those of `Environment.expand`, and so is the error. -/
theorem outcome_expand (h : env.Runs naming constraints p visits p' result) (caller : String) :
    ∃ facts, p'.facts = p.facts ++ facts ∧
      (env.expand caller naming p.stack p.drawn constraints).outcome =
        result.map fun _ => (facts, p'.drawn) := by
  induction h generalizing caller with
  | nil naming p => exact ⟨[], by simp, by rw [expand]; rfl⟩
  | @holds naming rest p p' visits result v tail ih =>
    obtain ⟨facts, hfacts, houtcome⟩ := ih caller
    refine ⟨v.mapRegisters naming.name :: facts, by simp [hfacts], ?_⟩
    rw [expand, Report.outcome_bind, houtcome]
    cases result <;> rfl
  | unknown register operands hsummary tail ih =>
    obtain ⟨facts, hfacts, houtcome⟩ := ih caller
    exact ⟨facts, hfacts, by rw [outcome_expand_unknown hsummary, houtcome]⟩
  | recursive register operands hstack tail ih =>
    obtain ⟨facts, hfacts, houtcome⟩ := ih caller
    exact ⟨facts, hfacts, by rw [outcome_expand_recursive hstack, houtcome]⟩
  | mismatch register rest hsummary hstack hlen =>
    exact ⟨[], by simp, outcome_expand_mismatch hsummary hstack hlen⟩
  | @filled naming rest p p₁ p₂ inner visits result function register operands callee hsummary
      hstack hlen body tail ihbody ihtail =>
    obtain ⟨innerFacts, hinner, hbody⟩ := ihbody callee.name
    obtain ⟨facts, hfacts, htail⟩ := ihtail caller
    simp only [body.stack_eq, List.dropLast_concat] at htail
    refine ⟨innerFacts ++ facts, by simp [hfacts, hinner], ?_⟩
    rw [outcome_expand_filled hsummary hstack hlen, Report.outcome_bind, hbody]
    change (env.expand caller naming p.stack p₁.drawn rest >>= fun q =>
      pure (innerFacts ++ q.1, q.2) : Report CallError (List Value × Nat)).outcome = _
    rw [Report.outcome_bind, htail]
    cases result <;> rfl
  | failed rest hsummary hstack hlen body ih =>
    obtain ⟨facts, hfacts, hbody⟩ := ih _
    refine ⟨facts, hfacts, ?_⟩
    rw [outcome_expand_filled hsummary hstack hlen, Report.outcome_bind, hbody]
    rfl

end Runs

/-! ## Every run ends -/

/-- Every list of constraints has a run, whether it ends well or with an error. -/
theorem exists_runs (env : Environment) (naming : Naming) (constraints : List Constraint)
    (p : Progress) : ∃ visits p' result, env.Runs naming constraints p visits p' result := by
  obtain ⟨stack, drawn, facts⟩ := p
  -- The caller is a name for the log only, so any will do.
  induction "", naming, stack, drawn, constraints using expand.induct env generalizing facts with
  | case1 caller naming stack n => exact ⟨_, _, _, .nil naming _⟩
  | case2 caller naming stack n v rest ih =>
    obtain ⟨visits, p', result, htail⟩ := ih (facts ++ [v.mapRegisters naming.name])
    exact ⟨visits, p', result, .holds v htail⟩
  | case3 caller naming stack n function register operands rest hsummary ih =>
    obtain ⟨visits, p', result, htail⟩ := ih facts
    exact ⟨visits, p', result, .unknown register operands hsummary htail⟩
  | case4 caller naming stack n function register operands rest callee hsummary hstack ih =>
    obtain ⟨visits, p', result, htail⟩ := ih facts
    exact ⟨visits, p', result, .recursive register operands hstack htail⟩
  | case5 caller naming stack n function register operands rest callee hsummary hstack hlen =>
    exact ⟨_, _, _, .mismatch register rest hsummary hstack hlen⟩
  | case6 caller naming stack n function _ _ rest callee hsummary hstack hlen _ _ ihbody ihtail
  | case7 caller naming stack n function _ _ rest callee hsummary hstack hlen _ _ ihbody ihtail =>
    have hlen := Decidable.not_not.1 hlen
    obtain ⟨inner, p₁, result, hbody⟩ := ihbody facts
    cases result with
    | error e => exact ⟨_, _, _, .failed rest hsummary hstack hlen hbody⟩
    | ok _ =>
      obtain ⟨visits, p₂, result, htail⟩ := ihtail p₁.drawn p₁.facts
      have htop : p₁.stack.dropLast = stack := by rw [hbody.stack_eq, List.dropLast_concat]
      rw [← htop] at htail
      exact ⟨_, p₂, result, .filled hsummary hstack hlen hbody htail⟩

/-! ## The stack -/

/-- The stack holds distinct functions that have summaries. -/
structure StackOk (env : Environment) (stack : List String) : Prop where
  distinct : stack.Nodup
  summarized : ∀ function ∈ stack, (env.summary? function).isSome = true

variable {env : Environment}

/-- A call that is filled in keeps the stack in order: the callee has a summary and was not on it.
-/
theorem StackOk.concat {stack : List String} (h : env.StackOk stack) {function : String}
    {callee : Summary} (hsummary : env.summary? function = some callee)
    (hstack : function ∉ stack) : env.StackOk (stack ++ [function]) := by
  constructor
  · rw [List.nodup_append]
    refine ⟨h.distinct, by simp, fun f hf g hg => ?_⟩
    rw [List.mem_singleton.1 hg]
    exact fun heq => hstack (heq ▸ hf)
  · intro f hf
    rcases List.mem_append.1 hf with hf | hf
    · exact h.summarized f hf
    · rw [List.mem_singleton.1 hf, hsummary]
      rfl

/-- Distinct functions with summaries are not more than there are summaries. -/
theorem StackOk.length_le {stack : List String} (h : env.StackOk stack) :
    stack.length ≤ env.functions.length :=
  (h.distinct.subperm fun f hf => (Table.mem_keys_iff env.summaries f).2
    (h.summarized f hf)).length_le

/-- A visit finds distinct functions with summaries on the stack, not more than there are summaries,
the one that it goes through last; and if it succeeds, it leaves the stack as it found it. -/
structure Visit.Sound (env : Environment) (v : Visit) : Prop where
  ok : env.StackOk v.before
  top : ∃ function, v.before.getLast? = some function ∧ env.summary? function = some v.summary
  bounded : v.before.length ≤ env.functions.length
  restored : v.result = .ok () → v.after = v.before

/-- The visit of a callee is sound if its body runs from the stack with the callee on top. -/
theorem Visit.sound_of_runs {stack : List String} (h : env.StackOk stack) {function : String}
    {callee : Summary} (hsummary : env.summary? function = some callee)
    (hstack : function ∉ stack) {naming : Naming} {n : Nat} {facts : List Value} {p' : Progress}
    {visits : List Visit} {result : Except CallError Unit}
    (hbody : env.Runs naming callee.constraints ⟨stack ++ [function], n, facts⟩ visits p' result) :
    Visit.Sound env ⟨callee, stack ++ [function], p'.stack, result⟩ where
  ok := h.concat hsummary hstack
  top := ⟨function, List.getLast?_concat, hsummary⟩
  bounded := (h.concat hsummary hstack).length_le
  restored hresult := by
    cases hresult
    exact hbody.stack_eq

/-- Every visit along a run is sound if the stack was in order at its start. -/
theorem Runs.visit_sound {naming : Naming} {constraints : List Constraint} {p p' : Progress}
    {visits : List Visit} {result : Except CallError Unit}
    (h : env.Runs naming constraints p visits p' result) (hstack : env.StackOk p.stack) :
    ∀ v ∈ visits, v.Sound env := by
  induction h with
  | nil naming p => exact fun v hv => absurd hv List.not_mem_nil
  | holds v tail ih => exact ih hstack
  | unknown register operands hsummary tail ih => exact ih hstack
  | recursive register operands hmem tail ih => exact ih hstack
  | mismatch register rest hsummary hmem hlen => exact fun v hv => absurd hv List.not_mem_nil
  | filled hsummary hmem hlen body tail ihbody ihtail =>
    intro v hv
    rcases List.mem_cons.1 hv with rfl | hv
    · exact Visit.sound_of_runs hstack hsummary hmem body
    · rcases List.mem_append.1 hv with hv | hv
      · exact ihbody (hstack.concat hsummary hmem) v hv
      · refine ihtail ?_ v hv
        simpa only [body.stack_eq, List.dropLast_concat] using hstack
  | failed rest hsummary hmem hlen body ih =>
    intro v hv
    rcases List.mem_cons.1 hv with rfl | hv
    · exact Visit.sound_of_runs hstack hsummary hmem body
    · exact ih (hstack.concat hsummary hmem) v hv

/-! ## Main result -/

/-- What a function is answered with is what its run comes to. -/
theorem instantiate_eq_of_runs {function : String} {s : Summary}
    (hsummary : env.summary? function = some s) {visits : List Visit} {p : Progress}
    {result : Except CallError Unit}
    (h : env.Runs .root s.constraints ⟨[function], 0, []⟩ visits p result) :
    (env.expand s.name .root [function] 0 s.constraints).outcome =
        result.map (fun _ => (p.facts, p.drawn)) ∧
      (env.instantiate function).outcome = result.map fun _ => p.facts := by
  obtain ⟨facts, hfacts, houtcome⟩ := h.outcome_expand s.name
  have heq : p.facts = facts := hfacts
  rw [← heq] at houtcome
  refine ⟨houtcome, ?_⟩
  simp only [instantiate, hsummary]
  rw [Report.outcome_bind, houtcome]
  cases result <;> rfl

/-- **Filling in calls ends, whatever calls whatever.** For a function with a summary there is a
run, and it comes to what `Environment.instantiate` does. Every visit of a run, also of one that
fails, finds on the stack distinct functions with summaries, the one it goes through last, and
leaves the stack as it was if it succeeds; and as many fresh names are drawn as calls are filled
in. -/
theorem instantiate_runs {function : String} {s : Summary}
    (hsummary : env.summary? function = some s) :
    (∃ visits p result, env.Runs .root s.constraints ⟨[function], 0, []⟩ visits p result) ∧
    ∀ visits p result, env.Runs .root s.constraints ⟨[function], 0, []⟩ visits p result →
      (env.expand s.name .root [function] 0 s.constraints).outcome =
        result.map (fun _ => (p.facts, p.drawn)) ∧
      (env.instantiate function).outcome = result.map (fun _ => p.facts) ∧
      (∀ v ∈ ⟨s, [function], p.stack, result⟩ :: visits, v.Sound env) ∧
      p.drawn = visits.length := by
  refine ⟨exists_runs env .root s.constraints _, fun visits p result hruns => ?_⟩
  obtain ⟨hexpand, hinstantiate⟩ := instantiate_eq_of_runs hsummary hruns
  have hempty : env.StackOk [] := ⟨.nil, fun f hf => absurd hf List.not_mem_nil⟩
  have hroot : Visit.Sound env ⟨s, [function], p.stack, result⟩ :=
    Visit.sound_of_runs hempty hsummary List.not_mem_nil hruns
  refine ⟨hexpand, hinstantiate, fun v hv => ?_, by simpa using hruns.drawn_eq⟩
  rcases List.mem_cons.1 hv with rfl | hv
  · exact hroot
  · exact hruns.visit_sound hroot.ok v hv

/-- `even` and `odd` call each other, and `odd` itself too. -/
def evenOdd : Environment :=
  (empty.addSummary
    ⟨"even", ["%a"], [], [.call "odd" "%r" ["%a"], .call "odd" "%s" ["%a"]]⟩).addSummary
    ⟨"odd", ["%b"], [], [.holds (.equals (.rankOf "%b") (.int 2)), .call "even" "%t" ["%b"],
      .call "odd" "%u" ["%b"]]⟩

/-- Each of the two calls of `odd` is filled in, and no call inside them. -/
theorem instantiate_runs_evenOdd :
    ∃ visits p, evenOdd.Runs .root [.call "odd" "%r" ["%a"], .call "odd" "%s" ["%a"]]
        ⟨["even"], 0, []⟩ visits p (.ok ()) ∧
      visits.map Visit.before = [["even", "odd"], ["even", "odd"]] ∧
      (∀ v ∈ visits, v.Sound evenOdd) ∧ p.drawn = 2 ∧
      (evenOdd.instantiate "even").outcome =
        .ok [.equals (.rankOf "%a") (.int 2), .equals (.rankOf "%a") (.int 2)] := by
  have hruns : evenOdd.Runs .root [.call "odd" "%r" ["%a"], .call "odd" "%s" ["%a"]]
      ⟨["even"], 0, []⟩ _ _ (.ok ()) :=
    .filled rfl (by decide) rfl
      (.holds _ (.recursive _ _ (by decide) (.recursive _ _ (by decide) (.nil ..))))
      (.filled rfl (by decide) rfl
        (.holds _ (.recursive _ _ (by decide) (.recursive _ _ (by decide) (.nil ..)))) (.nil ..))
  have hsummary : evenOdd.summary? "even" =
      some ⟨"even", ["%a"], [], [.call "odd" "%r" ["%a"], .call "odd" "%s" ["%a"]]⟩ := rfl
  obtain ⟨-, hfacts, hvisits, hdrawn⟩ := (instantiate_runs hsummary).2 _ _ _ hruns
  exact ⟨_, _, hruns, rfl, fun v hv => hvisits v (List.mem_cons_of_mem _ hv), hdrawn, hfacts⟩

end Environment

end TensorShape
