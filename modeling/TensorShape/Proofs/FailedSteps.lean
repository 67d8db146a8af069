import TensorShape.Proofs.Weakening
import TensorShape.Symbolic.Machine

/-!
# TensorShape.Proofs.FailedSteps

What a statement can do to a machine that is changed in place.

A machine emits and writes as it goes, and nothing undoes this when an error comes up later. Still a
statement that fails leaves no trace, because a call that has emitted or reported something has no
results whose number could be wrong.

* `run_call` and `run_findResults`: what is done while the results are looked for is all that the
  effect does but for writing them, and nothing on an error (`Machine.found`);
* `run_execute`: a machine does what a step does, all of it or nothing;
* `execute_frame`: a failed statement changes nothing, and one that succeeds emits at most one
  constraint and writes to its results only.
-/

namespace TensorShape

/-- The values that an effect has for the results of its statement. -/
def Effect.values? : Effect → Option (List (Option Value))
  | .assign values => some values
  | _ => none

/-- An effect adds one constraint or none. -/
theorem Effect.exists_emitted_eq (e : Effect) :
    ∃ added : Option Constraint, e.emitted = added.toList := by
  cases e with
  | emit c => exact ⟨some c, rfl⟩
  | nothing => exact ⟨none, rfl⟩
  | assign values => exact ⟨none, rfl⟩
  | lostCheck r => exact ⟨none, rfl⟩

/-! ## Errors -/

/-- Only `check` itself can fail because it was not intercepted. -/
theorem Builtin.interpretCall_ne_checkNotIntercepted {b : Builtin} (hb : b ≠ .check)
    (args : List Register) (values : List (Option Value)) :
    b.interpretCall args values ≠ .error .checkNotIntercepted := by
  intro h
  unfold interpretCall at h
  split at h
  · cases h
  · cases h
  · cases h
  · cases h
  · split at h <;> cases h
  · cases h
  · exact hb rfl

/-- A call intercepts `check` before the library sees it. -/
theorem callEffect_ne_checkNotIntercepted (v : Valuation) (results : List Register)
    (callee : Register) (args : List Register) :
    callEffect v results callee args ≠ .error .checkNotIntercepted := by
  intro h
  unfold callEffect at h
  split at h
  · cases h
  · split at h <;> cases h
  · split at h
    · split at h <;> cases h
    · cases h
  · next b hb _ =>
    -- A check has been taken care of before.
    have hcall := b.interpretCall_ne_checkNotIntercepted hb args (args.map v.get?)
    cases hresult : b.interpretCall args (args.map v.get?) with
    | error e =>
      rw [hresult] at h hcall
      cases h
      exact hcall rfl
    | ok slots =>
      rw [hresult] at h
      cases h
  · cases h

theorem rawEffect_ne_checkNotIntercepted (v : Valuation) (s : Statement) :
    rawEffect v s ≠ .error .checkNotIntercepted := by
  obtain ⟨results, i⟩ := s
  cases i with
  | apply callee args => exact callEffect_ne_checkNotIntercepted v results callee args
  | beginApply callee args => exact callEffect_ne_checkNotIntercepted v results callee args
  | integerLiteral ty value =>
    simp only [rawEffect]
    split <;> simp
  | functionRef name ty =>
    simp only [rawEffect]
    split <;> simp
  | aggregate ty operands =>
    simp only [rawEffect]
    split <;> simp
  | extract operand field =>
    simp only [rawEffect]
    split <;> simp
  | builtin name operands ty => simp [rawEffect]
  | endApply token => simp [rawEffect]
  | other opcode operands => simp [rawEffect]

/-- No statement fails because `check` was not intercepted. -/
theorem effect_ne_checkNotIntercepted (v : Valuation) (s : Statement) :
    effect v s ≠ .error .checkNotIntercepted := by
  unfold effect
  split
  · split <;> simp
  · exact rawEffect_ne_checkNotIntercepted v s

namespace Machine

/-! ## Actions -/

@[simp] theorem run_read (r : Register) (m : Machine) :
    (read r).run m = .ok (m.state.valuation.get? r) m := rfl

@[simp] theorem run_emit (c : Constraint) (m : Machine) :
    (emit c).run m = .ok () { m with state.constraints := m.state.constraints ++ [c] } := rfl

@[simp] theorem run_report (e : Event) (m : Machine) :
    (report e).run m = .ok () { m with log := m.log ++ [e] } := rfl

/-- Looking up registers changes nothing. -/
theorem run_mapM_read {α : Type} (register : α → Register) (l : List α) (m : Machine) :
    (l.mapM fun a => read (register a)).run m =
      .ok (l.map fun a => m.state.valuation.get? (register a)) m := by
  induction l with
  | nil => rfl
  | cons a l ih =>
    simp only [List.mapM_cons, EStateM.run_bind, run_read, ih, EStateM.run_pure, List.map_cons]

/-- Writing registers one after the other is writing all of them, and each is logged. -/
theorem run_forM_write (bindings : List (Register × Option Value)) (m : Machine) :
    (bindings.forM fun p => write p.1 p.2).run m =
      .ok () ⟨{ m.state with valuation := m.state.valuation.setAll bindings },
        m.log ++ bindings.flatMap fun p => Valuation.setEvents p.1 p.2⟩ := by
  induction bindings generalizing m with
  | nil => simp [Valuation.setAll]
  | cons p bindings ih =>
    have hrest := ih ⟨{ m.state with valuation := m.state.valuation.set p.1 p.2 },
      m.log ++ Valuation.setEvents p.1 p.2⟩
    rw [List.append_assoc] at hrest
    exact hrest

/-! ## Looking for results -/

/-- The machine after an effect on the given result registers. -/
def perform (m : Machine) (results : List Register) (e : Effect) : Machine :=
  ⟨m.state.perform results e, m.log ++ e.events results⟩

/-- How the search for results ends: what the effect does apart from its results is done, unless
there is an error. -/
def found (m : Machine) :
    Except StepError Effect → EStateM.Result StepError Machine (Option (List (Option Value)))
  | .error e => .error e m
  | .ok e => .ok e.values? (m.perform [] e)

/-- An effect without values does not care which registers take the results. -/
theorem perform_of_values? {e : Effect} (h : e.values? = none) (m : Machine)
    (results : List Register) : m.perform results e = m.perform [] e := by
  cases e with
  | assign values => cases h
  | nothing => rfl
  | emit c => rfl
  | lostCheck r => rfl

@[simp] theorem perform_nil_assign (m : Machine) (values : List (Option Value)) :
    m.perform [] (.assign values) = m := by
  simp [perform, State.perform, Effect.events, Valuation.setAll]

@[simp] theorem found_nothing (m : Machine) : m.found (.ok .nothing) = .ok none m := by
  simp [found, Effect.values?, perform, State.perform, Effect.events]

@[simp] theorem found_assign (m : Machine) (values : List (Option Value)) :
    m.found (.ok (.assign values)) = .ok (some values) m := by
  simp [found, Effect.values?]

@[simp] theorem found_ofResults (m : Machine) (slots : Option (List (Option Value))) :
    m.found (.ok (.ofResults slots)) = .ok slots m := by
  cases slots <;> simp [Effect.ofResults]

/-- A call that emits its constraint has emitted it when the results are looked for. -/
@[simp] theorem found_emit (m : Machine) (c : Constraint) : m.found (.ok (.emit c)) =
    .ok none { m with state.constraints := m.state.constraints ++ [c] } := by
  simp [found, Effect.values?, perform, State.perform, Effect.events]

/-- A check of an unknown register is reported when the results are looked for. -/
@[simp] theorem found_lostCheck (m : Machine) (r : Register) : m.found (.ok (.lostCheck r)) =
    .ok none { m with log := m.log ++ [.checkLost r] } := by
  simp [found, Effect.values?, perform, State.perform, Effect.events]

/-- A call of a library function in place finds what the call gives. -/
theorem run_callLibrary (b : Builtin) (args : List Register) (m : Machine) :
    (callLibrary b args).run m =
      m.found ((b.interpretCall args (args.map m.state.valuation.get?)).map .ofResults) := by
  have hread : (args.mapM read).run m = .ok (args.map m.state.valuation.get?) m :=
    run_mapM_read id args m
  simp only [callLibrary, EStateM.run_bind, hread]
  cases b.interpretCall args (args.map m.state.valuation.get?) with
  | error e => rfl
  | ok slots => simp [Except.map]

/-- A call in place finds what the effect of the call says. -/
theorem run_call (results : List Register) (callee : Register) (args : List Register)
    (m : Machine) :
    (call results callee args).run m =
      m.found (callEffect m.state.valuation results callee args) := by
  simp only [call, EStateM.run_bind, run_read, callEffect]
  cases hcallee : m.state.valuation.get? callee with
  | none => simp
  | some value =>
    cases value with
    | functionRef name =>
      rcases results with _ | ⟨result, _ | ⟨second, rest⟩⟩
      · rfl
      · simp only [EStateM.run_bind, run_emit, EStateM.run_pure, found_emit]
      · rfl
    | builtinRef b =>
      cases b with
      | check =>
        rcases args with _ | ⟨condition, _ | ⟨second, rest⟩⟩
        · rfl
        · simp only [EStateM.run_bind, run_read]
          cases hcondition : m.state.valuation.get? condition with
          | none => simp only [EStateM.run_bind, run_report, EStateM.run_pure, found_lostCheck]
          | some x => simp only [EStateM.run_bind, run_emit, EStateM.run_pure, found_emit]
        · rfl
      | rankGetter => exact run_callLibrary .rankGetter args m
      | shapeGetter => exact run_callLibrary .shapeGetter args m
      | shapeSubscript => exact run_callLibrary .shapeSubscript args m
    | int v => rfl
    | shapeOf r => rfl
    | rankOf r => rfl
    | dimOf axis r => rfl
    | equals a b => rfl

/-- A statement in place finds what its effect says, before the number of results is compared. -/
theorem run_findResults (s : Statement) (m : Machine) :
    (findResults s).run m = m.found (rawEffect m.state.valuation s) := by
  obtain ⟨results, i⟩ := s
  cases i with
  | integerLiteral ty value =>
    simp only [findResults, rawEffect]
    cases ty.builtinMember? with
    | none => simp
    | some member => by_cases hmember : isIntegerType member = true <;> simp [hmember]
  | builtin name operands ty =>
    simp only [findResults, rawEffect, EStateM.run_bind, run_mapM_read, EStateM.run_pure,
      found_ofResults]
  | functionRef name ty =>
    simp only [findResults, rawEffect]
    cases Builtin.ofSymbol? name <;> simp
  | apply callee args => exact run_call results callee args m
  | beginApply callee args => exact run_call results callee args m
  | aggregate ty operands =>
    simp only [findResults, rawEffect]
    split
    · simp only [EStateM.run_bind, run_mapM_read, EStateM.run_pure, found_assign]
    · simp
  | extract operand field =>
    simp only [findResults, rawEffect]
    split
    · simp only [EStateM.run_bind, run_read, EStateM.run_pure, found_assign]
    · simp
  | endApply token => simp [findResults, rawEffect]
  | other opcode operands => simp [findResults, rawEffect]

/-! ## Executing -/

/-- How a statement ends: with what a step reports, and the log goes on from there. -/
def resume (m : Machine) (r : Report StepError State) : EStateM.Result StepError Machine Unit :=
  match r.outcome with
  | .error e => .error e { m with log := m.log ++ r.events }
  | .ok st => .ok () ⟨st, m.log ++ r.events⟩

/-- A step whose effect fails leaves the machine as it was. -/
theorem resume_stepReport_of_error {m : Machine} {s : Statement} {e : StepError}
    (h : effect m.state.valuation s = .error e) : m.resume (m.state.stepReport s) = .error e m := by
  have hreport : m.state.stepReport s = ⟨[], .error e⟩ := by
    simp only [State.stepReport, h]
    rfl
  simp [hreport, resume]

/-- A step that succeeds has carried out its effect. -/
theorem resume_stepReport_of_ok {m : Machine} {s : Statement} {e : Effect}
    (h : effect m.state.valuation s = .ok e) :
    m.resume (m.state.stepReport s) = .ok () (m.perform s.results e) := by
  have hreport : m.state.stepReport s =
      ⟨e.events s.results ++ [], .ok (m.state.perform s.results e)⟩ := by
    simp only [State.stepReport, h]
    rfl
  simp [hreport, resume, perform]

/-- A machine does in place what a step does, all of it or nothing. -/
theorem run_execute (s : Statement) (m : Machine) :
    (execute s).run m = m.resume (m.state.stepReport s) := by
  simp only [execute, EStateM.run_bind, run_findResults]
  cases hraw : rawEffect m.state.valuation s with
  | error e =>
    have heffect : effect m.state.valuation s = .error e := by simp [effect, hraw]
    rw [resume_stepReport_of_error heffect]
    rfl
  | ok e =>
    cases hvalues : e.values? with
    | none =>
      -- What emits or reports has no results, so their number is not looked at.
      have heffect : effect m.state.valuation s = .ok e := by
        cases e <;> simp_all [effect, Effect.values?]
      rw [resume_stepReport_of_ok heffect, perform_of_values? hvalues]
      simp only [found, hvalues]
      rfl
    | some values =>
      obtain rfl : e = .assign values := by cases e <;> simp_all [Effect.values?]
      simp only [found_assign]
      by_cases hlen : values.length = s.results.length
      · have heffect : effect m.state.valuation s = .ok (.assign values) := by
          simp [effect, hraw, hlen]
        rw [resume_stepReport_of_ok heffect, if_pos hlen]
        exact run_forM_write (s.results.zip values) m
      · have heffect : effect m.state.valuation s =
            .error (.resultArity s.instruction.opcode values.length s.results.length) := by
          simp [effect, hraw, hlen]
        rw [resume_stepReport_of_error heffect, if_neg hlen]
        rfl

/-- A statement that fails has done nothing. -/
theorem eq_of_run_execute_error {s : Statement} {m m' : Machine} {e : StepError}
    (h : (execute s).run m = .error e m') : m' = m ∧ effect m.state.valuation s = .error e := by
  rw [run_execute] at h
  cases heffect : effect m.state.valuation s with
  | error err =>
    rw [resume_stepReport_of_error heffect] at h
    cases h
    exact ⟨rfl, rfl⟩
  | ok eff =>
    rw [resume_stepReport_of_ok heffect] at h
    cases h

/-- A statement that succeeds has done what its effect says. -/
theorem exists_effect_of_run_execute_ok {s : Statement} {m m' : Machine} {u : Unit}
    (h : (execute s).run m = .ok u m') : ∃ e, m' = m.perform s.results e := by
  rw [run_execute] at h
  cases heffect : effect m.state.valuation s with
  | error err =>
    rw [resume_stepReport_of_error heffect] at h
    cases h
  | ok eff =>
    rw [resume_stepReport_of_ok heffect] at h
    cases h
    exact ⟨eff, rfl⟩

/-- A run past errors is the run of the statements that do not fail. -/
theorem exists_sublist_run (m : Machine) (statements : List Statement) :
    ∃ kept, kept.Sublist statements ∧
      (m.state.run kept).outcome = .ok (m.executeAll statements).state := by
  induction statements generalizing m with
  | nil => exact ⟨[], .slnil, rfl⟩
  | cons s rest ih =>
    simp only [executeAll, List.foldl_cons]
    cases heffect : effect m.state.valuation s with
    | error e =>
      obtain ⟨kept, hkept, hrun⟩ := ih m
      rw [run_execute, resume_stepReport_of_error heffect]
      exact ⟨kept, hkept.cons s, hrun⟩
    | ok e =>
      obtain ⟨kept, hkept, hrun⟩ := ih (m.perform s.results e)
      have hstep : m.state.step s = .ok (m.perform s.results e).state := by
        simp only [State.step, heffect]
        rfl
      rw [run_execute, resume_stepReport_of_ok heffect]
      exact ⟨s :: kept, hkept.cons_cons s, State.outcome_run_cons_eq_ok.2 ⟨_, hstep, hrun⟩⟩

/-- Whatever a machine has gone through, a statement that fails leaves it as it was, log and all,
and never because a check was taken for a function with results; one that succeeds adds at most one
constraint and changes what is known of its results only. So a run past errors comes to what the run
of the statements that do not fail comes to. -/
theorem execute_frame (m : Machine) :
    (∀ s e m', (execute s).run m = .error e m' → m' = m ∧ e ≠ .checkNotIntercepted) ∧
    (∀ s u m', (execute s).run m = .ok u m' →
      (∃ added : Option Constraint,
        m'.state.constraints = m.state.constraints ++ added.toList) ∧
      ∀ r ∉ s.results, m'.state.valuation.get? r = m.state.valuation.get? r) ∧
    (∀ statements, ∃ kept, kept.Sublist statements ∧
      (m.state.run kept).outcome = .ok (m.executeAll statements).state) := by
  refine ⟨fun s e m' h => ?_, fun s u m' h => ?_, m.exists_sublist_run⟩
  · obtain ⟨hsame, heffect⟩ := eq_of_run_execute_error h
    refine ⟨hsame, fun hcheck => ?_⟩
    rw [hcheck] at heffect
    exact effect_ne_checkNotIntercepted m.state.valuation s heffect
  · obtain ⟨e, rfl⟩ := exists_effect_of_run_execute_ok h
    obtain ⟨added, hadded⟩ := e.exists_emitted_eq
    have hconstraints := m.state.constraints_perform s.results e
    rw [hadded] at hconstraints
    exact ⟨⟨added, hconstraints⟩, fun r hr => m.state.get?_perform_of_not_mem hr e⟩

end Machine

end TensorShape
