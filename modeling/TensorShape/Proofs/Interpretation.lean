import TensorShape.Proofs.Meaning
import TensorShape.Symbolic.Interpreter

/-!
# TensorShape.Proofs.Interpretation

The interpreter makes no fact up.

`Statement.Meaning` says what a statement does to the data in the registers of a running program, as
far as the interpreter follows it. If every statement of a block means what it should, then at every
point of the run each bound register holds what its value stands for (`Valuation.Sound`), and a
constraint that a check emits stands for what the check was given.

* `acts_of_effect`: the effects that a statement can have, as a relation (`Acts`, `Assigns`);
* `State.sound_step` and `State.sound_run`: soundness along a run;
* `State.mem_constraints_iff_of_run`: where the constraints of a run come from.
-/

namespace TensorShape

/-! ## What statements mean -/

/-- The instruction calls the function in `callee`, as a coroutine or not. -/
def Instruction.Calls (callee : Register) (args : List Register) (i : Instruction) : Prop :=
  i = .apply callee args ∨ i = .beginApply callee args

/-- The results of a call of a library function are what the library says. Of `check`, and of calls
that do not fit the library's interface, nothing is said. -/
def Builtin.Returns (ρ : Register → Datum) (args results : List Register) (b : Builtin) : Prop :=
  match b, args, results with
  | .rankGetter, [tensor], [rank] => ∃ t, ρ tensor = .tensor t ∧ ρ rank = .int t.rank
  | .shapeGetter, [tensor], [shape] => ∃ t, ρ tensor = .tensor t ∧ ρ shape = .shape t.extent
  | .shapeSubscript, [index, shape], [extent, _token] =>
    ∀ i s, ρ index = .int i → ρ shape = .shape s → ρ extent = .int (s i)
  | _, _, _ => True

namespace Statement

open Classical in
/-- The registers hold what the statement puts there, if it is one that the interpreter follows:
literals of integer types, comparisons, references to functions, calls of library functions, and
the aggregates that carry integers and truth values. -/
def Meaning (ρ : Register → Datum) (s : Statement) : Prop :=
  match s.instruction with
  | .integerLiteral ty value =>
    ∀ member r, ty.builtinMember? = some member → isIntegerType member = true →
      s.results = [r] → ρ r = .int value.toInt
  | .builtin name operands _ =>
    ∀ a b r, name = "cmp_eq_Int64" → operands = [a, b] → s.results = [r] →
      ρ r = .bool (decide (ρ a.value = ρ b.value))
  | .functionRef name _ => ∀ r, s.results = [r] → ρ r = .function name
  | .apply callee args | .beginApply callee args =>
    ∀ b : Builtin, ρ callee = .function b.symbol → b.Returns ρ args s.results
  | .aggregate ty operands =>
    ty.nominalName? = some "Bool" ∨ ty.nominalName? = some "Int" →
      ∀ p ∈ s.results.zip operands, ρ p.1 = ρ p.2.value
  | .extract operand field =>
    ∀ r, field.path = ["Int", "_value"] → s.results = [r] → ρ r = ρ operand.value
  | .endApply _ => True
  | .other .. => True

/-- The statement asserts what is in a register. -/
def Checks (ρ : Register → Datum) (condition : Register) (s : Statement) : Prop :=
  ∃ callee, s.instruction.Calls callee [condition] ∧ ρ callee = .function Builtin.check.symbol

end Statement

/-- A library function is found by its symbol only. -/
theorem Builtin.symbol_of_ofSymbol? {name : String} {b : Builtin}
    (h : Builtin.ofSymbol? name = some b) : name = b.symbol := by
  unfold Builtin.ofSymbol? at h
  split at h <;> cases h <;> rfl

/-! ## What a statement can do -/

/-- The values that an instruction can assign to its results. -/
inductive Assigns (v : Valuation) : Instruction → List (Option Value) → Prop
  | literal {ty : Ty} {member : String} {k : Int64} (hty : ty.builtinMember? = some member)
      (hmember : isIntegerType member = true) : Assigns v (.integerLiteral ty k) [some (.int k)]
  | comparison {a b : Operand} {ty : Ty} {x y : Value} (hx : v.get? a.value = some x)
      (hy : v.get? b.value = some y) :
      Assigns v (.builtin "cmp_eq_Int64" [a, b] ty) [some (.equals x y)]
  | libraryRef {name : String} {ty : Ty} {b : Builtin} (hb : Builtin.ofSymbol? name = some b) :
      Assigns v (.functionRef name ty) [some (.builtinRef b)]
  | functionRef {name : String} {ty : Ty} : Assigns v (.functionRef name ty) [some (.functionRef name)]
  | call {i : Instruction} {callee : Register} {args : List Register} {b : Builtin}
      {values : List (Option Value)} (hcalls : i.Calls callee args)
      (hcallee : v.get? callee = some (.builtinRef b))
      (hvalues : b.interpretCall args (args.map v.get?) = .ok (some values)) : Assigns v i values
  | aggregate {ty : Ty} {operands : List Operand}
      (hty : ty.nominalName? = some "Bool" ∨ ty.nominalName? = some "Int") :
      Assigns v (.aggregate ty operands) (operands.map fun o => v.get? o.value)
  | extract {operand : Operand} {field : DeclPath} (hfield : field.path = ["Int", "_value"]) :
      Assigns v (.extract operand field) [v.get? operand.value]

/-- The effects that an instruction can have. -/
inductive Acts (v : Valuation) (results : List Register) : Instruction → Effect → Prop
  | assign {i : Instruction} {values : List (Option Value)} (h : Assigns v i values) :
      Acts v results i (.assign values)
  | call {i : Instruction} {callee result : Register} {args : List Register} {name : String}
      (hcalls : i.Calls callee args) (hcallee : v.get? callee = some (.functionRef name))
      (hresults : results = [result]) : Acts v results i (.emit (.call name result args))
  | check {i : Instruction} {callee condition : Register} {x : Value}
      (hcalls : i.Calls callee [condition]) (hcallee : v.get? callee = some (.builtinRef .check))
      (hx : v.get? condition = some x) : Acts v results i (.emit (.holds x))
  | lostCheck {i : Instruction} {callee condition : Register}
      (hcalls : i.Calls callee [condition]) (hcallee : v.get? callee = some (.builtinRef .check))
      (hnone : v.get? condition = none) : Acts v results i (.lostCheck condition)
  | nothing {i : Instruction} : Acts v results i .nothing

/-- The effect of a call is one that calls can have. -/
theorem acts_of_callEffect {v : Valuation} {results args : List Register} {callee : Register}
    {i : Instruction} {e : Effect} (hcalls : i.Calls callee args)
    (h : callEffect v results callee args = .ok e) : Acts v results i e := by
  unfold callEffect at h
  split at h
  · cases h
    exact .nothing
  · next name hname =>
    split at h
    · cases h
      exact .call hcalls hname rfl
    · cases h
  · next hcheck =>
    split at h
    · split at h
      · next hx =>
        cases h
        exact .check hcalls hcheck hx
      · next hnone =>
        cases h
        exact .lostCheck hcalls hcheck hnone
    · cases h
  · next b _ hb =>
    cases hcall : b.interpretCall args (args.map v.get?) with
    | error err =>
      rw [hcall] at h
      cases h
    | ok found =>
      rw [hcall] at h
      cases h
      cases found with
      | none => exact .nothing
      | some values => exact .assign (.call hcalls hb hcall)
  · cases h

/-- The values of an operation are ones that it can assign. -/
theorem assigns_of_interpretOperation {v : Valuation} {name : String} {operands : List Operand}
    {ty : Ty} {values : List Value}
    (h : interpretOperation name (operands.map fun o => v.get? o.value) = some values) :
    Assigns v (.builtin name operands ty) (values.map some) := by
  unfold interpretOperation at h
  split at h
  · next a b hoperands =>
    cases h
    obtain ⟨oa, rest, rfl, ha, hrest⟩ := List.map_eq_cons_iff.1 hoperands
    obtain ⟨ob, rest, rfl, hb, hnil⟩ := List.map_eq_cons_iff.1 hrest
    cases List.map_eq_nil_iff.1 hnil
    exact .comparison ha hb
  · cases h

/-- The effect of a statement is one that its instruction can have. -/
theorem acts_of_rawEffect {v : Valuation} {s : Statement} {e : Effect}
    (h : rawEffect v s = .ok e) : Acts v s.results s.instruction e := by
  obtain ⟨results, i⟩ := s
  cases i with
  | integerLiteral ty value =>
    simp only [rawEffect] at h
    split at h
    · next member hty =>
      split at h
      · next hmember =>
        cases h
        exact .assign (.literal hty hmember)
      · cases h
        exact .nothing
    · cases h
      exact .nothing
  | builtin name operands ty =>
    simp only [rawEffect] at h
    cases hop : interpretOperation name (operands.map fun o => v.get? o.value) with
    | none =>
      rw [hop] at h
      cases h
      exact .nothing
    | some values =>
      rw [hop] at h
      cases h
      exact .assign (assigns_of_interpretOperation hop)
  | functionRef name ty =>
    simp only [rawEffect] at h
    split at h
    · next hb =>
      cases h
      exact .assign (.libraryRef hb)
    · cases h
      exact .assign .functionRef
  | apply callee args => exact acts_of_callEffect (.inl rfl) h
  | beginApply callee args => exact acts_of_callEffect (.inr rfl) h
  | aggregate ty operands =>
    simp only [rawEffect] at h
    split at h
    · next hty =>
      cases h
      exact .assign (.aggregate hty)
    · cases h
      exact .nothing
  | extract operand field =>
    simp only [rawEffect] at h
    split at h
    · next hfield =>
      cases h
      exact .assign (.extract (of_decide_eq_true hfield))
    · cases h
      exact .nothing
  | endApply token =>
    cases h
    exact .nothing
  | other opcode operands =>
    cases h
    exact .nothing

/-- Comparing the number of results changes no effect. -/
theorem rawEffect_of_effect {v : Valuation} {s : Statement} {e : Effect}
    (h : effect v s = .ok e) : rawEffect v s = .ok e := by
  unfold effect at h
  split at h
  · next hraw =>
    split at h
    · cases h
      exact hraw
    · cases h
  · exact h

/-- An effect is one that the instruction can have. -/
theorem acts_of_effect {v : Valuation} {s : Statement} {e : Effect} (h : effect v s = .ok e) :
    Acts v s.results s.instruction e :=
  acts_of_rawEffect (rawEffect_of_effect h)

/-- There are as many values as registers to take them. -/
theorem length_of_effect_assign {v : Valuation} {s : Statement} {values : List (Option Value)}
    (h : effect v s = .ok (.assign values)) : values.length = s.results.length := by
  have hraw := rawEffect_of_effect h
  unfold effect at h
  rw [hraw] at h
  by_cases hlen : values.length = s.results.length
  · exact hlen
  · simp [hlen] at h

/-! ## Soundness -/

/-- Each value that is there stands for what its register holds. -/
def Denoted (ρ : Register → Datum) (bindings : List (Register × Option Value)) : Prop :=
  ∀ p ∈ bindings, ∀ x, p.2 = some x → x.denote ρ = some (ρ p.1)

namespace Valuation

/-- What is known of a register stands for what it holds. -/
def Sound (ρ : Register → Datum) (v : Valuation) : Prop :=
  ∀ r x, v.get? r = some x → x.denote ρ = some (ρ r)

variable {ρ : Register → Datum} {v : Valuation}

/-- Nothing is known at the start, and so nothing wrong. -/
theorem sound_empty : Sound ρ ∅ := by
  intro r x h
  simp at h

/-- Knowledge stays sound if what is written stands for what the register holds. -/
theorem Sound.set (h : v.Sound ρ) {r : Register} {value : Option Value}
    (hvalue : ∀ x, value = some x → x.denote ρ = some (ρ r)) : (v.set r value).Sound ρ := by
  intro r' x hx
  rw [get?_set] at hx
  split at hx
  · next heq =>
    rw [← heq]
    exact hvalue x hx
  · exact h r' x hx

/-- Knowledge stays sound along a list of writes that each are. -/
theorem Sound.setAll (h : v.Sound ρ) {bindings : List (Register × Option Value)}
    (hbindings : Denoted ρ bindings) : (v.setAll bindings).Sound ρ := by
  induction bindings generalizing v with
  | nil => exact h
  | cons p rest ih =>
    rw [Denoted, List.forall_mem_cons] at hbindings
    exact ih (h.set hbindings.1) hbindings.2

end Valuation

/-- The single value of a single register. -/
theorem denoted_zip_singleton {ρ : Register → Datum} {results : List Register} {value : Option Value}
    (hlen : [value].length = results.length)
    (h : ∀ r, results = [r] → ∀ x, value = some x → x.denote ρ = some (ρ r)) :
    Denoted ρ (results.zip [value]) := by
  obtain ⟨r, rfl⟩ := List.length_eq_one_iff.1 hlen.symm
  intro p hp
  cases List.mem_singleton.1 hp
  exact h r rfl

/-- The known results of a library function stand for what it returns. -/
theorem denoted_of_interpretCall {ρ : Register → Datum} {v : Valuation} (hsound : v.Sound ρ)
    {b : Builtin} {args results : List Register} (hreturns : b.Returns ρ args results)
    {values : List (Option Value)} (hlen : values.length = results.length)
    (h : b.interpretCall args (args.map v.get?) = .ok (some values)) :
    Denoted ρ (results.zip values) := by
  unfold Builtin.interpretCall at h
  split at h
  · next tensor =>
    cases h
    refine denoted_zip_singleton hlen fun r hr x hx => ?_
    subst hr
    cases hx
    obtain ⟨t, htensor, hshape⟩ := hreturns
    simp [Value.denote, htensor, hshape]
  · cases h
  · next tensor =>
    cases h
    refine denoted_zip_singleton hlen fun r hr x hx => ?_
    subst hr
    cases hx
    obtain ⟨t, htensor, hrank⟩ := hreturns
    simp [Value.denote, htensor, hrank]
  · cases h
  · next index shape =>
    split at h
    · next axis tensor rest hvalues =>
      cases h
      obtain ⟨extent, others, rfl⟩ := List.exists_cons_of_length_eq_add_one hlen.symm
      obtain ⟨token, rfl⟩ := List.length_eq_one_iff.1 (Nat.succ.inj hlen.symm)
      -- The index is the axis, and the shape is that of the tensor.
      have hindex : v.get? index = some (.int axis) := (List.cons.inj hvalues).1
      have hshape : v.get? shape = some (.shapeOf tensor) :=
        (List.cons.inj (List.cons.inj hvalues).2).1
      have haxis : ρ index = .int axis.toInt := (Option.some.inj (hsound index _ hindex)).symm
      obtain ⟨t, ht, hextent⟩ := Option.map_eq_some_iff.1 (hsound shape _ hshape)
      have hresult := hreturns axis.toInt t.extent haxis hextent.symm
      rw [Denoted, List.zip_cons_cons, List.zip_cons_cons, List.forall_mem_cons]
      refine ⟨fun x hx => ?_, ?_⟩
      · cases hx
        simp [Value.denote, ht, hresult]
      · intro p hp x hx
        cases List.mem_singleton.1 hp
        cases hx
    · cases h
  · cases h
  · cases h

/-- What an instruction can assign stands for what it puts into the registers. -/
theorem denoted_of_assigns {ρ : Register → Datum} {v : Valuation} (hsound : v.Sound ρ)
    {s : Statement} (hmeaning : s.Meaning ρ) {values : List (Option Value)}
    (hlen : values.length = s.results.length) (h : Assigns v s.instruction values) :
    Denoted ρ (s.results.zip values) := by
  obtain ⟨results, i⟩ := s
  cases h with
  | literal hty hmember =>
    refine denoted_zip_singleton hlen fun r hr x hx => ?_
    cases hx
    rw [hmeaning _ r hty hmember hr]
    rfl
  | @comparison a b ty x y hx hy =>
    refine denoted_zip_singleton hlen fun r hr z hz => ?_
    cases hz
    rw [hmeaning a b r rfl rfl hr, Value.denote, hsound _ _ hx, hsound _ _ hy]
  | libraryRef hb =>
    refine denoted_zip_singleton hlen fun r hr x hx => ?_
    cases hx
    rw [hmeaning r hr, Builtin.symbol_of_ofSymbol? hb]
    rfl
  | functionRef =>
    refine denoted_zip_singleton hlen fun r hr x hx => ?_
    cases hx
    rw [hmeaning r hr]
    rfl
  | @call _ callee args b _ hcalls hcallee hvalues =>
    have hfunction : ρ callee = .function b.symbol :=
      (Option.some.inj (hsound callee _ hcallee)).symm
    have hreturns : b.Returns ρ args results := by
      rcases hcalls with rfl | rfl <;> exact hmeaning b hfunction
    exact denoted_of_interpretCall hsound hreturns hlen hvalues
  | @aggregate ty operands hty =>
    intro p hp x hx
    rw [List.zip_map_right] at hp
    obtain ⟨⟨r, o⟩, hmem, rfl⟩ := List.mem_map.1 hp
    have hcopy : ρ r = ρ o.value := hmeaning hty (r, o) hmem
    rw [hsound o.value x hx]
    exact congrArg some hcopy.symm
  | @extract operand field hfield =>
    refine denoted_zip_singleton hlen fun r hr x hx => ?_
    rw [hsound operand.value x hx, hmeaning r hfield hr]

namespace State

variable {ρ : Register → Datum} {st st' : State} {s : Statement} {statements : List Statement}

/-! ### One step -/

/-- A step that succeeds carries out the effect of its statement. -/
theorem step_eq_ok (h : st.step s = .ok st') :
    ∃ e, effect st.valuation s = .ok e ∧ st' = st.perform s.results e := by
  unfold step at h
  cases heffect : effect st.valuation s with
  | error err =>
    rw [heffect] at h
    cases h
  | ok e =>
    rw [heffect] at h
    cases h
    exact ⟨e, rfl, rfl⟩

/-- A step keeps a valuation sound. -/
theorem sound_step (hsound : st.valuation.Sound ρ) (hmeaning : s.Meaning ρ)
    (h : st.step s = .ok st') : st'.valuation.Sound ρ := by
  obtain ⟨e, heffect, rfl⟩ := step_eq_ok h
  cases acts_of_effect heffect with
  | assign hassigns =>
    exact hsound.setAll
      (denoted_of_assigns hsound hmeaning (length_of_effect_assign heffect) hassigns)
  | call => exact hsound
  | check => exact hsound
  | lostCheck => exact hsound
  | nothing => exact hsound

/-- A step adds the constraint it emits. -/
theorem mem_constraints_iff_of_step {c : Constraint} (h : st.step s = .ok st') :
    c ∈ st'.constraints ↔ c ∈ st.constraints ∨ effect st.valuation s = .ok (.emit c) := by
  obtain ⟨e, heffect, rfl⟩ := step_eq_ok h
  rw [heffect]
  cases e <;> simp [perform, eq_comm]

/-- What a step asserts is what a check was given. -/
theorem checks_of_effect {x : Value} (hsound : st.valuation.Sound ρ)
    (h : effect st.valuation s = .ok (.emit (.holds x))) :
    ∃ condition, s.Checks ρ condition ∧ x.denote ρ = some (ρ condition) := by
  cases acts_of_effect h with
  | @check callee condition _ hcalls hcallee hx =>
    have hcheck : ρ callee = .function Builtin.check.symbol :=
      (Option.some.inj (hsound callee _ hcallee)).symm
    exact ⟨condition, ⟨callee, hcalls, hcheck⟩, hsound condition x hx⟩

/-! ### A run -/

/-- A run succeeds if its first step does, and the rest from there. -/
theorem outcome_run_cons_eq_ok :
    (st.run (s :: statements)).outcome = .ok st' ↔
      ∃ st₁, st.step s = .ok st₁ ∧ (st₁.run statements).outcome = .ok st' := by
  simp only [run, List.foldlM_cons, Report.outcome_bind_eq_ok, outcome_stepReport]

/-- A run can be cut in two anywhere. -/
theorem outcome_run_append_eq_ok {pre post : List Statement} :
    (st.run (pre ++ post)).outcome = .ok st' ↔
      ∃ st₁, (st.run pre).outcome = .ok st₁ ∧ (st₁.run post).outcome = .ok st' := by
  simp only [run, List.foldlM_append, Report.outcome_bind_eq_ok]

/-- A run keeps a valuation sound. -/
theorem sound_run (hsound : st.valuation.Sound ρ) (hmeaning : ∀ s ∈ statements, s.Meaning ρ)
    (h : (st.run statements).outcome = .ok st') : st'.valuation.Sound ρ := by
  induction statements generalizing st with
  | nil =>
    cases h
    exact hsound
  | cons s rest ih =>
    rw [List.forall_mem_cons] at hmeaning
    obtain ⟨st₁, hstep, hrest⟩ := outcome_run_cons_eq_ok.1 h
    exact ih (sound_step hsound hmeaning.1 hstep) hmeaning.2 hrest

/-- In the run of the statements from a state, a statement emits the constraint when its turn
comes. -/
inductive Emits (c : Constraint) : State → List Statement → Statement → Prop
  | here {st : State} {s : Statement} {rest : List Statement}
      (h : effect st.valuation s = .ok (.emit c)) : Emits c st (s :: rest) s
  | later {st st₁ : State} {s s' : Statement} {rest : List Statement}
      (hstep : st.step s = .ok st₁) (h : Emits c st₁ rest s') : Emits c st (s :: rest) s'

/-- The constraints of a run are those that its statements emit. -/
theorem mem_constraints_iff_of_run {c : Constraint} (h : (st.run statements).outcome = .ok st') :
    c ∈ st'.constraints ↔ c ∈ st.constraints ∨ ∃ s, Emits c st statements s := by
  induction statements generalizing st with
  | nil =>
    cases h
    refine ⟨.inl, fun h => h.elim id ?_⟩
    rintro ⟨s, ⟨⟩⟩
  | cons s rest ih =>
    obtain ⟨st₁, hstep, hrest⟩ := outcome_run_cons_eq_ok.1 h
    rw [ih hrest, mem_constraints_iff_of_step hstep, or_assoc]
    refine or_congr_right ⟨?_, ?_⟩
    · rintro (hhere | ⟨s', hlater⟩)
      · exact ⟨s, .here hhere⟩
      · exact ⟨s', .later hstep hlater⟩
    · rintro ⟨s', hhere | ⟨hstep', hlater⟩⟩
      · exact .inl ‹_›
      · cases hstep.symm.trans hstep'
        exact .inr ⟨s', hlater⟩

/-- What a statement of a run asserts is what a check of that statement was given. -/
theorem Emits.checks {x : Value} (h : Emits (.holds x) st statements s)
    (hsound : st.valuation.Sound ρ) (hmeaning : ∀ s ∈ statements, s.Meaning ρ) :
    s ∈ statements ∧ ∃ condition, s.Checks ρ condition ∧ x.denote ρ = some (ρ condition) := by
  induction h with
  | here heffect => exact ⟨List.mem_cons_self .., checks_of_effect hsound heffect⟩
  | later hstep _ ih =>
    rw [List.forall_mem_cons] at hmeaning
    obtain ⟨hmem, hchecks⟩ := ih (sound_step hsound hmeaning.1 hstep) hmeaning.2
    exact ⟨List.mem_cons_of_mem _ hmem, hchecks⟩

end State

/-! ## Blocks -/

namespace Block

/-- The interpreter makes no fact up. Where every statement of the block means what it should,
whatever is known of a register, at any point of the run, stands for what the register holds; the
facts of the block are those that its checks emit, each stands for what its check was given, and so
they hold if all checks pass. -/
theorem constraints_sound {b : Block} {cs : List Constraint} (hok : b.constraints.outcome = .ok cs)
    {ρ : Register → Datum} (hmeaning : ∀ s ∈ b.statements, s.Meaning ρ) :
    (∀ pre post, b.statements = pre ++ post →
      ∃ st, (State.start.run pre).outcome = .ok st ∧ st.valuation.Sound ρ) ∧
    (∀ x, .holds x ∈ cs ↔ ∃ s, State.Emits (.holds x) .start b.statements s) ∧
    (∀ x s, State.Emits (.holds x) .start b.statements s →
      ∃ condition, s.Checks ρ condition ∧ x.denote ρ = some (ρ condition)) ∧
    ((∀ s ∈ b.statements, ∀ condition, s.Checks ρ condition → (ρ condition).IsTrue) →
      ∀ x, .holds x ∈ cs → x.Holds ρ) := by
  obtain ⟨st, hrun, hcs⟩ := Report.outcome_bind_eq_ok.1 hok
  obtain rfl : st.constraints = cs := Except.ok.inj hcs
  have hstart : State.start.valuation.Sound ρ := Valuation.sound_empty
  have hemits : ∀ x, .holds x ∈ st.constraints ↔
      ∃ s, State.Emits (.holds x) .start b.statements s := by
    intro x
    rw [State.mem_constraints_iff_of_run hrun]
    exact or_iff_right (List.not_mem_nil)
  refine ⟨fun pre post hsplit => ?_, hemits, ?_, ?_⟩
  · rw [hsplit] at hrun hmeaning
    obtain ⟨st₁, hpre, -⟩ := State.outcome_run_append_eq_ok.1 hrun
    exact ⟨st₁, hpre,
      State.sound_run hstart (fun s hs => hmeaning s (List.mem_append_left _ hs)) hpre⟩
  · intro x s hs
    exact (hs.checks hstart hmeaning).2
  · intro hpass x hx
    obtain ⟨s, hs⟩ := (hemits x).1 hx
    obtain ⟨hmem, condition, hchecks, hdenote⟩ := hs.checks hstart hmeaning
    exact ⟨ρ condition, hdenote, hpass s hmem condition hchecks⟩

/-- A block that checks that its argument `%x` has extent 28 along axis 1. -/
def extentCheck : Block where
  label := "bb0"
  arguments := [⟨"%x", .named "Tensor"⟩]
  statements :=
    [⟨["%0"], .integerLiteral (.select (.named "Builtin") "Int64") 1⟩,
      ⟨["%1"], .aggregate (.named "Int") [⟨"%0", .named "Int64"⟩]⟩,
      ⟨["%2"], .functionRef Builtin.shapeGetter.symbol (.named "Getter")⟩,
      ⟨["%3"], .apply "%2" ["%x"]⟩,
      ⟨["%4"], .functionRef Builtin.shapeSubscript.symbol (.named "Subscript")⟩,
      ⟨["%5", "%6"], .beginApply "%4" ["%1", "%3"]⟩,
      ⟨["%7"], .extract ⟨"%5", .named "Int"⟩ ⟨["Int", "_value"]⟩⟩,
      ⟨[], .endApply "%6"⟩,
      ⟨["%8"], .integerLiteral (.select (.named "Builtin") "Int64") 28⟩,
      ⟨["%9"], .builtin "cmp_eq_Int64" [⟨"%7", .named "Int64"⟩, ⟨"%8", .named "Int64"⟩]
        (.named "Int1")⟩,
      ⟨["%10"], .functionRef Builtin.check.symbol (.named "Check")⟩,
      ⟨["%11"], .apply "%10" ["%9"]⟩]
  terminator := .ret ⟨"%11", .named "Void"⟩

/-- The data of a run of `extentCheck` on a matrix of 28 columns. -/
def extentData : Register → Datum
  | "%x" => .tensor ⟨2, fun _ => 28⟩
  | "%0" | "%1" => .int 1
  | "%2" => .function Builtin.shapeGetter.symbol
  | "%3" => .shape fun _ => 28
  | "%4" => .function Builtin.shapeSubscript.symbol
  | "%9" => .bool true
  | "%10" => .function Builtin.check.symbol
  | _ => .int 28

theorem meaning_extentCheck : ∀ s ∈ extentCheck.statements, s.Meaning extentData := by
  have hgetter : ∀ b : Builtin, extentData "%2" = .function b.symbol → b = .shapeGetter := by
    intro b hb
    cases b <;> simp [extentData, Builtin.symbol] at hb ⊢
  have hsubscript : ∀ b : Builtin, extentData "%4" = .function b.symbol → b = .shapeSubscript := by
    intro b hb
    cases b <;> simp [extentData, Builtin.symbol] at hb ⊢
  have hcheck : ∀ b : Builtin, extentData "%10" = .function b.symbol → b = .check := by
    intro b hb
    cases b <;> simp [extentData, Builtin.symbol] at hb ⊢
  simp only [extentCheck, List.forall_mem_cons, Statement.Meaning]
  refine ⟨?_, ?_, ?_, ?_, ?_, ?_, ?_, ?_, ?_, ?_, ?_, ?_, by simp⟩
  · simp [extentData]
  · simp [extentData]
  · simp [extentData]
  · intro b hb
    rw [hgetter b hb]
    exact ⟨_, rfl, rfl⟩
  · simp [extentData]
  · intro b hb
    rw [hsubscript b hb]
    rintro i s hi ⟨⟩
    rfl
  · simp [extentData]
  · trivial
  · simp [extentData]
  · simp [extentData]
  · simp [extentData]
  · intro b hb
    rw [hcheck b hb]
    trivial

/-- The block emits one fact, which holds of the matrix. -/
theorem constraints_sound_extentCheck :
    extentCheck.constraints.outcome = .ok [.holds (.equals (.dimOf 1 "%x") (.int 28))] ∧
    (Value.equals (.dimOf 1 "%x") (.int 28)).Holds extentData := by
  have hok : extentCheck.constraints.outcome =
      .ok [.holds (.equals (.dimOf 1 "%x") (.int 28))] := rfl
  obtain ⟨-, -, -, hholds⟩ := constraints_sound hok meaning_extentCheck
  refine ⟨hok, hholds ?_ _ (List.mem_singleton.2 rfl)⟩
  simp [extentCheck, Statement.Checks, Instruction.Calls, extentData, Builtin.symbol]

end Block

end TensorShape
