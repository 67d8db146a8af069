import Mathlib.Data.Set.Function
import TensorShape.CallGraph.Analysis
import TensorShape.Proofs.Interpretation
import TensorShape.Proofs.Scoping

/-!
# TensorShape.Proofs.RenamedBlocks

Interpretation commutes with renaming.

A block under other names is run beside the block. Registers are keys of the valuation and stand in
the values that it binds, so what is known of `π r` in one run is the renamed value that is known of
`r` in the other (`Valuation.Renames`). This is only asked of the registers that the block mentions,
and only these have to be kept apart by the renaming.

* `effect_mapRegisters`: the effect of a renamed statement is the renamed effect, and its error the
  renamed error;
* `State.Renames.perform` and `State.outcome_run_mapRegisters`: one step and a run;
* `constraints_mapRegisters`: blocks, and the summary of a function, whose blocks are put under
  function-wide names after they are interpreted.
-/

namespace TensorShape

/-! ## Programs under other names -/

def Operand.mapRegister (π : Register → Register) (o : Operand) : Operand := ⟨π o.value, o.ty⟩

namespace Instruction

/-- Rename every register by `π`. -/
def mapRegisters (π : Register → Register) : Instruction → Instruction
  | .integerLiteral ty value => .integerLiteral ty value
  | .builtin name operands ty => .builtin name (operands.map (Operand.mapRegister π)) ty
  | .functionRef name ty => .functionRef name ty
  | .apply callee args => .apply (π callee) (args.map π)
  | .beginApply callee args => .beginApply (π callee) (args.map π)
  | .endApply token => .endApply (π token)
  | .aggregate ty operands => .aggregate ty (operands.map (Operand.mapRegister π))
  | .extract operand field => .extract (operand.mapRegister π) field
  | .other opcode operands => .other opcode (operands.map π)

@[simp] theorem opcode_mapRegisters (π : Register → Register) (i : Instruction) :
    (i.mapRegisters π).opcode = i.opcode := by
  cases i <;> rfl

end Instruction

namespace Statement

def mapRegisters (π : Register → Register) (s : Statement) : Statement :=
  ⟨s.results.map π, s.instruction.mapRegisters π⟩

/-- The registers a statement defines and reads. -/
def registers (s : Statement) : List Register := s.results ++ s.instruction.reads

end Statement

def Terminator.mapRegisters (π : Register → Register) : Terminator → Terminator
  | .ret operand => .ret (operand.mapRegister π)
  | .branch target args => .branch target (args.map π)
  | .condBranch condition thenTarget elseTarget => .condBranch (π condition) thenTarget elseTarget
  | .unreachable => .unreachable

namespace Block

def mapRegisters (π : Register → Register) (b : Block) : Block where
  label := b.label
  arguments := b.arguments.map (Operand.mapRegister π)
  statements := b.statements.map (Statement.mapRegisters π)
  terminator := b.terminator.mapRegisters π

/-- The registers that the statements of a block mention. -/
def registers (b : Block) : Set Register := {r | ∃ s ∈ b.statements, r ∈ s.registers}

end Block

/-- An error speaks of a register only where something is called that is no function. -/
def StepError.mapRegisters (π : Register → Register) : StepError → StepError
  | .nonFunctionCallee register value => .nonFunctionCallee (π register) (value.mapRegisters π)
  | e => e

def Effect.mapRegisters (π : Register → Register) : Effect → Effect
  | .nothing => .nothing
  | .assign values => .assign (values.map (Option.map (Value.mapRegisters π)))
  | .emit c => .emit (c.mapRegisters π)
  | .lostCheck r => .lostCheck (π r)

/-- An outcome under other names: `g` renames a success. -/
def renameOutcome {α β : Type} (π : Register → Register) (g : α → β) :
    Except StepError α → Except StepError β
  | .ok a => .ok (g a)
  | .error e => .error (e.mapRegisters π)

/-! ## Effects under other names -/

variable {π : Register → Register} {R : Set Register} {v w : Valuation}

/-- In `w` the registers of `R` are known under their new names as they are in `v` under the old
ones. -/
def Valuation.Renames (π : Register → Register) (R : Set Register) (v w : Valuation) : Prop :=
  ∀ r ∈ R, w.get? (π r) = (v.get? r).map (Value.mapRegisters π)

/-- What is known of renamed registers is what is known of the registers, renamed. -/
theorem Valuation.Renames.map {α : Type} (h : v.Renames π R w) {register : α → Register}
    {l : List α} (hl : ∀ a ∈ l, register a ∈ R) :
    (l.map fun a => w.get? (π (register a))) =
      (l.map fun a => v.get? (register a)).map (Option.map (Value.mapRegisters π)) := by
  rw [List.map_map]
  exact List.map_congr_left fun a ha => h _ (hl a ha)

/-- An operation on renamed values gives renamed values. -/
theorem interpretOperation_mapRegisters (π : Register → Register) (name : String)
    (values : List (Option Value)) :
    interpretOperation name (values.map (Option.map (Value.mapRegisters π))) =
      (interpretOperation name values).map (List.map (Value.mapRegisters π)) := by
  by_cases hname : name = "cmp_eq_Int64"
  · subst hname
    rcases values with _ | ⟨_ | a, _ | ⟨_ | b, _ | ⟨c, rest⟩⟩⟩ <;> rfl
  · simp [interpretOperation, hname]

/-- The subscript looks for an index and a shape, and renaming changes neither into the other. -/
theorem interpretSubscript_mapRegisters (π : Register → Register) (index shape : Register)
    (values : List (Option Value)) :
    Builtin.shapeSubscript.interpretCall [π index, π shape]
        (values.map (Option.map (Value.mapRegisters π))) =
      renameOutcome π (Option.map (List.map (Option.map (Value.mapRegisters π))))
        (Builtin.shapeSubscript.interpretCall [index, shape] values) := by
  rcases values with _ | ⟨_ | x, values⟩
  · rfl
  · rfl
  · cases x with
    | int axis =>
      rcases values with _ | ⟨_ | y, values⟩
      · rfl
      · rfl
      · cases y <;> rfl
    | _ => rfl

/-- A library function on renamed values gives renamed values, or the error with renamed registers.
-/
theorem interpretCall_mapRegisters (π : Register → Register) (b : Builtin) (args : List Register)
    (values : List (Option Value)) :
    b.interpretCall (args.map π) (values.map (Option.map (Value.mapRegisters π))) =
      renameOutcome π (Option.map (List.map (Option.map (Value.mapRegisters π))))
        (b.interpretCall args values) := by
  cases b with
  | check => rfl
  | rankGetter =>
    rcases args with _ | ⟨tensor, _ | ⟨second, rest⟩⟩
    · rfl
    · rfl
    · simp [Builtin.interpretCall, renameOutcome, StepError.mapRegisters]
  | shapeGetter =>
    rcases args with _ | ⟨tensor, _ | ⟨second, rest⟩⟩
    · rfl
    · rfl
    · simp [Builtin.interpretCall, renameOutcome, StepError.mapRegisters]
  | shapeSubscript =>
    rcases args with _ | ⟨index, _ | ⟨shape, _ | ⟨third, rest⟩⟩⟩
    · rfl
    · rfl
    · exact interpretSubscript_mapRegisters π index shape values
    · simp [Builtin.interpretCall, renameOutcome, StepError.mapRegisters]

theorem ofResults_mapRegisters (π : Register → Register)
    (x : Except StepError (Option (List (Option Value)))) :
    (renameOutcome π (Option.map (List.map (Option.map (Value.mapRegisters π)))) x).map
        Effect.ofResults =
      renameOutcome π (Effect.mapRegisters π) (x.map Effect.ofResults) := by
  rcases x with e | _ | values <;> rfl

/-- A renamed call has the renamed effect. -/
theorem callEffect_mapRegisters (h : v.Renames π R w) {results args : List Register}
    {callee : Register} (hcallee : callee ∈ R) (hargs : ∀ r ∈ args, r ∈ R) :
    callEffect w (results.map π) (π callee) (args.map π) =
      renameOutcome π (Effect.mapRegisters π) (callEffect v results callee args) := by
  have hvalues : (args.map fun r => w.get? (π r)) =
      (args.map v.get?).map (Option.map (Value.mapRegisters π)) := h.map hargs
  unfold callEffect
  rw [h callee hcallee]
  cases v.get? callee with
  | none => rfl
  | some value =>
    cases value with
    | functionRef name =>
      rcases results with _ | ⟨result, _ | ⟨second, rest⟩⟩
      · rfl
      · rfl
      · simp [Value.mapRegisters, renameOutcome, StepError.mapRegisters]
    | builtinRef b =>
      have hcall : (b.interpretCall (args.map π) ((args.map π).map w.get?)).map Effect.ofResults =
          renameOutcome π (Effect.mapRegisters π)
            ((b.interpretCall args (args.map v.get?)).map Effect.ofResults) := by
        rw [List.map_map, ← ofResults_mapRegisters, ← interpretCall_mapRegisters]
        exact congrArg (fun l => (b.interpretCall (args.map π) l).map Effect.ofResults) hvalues
      cases b with
      | check =>
        rcases args with _ | ⟨condition, _ | ⟨second, rest⟩⟩
        · rfl
        · simp only [Option.map_some, Value.mapRegisters, List.map_cons, List.map_nil,
            h condition (hargs condition List.mem_cons_self)]
          cases v.get? condition <;> rfl
        · simp [Value.mapRegisters, renameOutcome, StepError.mapRegisters]
      | rankGetter => exact hcall
      | shapeGetter => exact hcall
      | shapeSubscript => exact hcall
    | _ => rfl

/-- A renamed statement has the renamed effect. -/
theorem rawEffect_mapRegisters (h : v.Renames π R w) {s : Statement}
    (hreads : ∀ r ∈ s.instruction.reads, r ∈ R) :
    rawEffect w (s.mapRegisters π) =
      renameOutcome π (Effect.mapRegisters π) (rawEffect v s) := by
  obtain ⟨results, i⟩ := s
  have hoperands : ∀ operands : List Operand, (∀ r ∈ operands.map Operand.value, r ∈ R) →
      ((operands.map (Operand.mapRegister π)).map fun o => w.get? o.value) =
        (operands.map fun o => v.get? o.value).map (Option.map (Value.mapRegisters π)) := by
    intro operands hmem
    rw [List.map_map]
    exact h.map fun o ho => hmem o.value (List.mem_map_of_mem ho)
  cases i with
  | integerLiteral ty value =>
    simp only [rawEffect, Statement.mapRegisters, Instruction.mapRegisters]
    cases ty.builtinMember? with
    | none => rfl
    | some member => cases hmember : isIntegerType member <;> simp only [hmember] <;> rfl
  | builtin name operands ty =>
    simp only [rawEffect, Statement.mapRegisters, Instruction.mapRegisters,
      hoperands operands hreads, interpretOperation_mapRegisters]
    cases interpretOperation name (operands.map fun o => v.get? o.value) with
    | none => rfl
    | some values => simp [renameOutcome, Effect.mapRegisters, Effect.ofResults]
  | functionRef name ty =>
    simp only [rawEffect, Statement.mapRegisters, Instruction.mapRegisters]
    cases Builtin.ofSymbol? name <;> rfl
  | apply callee args =>
    rw [Instruction.reads, List.forall_mem_cons] at hreads
    exact callEffect_mapRegisters h hreads.1 hreads.2
  | beginApply callee args =>
    rw [Instruction.reads, List.forall_mem_cons] at hreads
    exact callEffect_mapRegisters h hreads.1 hreads.2
  | aggregate ty operands =>
    simp only [rawEffect, Statement.mapRegisters, Instruction.mapRegisters,
      hoperands operands hreads]
    split <;> rfl
  | extract operand field =>
    have hoperand := h operand.value (hreads _ (List.mem_singleton.2 rfl))
    simp only [rawEffect, Statement.mapRegisters, Instruction.mapRegisters, Operand.mapRegister,
      hoperand]
    split <;> rfl
  | endApply token => rfl
  | other opcode operands => rfl

/-- A renamed statement has the renamed effect, or the renamed error: as many values are assigned to
as many registers. -/
theorem effect_mapRegisters (h : v.Renames π R w) {s : Statement}
    (hreads : ∀ r ∈ s.instruction.reads, r ∈ R) :
    effect w (s.mapRegisters π) = renameOutcome π (Effect.mapRegisters π) (effect v s) := by
  unfold effect
  rw [rawEffect_mapRegisters h hreads]
  rcases rawEffect v s with e | e
  · rfl
  · cases e with
    | assign values =>
      by_cases hlen : values.length = s.results.length <;>
        simp [renameOutcome, Effect.mapRegisters, StepError.mapRegisters, Statement.mapRegisters,
          hlen]
    | _ => rfl

/-! ## Runs under other names -/

namespace State

/-- What is known and what was emitted is the same in both states, up to the names. -/
structure Renames (π : Register → Register) (R : Set Register) (st st' : State) : Prop where
  valuation : st.valuation.Renames π R st'.valuation
  constraints : st'.constraints = st.constraints.map (Constraint.mapRegisters π)

end State

namespace Valuation.Renames

/-- Writing a register and its renamed copy keeps the two valuations alike. -/
theorem set (h : v.Renames π R w) (hπ : Set.InjOn π R) {r : Register} (hr : r ∈ R)
    (x : Option Value) :
    (v.set r x).Renames π R (w.set (π r) (x.map (Value.mapRegisters π))) := by
  intro r' hr'
  rw [get?_set, get?_set]
  by_cases heq : r = r'
  · rw [if_pos heq, if_pos (congrArg π heq)]
  · rw [if_neg heq, if_neg fun hπeq => heq (hπ hr hr' hπeq), h r' hr']

theorem setAll (h : v.Renames π R w) (hπ : Set.InjOn π R) {registers : List Register}
    (hregisters : ∀ r ∈ registers, r ∈ R) (values : List (Option Value)) :
    (v.setAll (registers.zip values)).Renames π R
      (w.setAll ((registers.map π).zip (values.map (Option.map (Value.mapRegisters π))))) := by
  induction registers generalizing v w values with
  | nil => exact h
  | cons r registers ih =>
    rw [List.forall_mem_cons] at hregisters
    cases values with
    | nil => exact h
    | cons x values => exact ih (h.set hπ hregisters.1 x) hregisters.2 values

end Valuation.Renames

namespace State

variable {st st' : State}

theorem renames_start : start.Renames π R start where
  valuation _ _ := rfl
  constraints := rfl

/-- Carrying out an effect and its renamed copy keeps the two states alike. -/
theorem Renames.perform (h : st.Renames π R st') (hπ : Set.InjOn π R) {results : List Register}
    (hresults : ∀ r ∈ results, r ∈ R) (e : Effect) :
    (st.perform results e).Renames π R (st'.perform (results.map π) (e.mapRegisters π)) := by
  cases e with
  | assign values => exact ⟨h.valuation.setAll hπ hresults values, h.constraints⟩
  | emit c =>
    refine ⟨h.valuation, ?_⟩
    simp [State.perform, Effect.mapRegisters, h.constraints]
  | nothing => exact h
  | lostCheck r => exact h

theorem outcome_run_cons (st : State) (s : Statement) (statements : List Statement) :
    (st.run (s :: statements)).outcome = st.step s >>= fun st₁ => (st₁.run statements).outcome := by
  simp only [run, List.foldlM_cons, Report.outcome_bind, outcome_stepReport]

/-- A run of renamed statements emits the renamed constraints, or ends with the renamed error. -/
theorem outcome_run_mapRegisters (h : st.Renames π R st') (hπ : Set.InjOn π R)
    {statements : List Statement} (hstatements : ∀ s ∈ statements, ∀ r ∈ s.registers, r ∈ R) :
    (st'.run (statements.map (Statement.mapRegisters π))).outcome.map State.constraints =
      renameOutcome π (List.map (Constraint.mapRegisters π))
        ((st.run statements).outcome.map State.constraints) := by
  induction statements generalizing st st' with
  | nil => exact congrArg Except.ok h.constraints
  | cons s statements ih =>
    rw [List.forall_mem_cons] at hstatements
    obtain ⟨hhead, htail⟩ := hstatements
    have hresults : ∀ r ∈ s.results, r ∈ R := fun r hr => hhead r (List.mem_append_left _ hr)
    have hreads : ∀ r ∈ s.instruction.reads, r ∈ R :=
      fun r hr => hhead r (List.mem_append_right _ hr)
    rw [List.map_cons, outcome_run_cons, outcome_run_cons, step, step,
      effect_mapRegisters h.valuation hreads]
    cases effect st.valuation s with
    | error e => rfl
    | ok e => exact ih (h.perform hπ hresults e) htail

end State

/-! ## Blocks under other names -/

namespace Block

/-- The constraints of a block are those of its run from the start. -/
theorem outcome_constraints (b : Block) :
    b.constraints.outcome = (State.start.run b.statements).outcome.map State.constraints := by
  rw [constraints, Report.outcome_bind]
  cases (State.start.run b.statements).outcome <;> rfl

/-- A block whose registers are renamed apart has the renamed constraints, or fails with the renamed
error. -/
theorem outcome_constraints_mapRegisters (b : Block) (hπ : Set.InjOn π b.registers) :
    (b.mapRegisters π).constraints.outcome =
      renameOutcome π (List.map (Constraint.mapRegisters π)) b.constraints.outcome := by
  rw [outcome_constraints, outcome_constraints]
  exact State.outcome_run_mapRegisters State.renames_start hπ fun s hs r hr => ⟨s, hs, hr⟩

end Block

/-! ## Function-wide names -/

/-- The constraints of each block, if the block is put under function-wide names before it is
interpreted. -/
def Function.scopedConstraints (f : Function) : Report StepError (List (List Constraint)) :=
  f.blocks.zipIdx.mapM fun p => (p.1.mapRegisters (f.scope p.2)).constraints

/-- Names without a colon are kept apart in each block. -/
theorem Function.scope_injOn (f : Function) (index : Nat) {b : Block}
    (h : ∀ r ∈ b.registers, ':' ∉ r.toList) : Set.InjOn (f.scope index) b.registers :=
  fun r hr s hs heq => scope_inj (h r hr) (h s hs) heq

/-- **Interpretation commutes with renaming.** If a renaming keeps the registers of a block apart,
the renamed block has the renamed constraints, or the renamed error. So a function whose blocks are
put under function-wide names before they are interpreted has the summary that it has if this is
done afterwards. -/
theorem constraints_mapRegisters :
    (∀ (b : Block) (π : Register → Register), Set.InjOn π b.registers →
      (b.mapRegisters π).constraints.outcome =
        renameOutcome π (List.map (Constraint.mapRegisters π)) b.constraints.outcome) ∧
    ∀ f : Function, (∀ p ∈ f.blocks.zipIdx, Set.InjOn (f.scope p.2) p.1.registers) → ∀ s,
      (f.summarize.outcome = .ok s ↔
        ∃ parts, f.scopedConstraints.outcome = .ok parts ∧
          s = ⟨f.name, f.params, f.returnedRegisters, parts.flatten⟩) := by
  refine ⟨fun b π hπ => b.outcome_constraints_mapRegisters hπ, fun f hscope s => ?_⟩
  rw [Function.summarize, Report.outcome_bind_eq_ok]
  refine exists_congr fun parts => and_congr ?_ ?_
  · rw [Function.scopedConstraints, Report.outcome_mapM_eq_ok, Report.outcome_mapM_eq_ok]
    refine Eq.congr_left (List.map_congr_left fun p hp => ?_)
    rw [p.1.outcome_constraints_mapRegisters (hscope p hp), Report.outcome_bind]
    cases p.1.constraints.outcome <;> rfl
  · rw [Report.outcome_bind, Report.outcome_log]
    exact ⟨fun h => (Except.ok.inj h).symm, fun h => congrArg Except.ok h.symm⟩

/-- Two blocks that call `g` on the parameter and put the result into the same register. -/
def callTwice : Function where
  name := "f"
  blocks :=
    [⟨"bb0", [⟨"%x", .named "Tensor"⟩],
        [⟨["%0"], .functionRef "g" (.named "G")⟩, ⟨["%1"], .apply "%0" ["%x"]⟩], .branch "bb1" []⟩,
      ⟨"bb1", [],
        [⟨["%0"], .functionRef "g" (.named "G")⟩, ⟨["%1"], .apply "%0" ["%x"]⟩],
        .ret ⟨"%1", .named "Tensor"⟩⟩]

/-- A block that calls a literal. -/
def literalCall : Block where
  label := "bb0"
  arguments := []
  statements :=
    [⟨["%0"], .integerLiteral (.select (.named "Builtin") "Int64") 3⟩, ⟨["%1"], .apply "%0" []⟩]
  terminator := .unreachable

/-- The second call of `g` gets its own name, before the block is interpreted or after it. An error
speaks of the renamed register. -/
theorem constraints_mapRegisters_callTwice :
    callTwice.summarize.outcome = .ok ⟨"f", ["%x"], ["bb1::%1"],
      [.call "g" "%1" ["%x"], .call "g" "bb1::%1" ["%x"]]⟩ ∧
    (∃ parts, callTwice.scopedConstraints.outcome = .ok parts ∧
      parts.flatten = [.call "g" "%1" ["%x"], .call "g" "bb1::%1" ["%x"]]) ∧
    literalCall.constraints.outcome = .error (.nonFunctionCallee "%0" (.int 3)) ∧
    (literalCall.mapRegisters ("bb1::" ++ ·)).constraints.outcome =
      .error (.nonFunctionCallee "bb1::%0" (.int 3)) := by
  have hsummary : callTwice.summarize.outcome = .ok ⟨"f", ["%x"], ["bb1::%1"],
      [.call "g" "%1" ["%x"], .call "g" "bb1::%1" ["%x"]]⟩ := rfl
  have hcolon : ∀ b ∈ callTwice.blocks, ∀ s ∈ b.statements, ∀ r ∈ s.registers, ':' ∉ r.toList := by
    decide
  have hscope : ∀ p ∈ callTwice.blocks.zipIdx,
      Set.InjOn (callTwice.scope p.2) p.1.registers := by
    intro p hp
    refine callTwice.scope_injOn p.2 fun r hr => ?_
    obtain ⟨s, hs, hr⟩ := hr
    exact hcolon p.1 (List.fst_mem_of_mem_zipIdx hp) s hs r hr
  have herror : literalCall.constraints.outcome = .error (.nonFunctionCallee "%0" (.int 3)) := rfl
  have hinj : Set.InjOn ("bb1::" ++ ·) literalCall.registers := by
    intro r _ s _ h
    simpa using h
  refine ⟨hsummary, ?_, herror, ?_⟩
  · obtain ⟨parts, hparts, heq⟩ := (constraints_mapRegisters.2 callTwice hscope _).1 hsummary
    exact ⟨parts, hparts, (congrArg Summary.constraints heq).symm⟩
  · rw [constraints_mapRegisters.1 literalCall _ hinj, herror]
    rfl

end TensorShape
