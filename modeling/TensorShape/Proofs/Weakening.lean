import Mathlib.Data.List.Forall2
import TensorShape.Proofs.Interpretation

/-!
# TensorShape.Proofs.Weakening

Losing information creates no constraint and no error.

A run is compared with one that starts with less known (`Valuation.Below`) and in which some
statements are replaced by ones that the interpreter knows nothing of (`Statement.Weakens`). A
register may then be unknown that was a function, a condition or an index before, so that a
statement does nothing where it called, checked or assigned. It never does anything else instead
(`Effect.Weaker`):

* `Effect.exists_weaker`: the effect of a statement with less known;
* `State.exists_step_below`: one step of both runs;
* `State.run_of_lost_information`: the runs.

Why a register is defined once only: a result that is known in the weaker run and computed again
from something unknown would keep its old value there, and get a new one in the other run.
-/

namespace TensorShape

/-! ## Less known -/

/-- What is known in the first place is known, and the same, in the second. -/
def LessKnown (x y : Option Value) : Prop := ∀ a, x = some a → y = some a

theorem LessKnown.refl (x : Option Value) : LessKnown x x := fun _ h => h

namespace Valuation

/-- The second valuation binds every register that the first one binds, to the same value. -/
def Below (v w : Valuation) : Prop := ∀ r, LessKnown (v.get? r) (w.get? r)

/-- None of the registers is bound. -/
def Lacks (v : Valuation) (registers : List Register) : Prop := ∀ r ∈ registers, v.get? r = none

variable {v w : Valuation}

/-- Writing less into what knows less leaves it knowing less. -/
theorem Below.set (h : v.Below w) (r : Register) {x y : Option Value} (hxy : LessKnown x y) :
    (v.set r x).Below (w.set r y) := by
  intro r' a ha
  rw [get?_set] at ha ⊢
  by_cases hr : r = r'
  · rw [if_pos hr] at ha ⊢
    exact hxy a ha
  · rw [if_neg hr] at ha ⊢
    exact h r' a ha

/-- Writing less, register by register, into what knows less leaves it knowing less. -/
theorem Below.setAll (h : v.Below w) (registers : List Register) {xs ys : List (Option Value)}
    (hxs : List.Forall₂ LessKnown xs ys) :
    (v.setAll (registers.zip xs)).Below (w.setAll (registers.zip ys)) := by
  induction hxs generalizing v w registers with
  | nil =>
    rw [List.zip_nil_right]
    exact h
  | cons hxy _ ih =>
    cases registers with
    | nil => exact h
    | cons r registers => exact ih (h.set r hxy) registers

theorem get?_setAll_of_not_mem {r : Register} {registers : List Register} (hr : r ∉ registers)
    (xs : List (Option Value)) : (v.setAll (registers.zip xs)).get? r = v.get? r := by
  induction registers generalizing v xs with
  | nil => rfl
  | cons r' registers ih =>
    rw [List.mem_cons, not_or] at hr
    cases xs with
    | nil => rfl
    | cons x xs =>
      have hrest := ih (v := v.set r' x) hr.2 xs
      rw [get?_set, if_neg (Ne.symm hr.1)] at hrest
      exact hrest

/-- Registers of which nothing is known may be given any value in the valuation above. -/
theorem Below.setAll_right (h : v.Below w) {registers : List Register} (hlacks : v.Lacks registers)
    (ys : List (Option Value)) : v.Below (w.setAll (registers.zip ys)) := by
  intro r a ha
  have hr : r ∉ registers := by
    intro hmem
    rw [hlacks r hmem] at ha
    cases ha
  rw [get?_setAll_of_not_mem hr]
  exact h r a ha

/-- What is known of a list of registers. -/
theorem Below.forall₂_map {α : Type} (h : v.Below w) (register : α → Register) (l : List α) :
    List.Forall₂ LessKnown (l.map fun a => v.get? (register a))
      (l.map fun a => w.get? (register a)) := by
  rw [List.forall₂_map_left_iff, List.forall₂_map_right_iff, List.forall₂_same]
  intro a _
  exact h (register a)

end Valuation

/-! ## Effects with less known -/

/-- The first effect does nothing, or it does what the second does, with no more known. -/
inductive Effect.Weaker : Effect → Effect → Prop
  | nothing (e : Effect) : Effect.Weaker .nothing e
  | lostCheck (r : Register) (e : Effect) : Effect.Weaker (.lostCheck r) e
  | assign {xs ys : List (Option Value)} (h : List.Forall₂ LessKnown xs ys) :
      Effect.Weaker (.assign xs) (.assign ys)
  | emit (c : Constraint) : Effect.Weaker (.emit c) (.emit c)

theorem Effect.Weaker.refl (e : Effect) : e.Weaker e := by
  cases e with
  | nothing => exact .nothing _
  | assign values => exact .assign (List.forall₂_same.2 fun x _ => .refl x)
  | emit c => exact .emit c
  | lostCheck r => exact .lostCheck r _

/-- The constraints that an effect adds. -/
def Effect.emitted : Effect → List Constraint
  | .emit c => [c]
  | _ => []

/-- A weaker effect emits no more. -/
theorem Effect.Weaker.emitted_sublist {e₁ e₂ : Effect} (h : e₁.Weaker e₂) :
    e₁.emitted.Sublist e₂.emitted := by
  cases h with
  | nothing => exact List.nil_sublist _
  | lostCheck => exact List.nil_sublist _
  | assign => exact List.nil_sublist _
  | emit c => exact List.Sublist.refl _

/-- An operation on what is known in the first place has the same results in the second. -/
theorem interpretOperation_of_lessKnown {name : String} {xs ys : List (Option Value)}
    {values : List Value} (hxs : List.Forall₂ LessKnown xs ys)
    (h : interpretOperation name xs = some values) : interpretOperation name ys = some values := by
  unfold interpretOperation at h
  split at h
  · next a b =>
    obtain ⟨y, ys, ha, hrest, rfl⟩ := List.forall₂_cons_left_iff.1 hxs
    obtain ⟨z, zs, hb, hnil, rfl⟩ := List.forall₂_cons_left_iff.1 hrest
    cases List.forall₂_nil_left_iff.1 hnil
    rw [ha a rfl, hb b rfl]
    exact h
  · cases h

/-- A library function called with less known has the same results, or none that are known. -/
theorem Builtin.interpretCall_of_lessKnown {b : Builtin} {args : List Register}
    {xs ys : List (Option Value)} {found : Option (List (Option Value))}
    (hxs : List.Forall₂ LessKnown xs ys) (h : b.interpretCall args ys = .ok found) :
    b.interpretCall args xs = .ok none ∨ b.interpretCall args xs = .ok found := by
  unfold interpretCall at h
  split at h
  · exact .inr h
  · cases h
  · exact .inr h
  · cases h
  · -- The subscript alone looks at what is known of its arguments: an index and a shape.
    simp only [interpretCall]
    split
    · next axis tensor rest =>
      obtain ⟨y, ys', hy, hrest, rfl⟩ := List.forall₂_cons_left_iff.1 hxs
      obtain ⟨z, zs, hz, -, rfl⟩ := List.forall₂_cons_left_iff.1 hrest
      rw [hy _ rfl, hz _ rfl] at h
      exact .inr h
    · exact .inl rfl
  · cases h
  · cases h

/-- A library function that knows less of its arguments has a weaker effect. -/
theorem exists_weaker_ofResults {v w : Valuation} (hbelow : v.Below w) {b : Builtin}
    {args : List Register} {e : Effect}
    (h : (b.interpretCall args (args.map w.get?)).map Effect.ofResults = .ok e) :
    ∃ e', (b.interpretCall args (args.map v.get?)).map Effect.ofResults = .ok e' ∧ e'.Weaker e := by
  cases hcall : b.interpretCall args (args.map w.get?) with
  | error err =>
    rw [hcall] at h
    cases h
  | ok found =>
    rw [hcall] at h
    cases h
    rcases Builtin.interpretCall_of_lessKnown (hbelow.forall₂_map id args) hcall with hnone | hsame
    · exact ⟨.nothing, congrArg (Except.map Effect.ofResults) hnone, .nothing _⟩
    · exact ⟨.ofResults found, congrArg (Except.map Effect.ofResults) hsame, .refl _⟩

/-- The effect of a call with less known. -/
theorem exists_weaker_callEffect {v w : Valuation} (hbelow : v.Below w)
    {results args : List Register} {callee : Register} {e : Effect}
    (h : callEffect w results callee args = .ok e) :
    ∃ e', callEffect v results callee args = .ok e' ∧ e'.Weaker e := by
  unfold callEffect at h ⊢
  cases hcallee : v.get? callee with
  | none => exact ⟨.nothing, rfl, .nothing e⟩
  | some value =>
    rw [hbelow callee value hcallee] at h
    cases value with
    | functionRef name => exact ⟨e, h, .refl e⟩
    | builtinRef b =>
      cases b with
      | check =>
        simp only at h ⊢
        split at h
        · next condition =>
          cases hcondition : v.get? condition with
          | none => exact ⟨.lostCheck condition, rfl, .lostCheck condition e⟩
          | some x =>
            rw [hbelow condition x hcondition] at h
            exact ⟨e, h, .refl e⟩
        · cases h
      | rankGetter => exact exists_weaker_ofResults hbelow h
      | shapeGetter => exact exists_weaker_ofResults hbelow h
      | shapeSubscript => exact exists_weaker_ofResults hbelow h
    | int k => cases h
    | shapeOf r => cases h
    | rankOf r => cases h
    | dimOf k r => cases h
    | equals x y => cases h

/-- A statement that knows less of its registers has a weaker effect. -/
theorem exists_weaker_rawEffect {v w : Valuation} (hbelow : v.Below w) {s : Statement} {e : Effect}
    (h : rawEffect w s = .ok e) : ∃ e', rawEffect v s = .ok e' ∧ e'.Weaker e := by
  obtain ⟨results, i⟩ := s
  cases i with
  | integerLiteral ty value => exact ⟨e, h, .refl e⟩
  | builtin name operands ty =>
    have hoperands := hbelow.forall₂_map Operand.value operands
    simp only [rawEffect] at h ⊢
    cases hop : interpretOperation name (operands.map fun o => v.get? o.value) with
    | none => exact ⟨.nothing, rfl, .nothing e⟩
    | some values =>
      rw [interpretOperation_of_lessKnown hoperands hop] at h
      exact ⟨e, h, .refl e⟩
  | functionRef name ty => exact ⟨e, h, .refl e⟩
  | apply callee args => exact exists_weaker_callEffect hbelow h
  | beginApply callee args => exact exists_weaker_callEffect hbelow h
  | aggregate ty operands =>
    simp only [rawEffect] at h ⊢
    split at h
    · next hty =>
      cases h
      exact ⟨_, if_pos hty, .assign (hbelow.forall₂_map Operand.value operands)⟩
    · next hty =>
      cases h
      exact ⟨_, if_neg hty, .nothing _⟩
  | extract operand field =>
    simp only [rawEffect] at h ⊢
    split at h
    · next hfield =>
      cases h
      exact ⟨_, if_pos hfield, .assign (.cons (hbelow operand.value) .nil)⟩
    · next hfield =>
      cases h
      exact ⟨_, if_neg hfield, .nothing _⟩
  | endApply token => exact ⟨e, h, .refl e⟩
  | other opcode operands => exact ⟨e, h, .refl e⟩

/-- A statement that has an effect has one with less known, and it does no more. As many values are
assigned as before, if any are. -/
theorem Effect.exists_weaker {v w : Valuation} (hbelow : v.Below w) {s : Statement} {e : Effect}
    (h : effect w s = .ok e) : ∃ e', effect v s = .ok e' ∧ e'.Weaker e := by
  obtain ⟨e', hraw, hweaker⟩ := exists_weaker_rawEffect hbelow (rawEffect_of_effect h)
  refine ⟨e', ?_, hweaker⟩
  unfold effect
  rw [hraw]
  cases hweaker with
  | nothing => rfl
  | lostCheck => rfl
  | assign hxs =>
    have hlen := length_of_effect_assign h
    rw [← hxs.length_eq] at hlen
    exact if_pos hlen
  | emit c => rfl

/-! ## Two runs -/

/-- The first statement is the second, or one in its place that the interpreter knows nothing of. -/
inductive Statement.Weakens : Statement → Statement → Prop
  | same (s : Statement) : Weakens s s
  | lost (s : Statement) (opcode : String) (operands : List Register) :
      Weakens ⟨s.results, .other opcode operands⟩ s

namespace State

variable {weak weak' strong strong' : State} {results : List Register}

/-! ### One step -/

theorem constraints_perform (st : State) (results : List Register) (e : Effect) :
    (st.perform results e).constraints = st.constraints ++ e.emitted := by
  cases e <;> simp [perform, Effect.emitted]

theorem get?_perform_of_not_mem (st : State) {r : Register} (hr : r ∉ results) (e : Effect) :
    (st.perform results e).valuation.get? r = st.valuation.get? r := by
  cases e with
  | assign values => exact Valuation.get?_setAll_of_not_mem hr values
  | nothing => rfl
  | emit c => rfl
  | lostCheck r => rfl

/-- Whatever a statement does, it does not change what is known of other registers. -/
theorem below_perform_right (hbelow : weak.valuation.Below strong.valuation)
    (hlacks : weak.valuation.Lacks results) (e : Effect) :
    weak.valuation.Below (strong.perform results e).valuation := by
  cases e with
  | assign values => exact hbelow.setAll_right hlacks values
  | nothing => exact hbelow
  | emit c => exact hbelow
  | lostCheck r => exact hbelow

/-- Carrying out a weaker effect on what knows less leaves it knowing less. -/
theorem below_perform (hbelow : weak.valuation.Below strong.valuation)
    (hlacks : weak.valuation.Lacks results) {e e' : Effect} (h : e.Weaker e') :
    (weak.perform results e).valuation.Below (strong.perform results e').valuation := by
  cases h with
  | nothing => exact below_perform_right hbelow hlacks e'
  | lostCheck => exact below_perform_right hbelow hlacks e'
  | assign hxs => exact hbelow.setAll results hxs
  | emit c => exact hbelow

/-- A statement and one that weakens it put their results into the same registers, and what the
latter does with less known is weaker. -/
theorem exists_weaker_of_weakens {s s' : Statement} (hs : s.Weakens s') {v w : Valuation}
    (hbelow : v.Below w) {e' : Effect} (h : effect w s' = .ok e') :
    s.results = s'.results ∧ ∃ e, effect v s = .ok e ∧ e.Weaker e' := by
  cases hs with
  | same => exact ⟨rfl, Effect.exists_weaker hbelow h⟩
  | lost opcode operands => exact ⟨rfl, .nothing, rfl, .nothing e'⟩

/-- A step that succeeds also succeeds with less known. It then knows and emits no more, and touches
no other registers. -/
theorem exists_step_below {s s' : Statement} (hs : s.Weakens s')
    (hbelow : weak.valuation.Below strong.valuation) (hlacks : weak.valuation.Lacks s'.results)
    (h : strong.step s' = .ok strong') :
    ∃ weak', weak.step s = .ok weak' ∧ weak'.valuation.Below strong'.valuation ∧
      (∀ r, r ∉ s'.results → weak'.valuation.get? r = weak.valuation.get? r) ∧
      ∃ emitted emitted', weak'.constraints = weak.constraints ++ emitted ∧
        strong'.constraints = strong.constraints ++ emitted' ∧ emitted.Sublist emitted' := by
  obtain ⟨e', heffect', rfl⟩ := step_eq_ok h
  obtain ⟨hresults, e, heffect, hweaker⟩ := exists_weaker_of_weakens hs hbelow heffect'
  have hstep : weak.step s = .ok (weak.perform s'.results e) := by
    rw [step, heffect, hresults]
    rfl
  refine ⟨_, hstep, below_perform hbelow hlacks hweaker, ?_, e.emitted, e'.emitted, ?_, ?_, ?_⟩
  · intro r hr
    exact get?_perform_of_not_mem weak hr e
  · exact constraints_perform weak s'.results e
  · exact constraints_perform strong s'.results e'
  · exact hweaker.emitted_sublist

/-! ### A run -/

/-- Losing information creates no constraint and no error: if a list of statements, each register
of which is defined once, runs without error, then so does the list with any of them replaced by
statements that the interpreter knows nothing of, from a state in which no more is known, and
nothing of the results. No more is known in the end, and the constraints emitted are some of those
that the full run emits, in the same order. -/
theorem run_of_lost_information {statements statements' : List Statement}
    (hweakens : List.Forall₂ Statement.Weakens statements statements')
    (hnodup : (statements'.flatMap Statement.results).Nodup)
    (hbelow : weak.valuation.Below strong.valuation)
    (hlacks : weak.valuation.Lacks (statements'.flatMap Statement.results))
    (h : (strong.run statements').outcome = .ok strong') :
    ∃ weak', (weak.run statements).outcome = .ok weak' ∧
      weak'.valuation.Below strong'.valuation ∧
      ∃ emitted emitted', weak'.constraints = weak.constraints ++ emitted ∧
        strong'.constraints = strong.constraints ++ emitted' ∧ emitted.Sublist emitted' := by
  induction hweakens generalizing weak strong with
  | nil =>
    cases h
    exact ⟨weak, rfl, hbelow, [], [], by simp, by simp, List.Sublist.refl []⟩
  | @cons s s' statements statements' hs _ ih =>
    obtain ⟨strong₁, hstep', hrest'⟩ := outcome_run_cons_eq_ok.1 h
    rw [List.flatMap_cons] at hnodup hlacks
    obtain ⟨-, hnodup, hdisjoint⟩ := List.nodup_append.1 hnodup
    have hlacksHead : weak.valuation.Lacks s'.results := fun r hr =>
      hlacks r (List.mem_append_left _ hr)
    obtain ⟨weak₁, hstep, hbelow₁, hother, out, out', hout, hout', hsublist⟩ :=
      exists_step_below hs hbelow hlacksHead hstep'
    -- The results still to come are none of those of this step, so they are still unknown.
    have hlacksTail : weak₁.valuation.Lacks (statements'.flatMap Statement.results) := by
      intro r hr
      have hnew : r ∉ s'.results := fun hmem => hdisjoint r hmem r hr rfl
      rw [hother r hnew]
      exact hlacks r (List.mem_append_right _ hr)
    obtain ⟨weak', hrest, hbelow', more, more', hmore, hmore', hsublist'⟩ :=
      ih hnodup hbelow₁ hlacksTail hrest'
    refine ⟨weak', outcome_run_cons_eq_ok.2 ⟨weak₁, hstep, hrest⟩, hbelow', out ++ more,
      out' ++ more', ?_, ?_, hsublist.append hsublist'⟩
    · rw [hmore, hout, List.append_assoc]
    · rw [hmore', hout', List.append_assoc]

/-- A literal of the builtin type of 64-bit words. -/
def literal (k : Int64) : Instruction := .integerLiteral (.select (.named "Builtin") "Int64") k

/-- Two checks: that a literal is itself, and that it is what an instruction puts into `%1`. -/
def literalChecks (i : Instruction) : List Statement :=
  [⟨["%f"], .functionRef Builtin.check.symbol (.named "Check")⟩,
    ⟨["%0"], literal 2⟩,
    ⟨["%1"], i⟩,
    ⟨["%2"], .builtin "cmp_eq_Int64" [⟨"%0", .named "Int64"⟩, ⟨"%0", .named "Int64"⟩]
      (.named "Int1")⟩,
    ⟨["%3"], .apply "%f" ["%2"]⟩,
    ⟨["%4"], .builtin "cmp_eq_Int64" [⟨"%0", .named "Int64"⟩, ⟨"%1", .named "Int64"⟩]
      (.named "Int1")⟩,
    ⟨["%5"], .apply "%f" ["%4"]⟩]

/-- If the second literal is lost, so is the second check, and the first stays. -/
theorem run_of_lost_literal :
    ((literalChecks (literal 3)).flatMap Statement.results).Nodup ∧
    ∃ weak strong,
      (start.run (literalChecks (.other "load" ["%p"]))).outcome = .ok weak ∧
      (start.run (literalChecks (literal 3))).outcome = .ok strong ∧
      weak.valuation.Below strong.valuation ∧
      weak.constraints = [.holds (.equals (.int 2) (.int 2))] ∧
      strong.constraints =
        [.holds (.equals (.int 2) (.int 2)), .holds (.equals (.int 2) (.int 3))] := by
  have hnodup : ((literalChecks (literal 3)).flatMap Statement.results).Nodup := by decide
  have hweakens : List.Forall₂ Statement.Weakens (literalChecks (.other "load" ["%p"]))
      (literalChecks (literal 3)) :=
    .cons (.same _) (.cons (.same _) (.cons (.lost ⟨["%1"], literal 3⟩ "load" ["%p"])
      (List.forall₂_same.2 fun s _ => .same s)))
  have hbelow : start.valuation.Below start.valuation := fun r => .refl _
  have hlacks : start.valuation.Lacks ((literalChecks (literal 3)).flatMap Statement.results) :=
    fun r _ => rfl
  obtain ⟨weak, hweak, hbelow', -⟩ := run_of_lost_information hweakens hnodup hbelow hlacks rfl
  refine ⟨hnodup, weak, _, hweak, rfl, hbelow', ?_, rfl⟩
  cases hweak
  rfl

end State

end TensorShape
