import TensorShape.Proofs.RenamedBlocks
import TensorShape.Proofs.Tables
import TensorShape.Proofs.Weakening

/-!
# TensorShape.Proofs.Reordering

Independent statements may be exchanged.

What a statement does depends on the registers it consults (`effect_congr`), and it changes what is
known of its results only. Two statements of which neither puts a result where the other looks or
writes (`Statement.Independent`) have the same effects in either order, so a run fails in both orders
or in none. It comes to the same valuation, and what each of them emits is exchanged with them.

* `trace?`: what each statement of a run emits, and what is known in the end;
* `trace?_exchangeAt`: one exchange;
* `trace?_reorder`: a reordering that is made of exchanges. What is emitted is reordered by the
  same exchanges;
* `run_reorder_of_independent`: two statements, and a block.
-/

namespace TensorShape

/-! ## Independent statements -/

/-- The registers whose value the interpreter looks up: those that the instruction reads, unless it
ends a coroutine or is one that the interpreter knows nothing of. -/
def Instruction.consulted : Instruction → List Register
  | .endApply _ => []
  | .other .. => []
  | i => i.reads

/-- Neither statement has a result that is a result of the other or is consulted by it. -/
structure Statement.Independent (s t : Statement) : Prop where
  results : ∀ r ∈ s.results, r ∉ t.results
  consulted : ∀ r ∈ s.results, r ∉ t.instruction.consulted
  consulted_left : ∀ r ∈ t.results, r ∉ s.instruction.consulted

theorem Statement.Independent.symm {s t : Statement} (h : s.Independent t) : t.Independent s where
  results r ht hs := h.results r hs ht
  consulted := h.consulted_left
  consulted_left := h.consulted

/-! ## Effects and what they depend on -/

/-- Of a valuation, a call depends on its callee and its arguments. -/
theorem callEffect_congr {v w : Valuation} {callee : Register} {args : List Register}
    (hcallee : v.get? callee = w.get? callee) (hargs : ∀ r ∈ args, v.get? r = w.get? r)
    (results : List Register) :
    callEffect v results callee args = callEffect w results callee args := by
  have hvalues : args.map v.get? = args.map w.get? := List.map_congr_left hargs
  unfold callEffect
  rw [hcallee, hvalues]
  rcases args with _ | ⟨condition, _ | ⟨second, rest⟩⟩
  · rfl
  · simp only [hargs condition List.mem_cons_self]
  · rfl

/-- The effect of a statement depends on the registers that it consults. -/
theorem rawEffect_congr {v w : Valuation} {s : Statement}
    (h : ∀ r ∈ s.instruction.consulted, v.get? r = w.get? r) : rawEffect v s = rawEffect w s := by
  obtain ⟨results, i⟩ := s
  have hoperands : ∀ operands : List Operand,
      (∀ r ∈ operands.map Operand.value, v.get? r = w.get? r) →
      (operands.map fun o => v.get? o.value) = operands.map fun o => w.get? o.value :=
    fun operands hreads => List.map_congr_left fun o ho => hreads _ (List.mem_map_of_mem ho)
  cases i with
  | builtin name operands ty => simp only [rawEffect, hoperands operands h]
  | apply callee args =>
    obtain ⟨hcallee, hargs⟩ := List.forall_mem_cons.1 h
    exact callEffect_congr hcallee hargs results
  | beginApply callee args =>
    obtain ⟨hcallee, hargs⟩ := List.forall_mem_cons.1 h
    exact callEffect_congr hcallee hargs results
  | aggregate ty operands => simp only [rawEffect, hoperands operands h]
  | extract operand field =>
    have hoperand : v.get? operand.value = w.get? operand.value := h _ (List.mem_singleton.2 rfl)
    simp only [rawEffect, hoperand]
  | integerLiteral ty value => rfl
  | functionRef name ty => rfl
  | endApply token => rfl
  | other opcode operands => rfl

/-- Of a valuation, a statement depends on the registers it consults. -/
theorem effect_congr {v w : Valuation} {s : Statement}
    (h : ∀ r ∈ s.instruction.consulted, v.get? r = w.get? r) : effect v s = effect w s := by
  unfold effect
  rw [rawEffect_congr h]

/-- What is known after an effect on the given result registers. -/
def Effect.update (v : Valuation) (results : List Register) : Effect → Valuation
  | .assign values => v.setAll (results.zip values)
  | _ => v

/-- An effect updates what is known, and adds what it emits. -/
theorem State.perform_eq (st : State) (results : List Register) (e : Effect) :
    st.perform results e = ⟨e.update st.valuation results, st.constraints ++ e.emitted⟩ := by
  cases e <;> simp [State.perform, Effect.update, Effect.emitted]

theorem Valuation.get?_setAll_congr {v w : Valuation} {r : Register} (h : v.get? r = w.get? r)
    (bindings : List (Register × Option Value)) :
    (v.setAll bindings).get? r = (w.setAll bindings).get? r := by
  induction bindings generalizing v w with
  | nil => exact h
  | cons p bindings ih =>
    apply ih
    rw [get?_set, get?_set, h]

namespace Effect

variable {v w : Valuation} {results : List Register} {r : Register}

/-- An effect touches no register but the results. -/
theorem get?_update_of_not_mem (hr : r ∉ results) (e : Effect) :
    (e.update v results).get? r = v.get? r := by
  cases e with
  | assign values => exact Valuation.get?_setAll_of_not_mem hr values
  | nothing => rfl
  | emit c => rfl
  | lostCheck r => rfl

/-- An effect keeps two valuations alike where they are. -/
theorem get?_update_congr (h : v.get? r = w.get? r) (e : Effect) :
    (e.update v results).get? r = (e.update w results).get? r := by
  cases e with
  | assign values => exact Valuation.get?_setAll_congr h _
  | nothing => exact h
  | emit c => exact h
  | lostCheck r => exact h

/-- Effects on different registers may be exchanged. -/
theorem update_comm {results' : List Register} (h : ∀ r ∈ results, r ∉ results') (e e' : Effect) :
    e'.update (e.update v results) results' = e.update (e'.update v results') results := by
  refine Table.ext_get? fun r => ?_
  by_cases hr : r ∈ results
  · have hkept := get?_update_of_not_mem (v := v) (h r hr) e'
    rw [get?_update_of_not_mem (h r hr), get?_update_congr hkept]
  · have hkept := get?_update_of_not_mem (v := v) hr e
    rw [get?_update_of_not_mem hr, get?_update_congr hkept]

end Effect

/-- A statement has the effect that it has before an independent one. -/
theorem Statement.Independent.effect_update {s t : Statement} (h : s.Independent t)
    (v : Valuation) (e : Effect) : effect (e.update v s.results) t = effect v t := by
  refine effect_congr fun r hr => Effect.get?_update_of_not_mem (fun hmem => ?_) e
  exact h.consulted r hmem hr

/-! ## Traces -/

/-- What each statement of a run emits, and what is known in the end, if no statement fails. -/
def trace? (v : Valuation) : List Statement → Option (List (List Constraint) × Valuation)
  | [] => some ([], v)
  | s :: rest =>
    (effect v s).toOption.bind fun e =>
      (trace? (e.update v s.results) rest).map fun p => (e.emitted :: p.1, p.2)

/-- A run comes to what its trace says. -/
theorem State.toOption_outcome_run (st : State) (statements : List Statement) :
    (st.run statements).outcome.toOption =
      (trace? st.valuation statements).map fun p => ⟨p.2, st.constraints ++ p.1.flatten⟩ := by
  induction statements generalizing st with
  | nil => simp [run, trace?, Except.toOption]
  | cons s rest ih =>
    rw [outcome_run_cons, step, trace?]
    cases effect st.valuation s with
    | error err => rfl
    | ok e =>
      have hrest := ih (st.perform s.results e)
      rw [perform_eq] at hrest
      simp only [Except.map, Except.toOption, Option.bind_some, Option.map_map, perform_eq]
      refine hrest.trans (Option.map_congr fun p _ => ?_)
      simp

/-- Of two independent statements the second has the effect that it would have had first. -/
theorem Statement.Independent.trace?_cons_cons {s t : Statement} (h : s.Independent t)
    (v : Valuation) (rest : List Statement) :
    trace? v (s :: t :: rest) =
      (effect v s).toOption.bind fun e => (effect v t).toOption.bind fun e' =>
        (trace? (e'.update (e.update v s.results) t.results) rest).map fun p =>
          (e.emitted :: e'.emitted :: p.1, p.2) := by
  rw [trace?]
  refine Option.bind_congr fun e _ => ?_
  rw [trace?, h.effect_update, Option.map_bind]
  refine Option.bind_congr fun e' _ => ?_
  rw [Function.comp_apply, Option.map_map]
  rfl

/-! ## Exchanges -/

/-- Exchange the entries at positions `k` and `k + 1`. -/
def exchangeAt {α : Type} : Nat → List α → List α
  | _, [] => []
  | 0, [a] => [a]
  | 0, a :: b :: l => b :: a :: l
  | k + 1, a :: l => a :: exchangeAt k l

/-- Make exchanges one after the other. -/
def reorder {α : Type} (exchanges : List Nat) (l : List α) : List α :=
  exchanges.foldl (fun l k => exchangeAt k l) l

/-- An exchange only reorders. -/
theorem exchangeAt_perm {α : Type} (k : Nat) (l : List α) : (exchangeAt k l).Perm l := by
  fun_induction exchangeAt k l with
  | case1 => exact .refl _
  | case2 => exact .refl _
  | case3 a b l => exact .swap a b l
  | case4 k a l ih => exact ih.cons a

theorem reorder_perm {α : Type} (exchanges : List Nat) (l : List α) :
    (reorder exchanges l).Perm l := by
  induction exchanges generalizing l with
  | nil => exact .refl l
  | cons k exchanges ih => exact (ih (exchangeAt k l)).trans (exchangeAt_perm k l)

/-- The statements at positions `k` and `k + 1` are independent, if there are any. -/
def IndependentAt (k : Nat) (l : List Statement) : Prop :=
  ∀ s t, l[k]? = some s → l[k + 1]? = some t → s.Independent t

/-- Every exchange is one of independent statements when its turn comes. -/
def Exchangeable : List Nat → List Statement → Prop
  | [], _ => True
  | k :: exchanges, l => IndependentAt k l ∧ Exchangeable exchanges (exchangeAt k l)

/-- An exchange of independent statements is an exchange of what they emit. -/
theorem trace?_exchangeAt {k : Nat} {l : List Statement} (h : IndependentAt k l) (v : Valuation) :
    trace? v (exchangeAt k l) = (trace? v l).map fun p => (exchangeAt k p.1, p.2) := by
  induction k generalizing l v with
  | zero =>
    rcases l with _ | ⟨s, _ | ⟨t, l⟩⟩
    · rfl
    · simp only [exchangeAt, trace?]
      cases (effect v s).toOption <;> rfl
    · have hst : s.Independent t := h s t rfl rfl
      rw [exchangeAt, hst.trace?_cons_cons, hst.symm.trace?_cons_cons, Option.bind_comm,
        Option.map_bind]
      refine Option.bind_congr fun e _ => ?_
      rw [Function.comp_apply, Option.map_bind]
      refine Option.bind_congr fun e' _ => ?_
      rw [Function.comp_apply, Option.map_map, Effect.update_comm hst.results]
      rfl
  | succ k ih =>
    cases l with
    | nil => rfl
    | cons s l =>
      have htail : IndependentAt k l := h
      rw [exchangeAt, trace?, trace?, Option.map_bind]
      refine Option.bind_congr fun e _ => ?_
      rw [Function.comp_apply, ih htail, Option.map_map, Option.map_map]
      simp only [Function.comp_def, exchangeAt]

/-- A reordering made of exchanges of independent statements reorders what they emit. -/
theorem trace?_reorder {exchanges : List Nat} {l : List Statement} (h : Exchangeable exchanges l)
    (v : Valuation) :
    trace? v (reorder exchanges l) =
      (trace? v l).map fun p => (reorder exchanges p.1, p.2) := by
  induction exchanges generalizing l with
  | nil => exact (Option.map_id' ..).symm
  | cons k exchanges ih =>
    have hrest := ih h.2
    rw [trace?_exchangeAt h.1, Option.map_map] at hrest
    exact hrest

/-! ## Runs and blocks -/

theorem toOption_map {ε α β : Type} (f : α → β) (x : Except ε α) :
    (x.map f).toOption = x.toOption.map f := by
  cases x <;> rfl

theorem toOption_eq_some_iff {ε α : Type} {x : Except ε α} {a : α} :
    x.toOption = some a ↔ x = .ok a := by
  cases x <;> simp [Except.toOption]

/-- A step carries out the effect of its statement. -/
theorem State.step_of_effect {st : State} {s : Statement} {e : Effect}
    (h : effect st.valuation s = .ok e) : st.step s = .ok (st.perform s.results e) := by
  rw [step, h]
  rfl

/-- A run of two independent statements succeeds if each of them would, and adds what they emit. -/
theorem Statement.Independent.outcome_run_eq_ok_iff {s t : Statement} (h : s.Independent t)
    {st st' : State} :
    (st.run [s, t]).outcome = .ok st' ↔
      ∃ e e', effect st.valuation s = .ok e ∧ effect st.valuation t = .ok e' ∧
        st' = ⟨e'.update (e.update st.valuation s.results) t.results,
          st.constraints ++ e.emitted ++ e'.emitted⟩ := by
  simp only [State.outcome_run_cons_eq_ok]
  constructor
  · rintro ⟨st₁, hs, st₂, ht, hnil⟩
    obtain ⟨e, he, rfl⟩ := State.step_eq_ok hs
    obtain ⟨e', he', rfl⟩ := State.step_eq_ok ht
    rw [State.perform_eq, h.effect_update] at he'
    cases hnil
    exact ⟨e, e', he, he', by simp only [State.perform_eq]⟩
  · rintro ⟨e, e', he, he', rfl⟩
    have hsecond : effect (st.perform s.results e).valuation t = .ok e' := by
      rw [State.perform_eq, h.effect_update, he']
    refine ⟨_, State.step_of_effect he, _, State.step_of_effect hsecond, ?_⟩
    simp only [State.perform_eq]
    rfl

namespace Block

/-- The block with its statements in another order. -/
def reorder (exchanges : List Nat) (b : Block) : Block :=
  { b with statements := TensorShape.reorder exchanges b.statements }

/-- What each statement of a block emits, if none fails. -/
def emissions? (b : Block) : Option (List (List Constraint)) :=
  (trace? State.start.valuation b.statements).map Prod.fst

/-- The constraints of a block are what its statements emit, in their order. -/
theorem toOption_outcome_constraints (b : Block) :
    b.constraints.outcome.toOption = b.emissions?.map List.flatten := by
  rw [outcome_constraints, toOption_map, State.toOption_outcome_run, emissions?, Option.map_map,
    Option.map_map]
  rfl

/-- Exchanging independent statements exchanges what they emit. -/
theorem emissions?_reorder {b : Block} {exchanges : List Nat}
    (h : Exchangeable exchanges b.statements) :
    (b.reorder exchanges).emissions? = b.emissions?.map (TensorShape.reorder exchanges) := by
  rw [emissions?, reorder, trace?_reorder h, emissions?, Option.map_map, Option.map_map]
  rfl

/-- A block succeeds if its statements do, and has the constraints that they emit. -/
theorem outcome_constraints_eq_ok_iff {b : Block} {cs : List Constraint} :
    b.constraints.outcome = .ok cs ↔ ∃ emitted, b.emissions? = some emitted ∧ emitted.flatten = cs := by
  rw [← toOption_eq_some_iff, toOption_outcome_constraints, Option.map_eq_some_iff]

end Block

/-- Independent statements may be exchanged, from whatever state they are run: if one order succeeds,
so does the other, the same is known in the end, and what the two statements emit is exchanged. So a
block keeps its constraints under any reordering that is made of such exchanges, up to the same
reordering of what its statements emit; and it fails if it failed before. -/
theorem run_reorder_of_independent :
    (∀ (st : State) (s t : Statement), s.Independent t →
      ((∃ st₁, (st.run [s, t]).outcome = .ok st₁) ↔ ∃ st₂, (st.run [t, s]).outcome = .ok st₂) ∧
      ∀ st₁ st₂, (st.run [s, t]).outcome = .ok st₁ → (st.run [t, s]).outcome = .ok st₂ →
        st₁.valuation = st₂.valuation ∧
        ∃ e e', effect st.valuation s = .ok e ∧ effect st.valuation t = .ok e' ∧
          st₁.constraints = st.constraints ++ e.emitted ++ e'.emitted ∧
          st₂.constraints = st.constraints ++ e'.emitted ++ e.emitted) ∧
    ∀ (b : Block) (exchanges : List Nat), Exchangeable exchanges b.statements →
      ((∃ cs, b.constraints.outcome = .ok cs) ↔
        ∃ cs, (b.reorder exchanges).constraints.outcome = .ok cs) ∧
      ∀ cs cs', b.constraints.outcome = .ok cs →
        (b.reorder exchanges).constraints.outcome = .ok cs' →
        cs'.Perm cs ∧ ∃ emitted, b.emissions? = some emitted ∧
          cs = emitted.flatten ∧ cs' = (reorder exchanges emitted).flatten := by
  refine ⟨fun st s t h => ?_, fun b exchanges h => ?_⟩
  · simp only [h.outcome_run_eq_ok_iff, h.symm.outcome_run_eq_ok_iff]
    constructor
    · constructor
      · rintro ⟨_, e, e', he, he', -⟩
        exact ⟨_, e', e, he', he, rfl⟩
      · rintro ⟨_, e', e, he', he, -⟩
        exact ⟨_, e, e', he, he', rfl⟩
    · rintro _ _ ⟨e, e', he, he', rfl⟩ ⟨f', f, hf', hf, rfl⟩
      cases he.symm.trans hf
      cases he'.symm.trans hf'
      exact ⟨Effect.update_comm h.results e e', e, e', he, he', rfl, rfl⟩
  · simp only [Block.outcome_constraints_eq_ok_iff, Block.emissions?_reorder h,
      Option.map_eq_some_iff]
    constructor
    · constructor
      · rintro ⟨_, emitted, hemitted, -⟩
        exact ⟨_, _, ⟨emitted, hemitted, rfl⟩, rfl⟩
      · rintro ⟨_, _, ⟨emitted, hemitted, -⟩, -⟩
        exact ⟨_, emitted, hemitted, rfl⟩
    · rintro _ _ ⟨emitted, hemitted, rfl⟩ ⟨_, ⟨emitted', hemitted', rfl⟩, rfl⟩
      cases hemitted.symm.trans hemitted'
      exact ⟨(reorder_perm exchanges emitted).flatten, emitted, hemitted, rfl, rfl⟩

/-- A call of `g`, and then a check that two is two. -/
def callThenCheck : Block where
  label := "bb0"
  arguments := [⟨"%x", .named "Tensor"⟩]
  statements :=
    [⟨["%f"], .functionRef "g" (.named "Predicate")⟩,
      ⟨["%h"], .functionRef Builtin.check.symbol (.named "Check")⟩,
      ⟨["%0"], State.literal 2⟩,
      ⟨["%r"], .apply "%f" ["%x"]⟩,
      ⟨["%c"], .builtin "cmp_eq_Int64" [⟨"%0", .named "Int64"⟩, ⟨"%0", .named "Int64"⟩]
        (.named "Int1")⟩,
      ⟨["%e"], .apply "%h" ["%c"]⟩]
  terminator := .ret ⟨"%x", .named "Tensor"⟩

/-- The call may be moved behind the comparison and the check. -/
theorem run_reorder_callThenCheck :
    Exchangeable [3, 4] callThenCheck.statements ∧
    callThenCheck.constraints.outcome =
      .ok [.call "g" "%r" ["%x"], .holds (.equals (.int 2) (.int 2))] ∧
    (callThenCheck.reorder [3, 4]).constraints.outcome =
      .ok [.holds (.equals (.int 2) (.int 2)), .call "g" "%r" ["%x"]] := by
  have hexchangeable : Exchangeable [3, 4] callThenCheck.statements := by
    refine ⟨?_, ?_, trivial⟩
    · rintro s t ⟨⟩ ⟨⟩
      exact ⟨by decide, by decide, by decide⟩
    · rintro s t ⟨⟩ ⟨⟩
      exact ⟨by decide, by decide, by decide⟩
  obtain ⟨hsucceeds, hconstraints⟩ := run_reorder_of_independent.2 callThenCheck [3, 4] hexchangeable
  obtain ⟨cs', hcs'⟩ := hsucceeds.1 ⟨_, rfl⟩
  obtain ⟨-, emitted, hemitted, -, rfl⟩ := hconstraints _ _ rfl hcs'
  cases hemitted
  exact ⟨hexchangeable, rfl, hcs'⟩

end TensorShape
