import TensorShape.Proofs.Expansion
import TensorShape.Proofs.Meaning

/-!
# TensorShape.Proofs.Inlining

Filling in calls keeps the meaning of a function.

`Environment.Meets` is the meaning of a function's constraints without any filling in: the values
hold, and each call goes to an assignment for the called function that fits the operands and the
result, and that meets its constraints in turn. The facts of a function say the same about one
assignment to the function's registers and the fresh names.

* From facts to meaning no freshness is needed: an assignment to the names gives one to the
  registers of every call (`Expands.meets`).
* From meaning to facts the assignments of all calls are laid side by side. That works because the
  names of a call are new when they are drawn (`Expands.exists_holds`).
-/

namespace TensorShape

/-! ## The meaning of constraints -/

/-- The registers a constraint mentions. -/
def Constraint.registers : Constraint → List Register
  | .holds v => v.registers
  | .call _ result operands => result :: operands

/-- The registers that constraints mention. -/
def registersOf (constraints : List Constraint) : List Register :=
  constraints.flatMap Constraint.registers

theorem mem_registersOf_head {c : Constraint} {r : Register} (h : r ∈ c.registers)
    (rest : List Constraint) : r ∈ registersOf (c :: rest) :=
  List.mem_flatMap.2 ⟨c, List.mem_cons_self, h⟩

theorem mem_registersOf_tail {rest : List Constraint} {r : Register} (h : r ∈ registersOf rest)
    (c : Constraint) : r ∈ registersOf (c :: rest) :=
  List.mem_append_right _ h

/-- The registers a summary mentions. -/
def Summary.registers (s : Summary) : List Register :=
  s.params ++ s.returns ++ registersOf s.constraints

/-- An assignment `ρ'` for a called function fits the call under `ρ`: parameters hold the operands,
and the single register returned, unless it is a parameter, holds the result. -/
structure Summary.Fits (callee : Summary) (result : Register) (operands : List Register)
    (ρ ρ' : Register → Datum) : Prop where
  param : ∀ p o, (p, o) ∈ callee.params.zip operands → ρ' p = ρ o
  returned : ∀ r, callee.returns = [r] → r ∉ callee.params → ρ' r = ρ result

namespace Environment

variable {env : Environment}

/-- The values of the constraints hold, and every call of a summarized function that is not on the
stack has an assignment that fits it and meets the constraints of the called function. -/
def Meets (env : Environment) (stack : List String) (constraints : List Constraint)
    (ρ : Register → Datum) : Prop :=
  (∀ v, .holds v ∈ constraints → v.Holds ρ) ∧
  ∀ function result operands callee, .call function result operands ∈ constraints →
    (_ : env.summary? function = some callee) → (_ : function ∉ stack) →
    ∃ ρ', callee.Fits result operands ρ ρ' ∧
      env.Meets (stack ++ [function]) callee.constraints ρ'
termination_by env.unexpanded stack
decreasing_by exact unexpanded_lt ‹_› ‹_›

/-- The function has a summary whose constraints the assignment meets. -/
def Admits (env : Environment) (stack : List String) (function : String)
    (ρ : Register → Datum) : Prop :=
  ∃ s, env.summary? function = some s ∧ env.Meets stack s.constraints ρ

/-- What a single call asks for. -/
def MeetsCall (env : Environment) (stack : List String) (function : String) (result : Register)
    (operands : List Register) (ρ : Register → Datum) : Prop :=
  ∀ callee, env.summary? function = some callee → function ∉ stack →
    ∃ ρ', callee.Fits result operands ρ ρ' ∧
      env.Meets (stack ++ [function]) callee.constraints ρ'

section Meets

variable {stack : List String} {ρ : Register → Datum}

theorem meets_nil : env.Meets stack [] ρ := by
  rw [Meets]
  constructor
  · intro v hv
    exact absurd hv List.not_mem_nil
  · intro function result operands callee hmem
    exact absurd hmem List.not_mem_nil

/-- A value in front has to hold, and the rest is met by itself. -/
theorem meets_cons_holds {v : Value} {rest : List Constraint} :
    env.Meets stack (.holds v :: rest) ρ ↔ v.Holds ρ ∧ env.Meets stack rest ρ := by
  rw [Meets, Meets]
  simp only [List.mem_cons, reduceCtorEq, false_or, Constraint.holds.injEq]
  constructor
  · rintro ⟨hvalues, hcalls⟩
    exact ⟨hvalues v (.inl rfl), fun w hw => hvalues w (.inr hw), hcalls⟩
  · rintro ⟨hv, hvalues, hcalls⟩
    refine ⟨?_, hcalls⟩
    rintro w (rfl | hw)
    · exact hv
    · exact hvalues w hw

/-- A call in front asks for its own assignment, and the rest is met by itself. -/
theorem meets_cons_call {function : String} {result : Register} {operands : List Register}
    {rest : List Constraint} :
    env.Meets stack (.call function result operands :: rest) ρ ↔
      env.MeetsCall stack function result operands ρ ∧ env.Meets stack rest ρ := by
  rw [Meets, Meets]
  simp only [List.mem_cons, reduceCtorEq, false_or, Constraint.call.injEq]
  constructor
  · rintro ⟨hvalues, hcalls⟩
    refine ⟨fun callee => hcalls _ _ _ callee (.inl ⟨rfl, rfl, rfl⟩), hvalues, ?_⟩
    intro f r os callee hmem
    exact hcalls f r os callee (.inr hmem)
  · rintro ⟨hcall, hvalues, hcalls⟩
    refine ⟨hvalues, ?_⟩
    rintro f r os callee (⟨rfl, rfl, rfl⟩ | hmem)
    · exact hcall callee
    · exact hcalls f r os callee hmem

/-- The meaning of constraints depends on the registers they mention only. -/
theorem Meets.congr {ρ' : Register → Datum} {constraints : List Constraint}
    (h : env.Meets stack constraints ρ) (hρ : ∀ r ∈ registersOf constraints, ρ r = ρ' r) :
    env.Meets stack constraints ρ' := by
  rw [Meets] at h ⊢
  obtain ⟨hvalues, hcalls⟩ := h
  constructor
  · intro v hv
    refine (Value.holds_congr fun r hr => ?_).1 (hvalues v hv)
    exact hρ r (List.mem_flatMap.2 ⟨.holds v, hv, hr⟩)
  · intro function result operands callee hmem hsummary hstack
    obtain ⟨ρ₁, hfits, hmeets⟩ := hcalls function result operands callee hmem hsummary hstack
    have hregister : ∀ r ∈ result :: operands, ρ r = ρ' r := fun r hr =>
      hρ r (List.mem_flatMap.2 ⟨.call function result operands, hmem, hr⟩)
    refine ⟨ρ₁, ⟨?_, ?_⟩, hmeets⟩
    · intro p o hpo
      rw [hfits.param p o hpo, hregister o (List.mem_cons_of_mem _ (List.of_mem_zip hpo).2)]
    · intro r hreturns hparams
      rw [hfits.returned r hreturns hparams, hregister result List.mem_cons_self]

end Meets

/-! ## From facts to meaning -/

/-- No summary repeats a parameter, and no register of a summary has a `#` in its name. -/
structure Plain (env : Environment) : Prop where
  nodup_params : ∀ s ∈ env.summaries.values, s.params.Nodup
  hash_not_mem : ∀ s ∈ env.summaries.values, ∀ r ∈ s.registers, '#' ∉ r.toList

/-- If the facts hold, the constraints are met by what the names of their registers hold. -/
theorem Expands.meets (hparams : ∀ s ∈ env.summaries.values, s.params.Nodup)
    {σ : Register → Datum} {naming : Naming} {stack : List String} {n m : Nat}
    {constraints : List Constraint} {facts : List Value}
    (h : env.Expands naming stack n constraints facts m) (hfacts : ∀ v ∈ facts, v.Holds σ) :
    env.Meets stack constraints fun r => σ (naming.name r) := by
  induction h with
  | nil naming stack n => exact meets_nil
  | holds v tail ih =>
    rw [meets_cons_holds]
    constructor
    · exact (Value.holds_mapRegisters σ _ v).1 (hfacts _ List.mem_cons_self)
    · exact ih fun w hw => hfacts w (List.mem_cons_of_mem _ hw)
  | unknown result operands hsummary tail ih =>
    rw [meets_cons_call]
    refine ⟨fun callee hsome => ?_, ih hfacts⟩
    rw [hsummary] at hsome
    cases hsome
  | recursive result operands hstack tail ih =>
    rw [meets_cons_call]
    exact ⟨fun callee _ hnot => absurd hstack hnot, ih hfacts⟩
  | filled hsummary hstack hlen body tail ihbody ihtail =>
    rw [meets_cons_call]
    refine ⟨fun callee hsome _ => ?_, ihtail fun v hv => hfacts v (List.mem_append_right _ hv)⟩
    rw [hsummary] at hsome
    cases hsome
    refine ⟨_, ⟨?_, ?_⟩, ihbody fun v hv => hfacts v (List.mem_append_left _ hv)⟩
    · intro p o hpo
      have hnodup := hparams _ (mem_values_of_summary? hsummary)
      simp only [Naming.name_atCall_of_mem_zip hnodup hlen hpo]
    · intro r hreturns hnot
      simp only [Naming.name_atCall_of_returns hreturns hnot]

/-! ## From meaning to facts -/

/-- Numbers are drawn in ascending order. -/
theorem Expands.le {naming : Naming} {stack : List String} {n m : Nat}
    {constraints : List Constraint} {facts : List Value}
    (h : env.Expands naming stack n constraints facts m) : n ≤ m := by
  induction h with
  | nil => exact Nat.le_refl _
  | holds _ _ ih => exact ih
  | unknown _ _ _ _ ih => exact ih
  | recursive _ _ _ _ ih => exact ih
  | filled _ _ _ _ _ ihbody ihtail => omega

/-- No register of a summary has a `#` in its name. -/
def HashFree (env : Environment) : Prop :=
  ∀ function s, env.summary? function = some s → ∀ r ∈ s.registers, '#' ∉ r.toList

theorem Plain.hashFree (hplain : env.Plain) : env.HashFree :=
  fun _ s hs => hplain.hash_not_mem s (mem_values_of_summary? hs)

/-- The registers of a summarized function's constraints. -/
theorem HashFree.constraints (hhash : env.HashFree) {function : String} {s : Summary}
    (h : env.summary? function = some s) {r : Register} (hr : r ∈ registersOf s.constraints) :
    '#' ∉ r.toList :=
  hhash function s h r (List.mem_append_right _ hr)

/-- In a plain environment no constraint mentions a register with the mark of fresh names. -/
theorem Plain.hash_not_mem_constraints (hplain : env.Plain) {function : String} {s : Summary}
    (h : env.summary? function = some s) {r : Register} (hr : r ∈ registersOf s.constraints) :
    '#' ∉ r.toList :=
  hplain.hashFree.constraints h hr

theorem exists_name_tail {rest : List Constraint} {naming : Naming} {x : Register} (c : Constraint)
    (h : ∃ r ∈ registersOf rest, x = naming.name r) :
    ∃ r ∈ registersOf (c :: rest), x = naming.name r := by
  obtain ⟨r, hr, rfl⟩ := h
  exact ⟨r, mem_registersOf_tail hr c, rfl⟩

/-- A register of the facts is the name of one that the constraints mention, or it is drawn for a
call that is filled in on the way. -/
theorem Expands.name_or_drawnAt (hhash : env.HashFree) {naming : Naming} {stack : List String}
    {n m : Nat} {constraints : List Constraint} {facts : List Value}
    (h : env.Expands naming stack n constraints facts m) :
    ∀ v ∈ facts, ∀ x ∈ v.registers,
      (∃ r ∈ registersOf constraints, x = naming.name r) ∨ ∃ k, n ≤ k ∧ k < m ∧ DrawnAt k x := by
  induction h with
  | nil => intro v hv; exact absurd hv List.not_mem_nil
  | holds w tail ih =>
    intro v hv x hx
    rcases List.mem_cons.1 hv with rfl | hv
    · rw [Value.registers_mapRegisters] at hx
      obtain ⟨r, hr, rfl⟩ := List.mem_map.1 hx
      exact .inl ⟨r, mem_registersOf_head (c := .holds w) hr _, rfl⟩
    · exact (ih v hv x hx).imp_left (exists_name_tail _)
  | unknown result operands hsummary tail ih =>
    intro v hv x hx
    exact (ih v hv x hx).imp_left (exists_name_tail _)
  | recursive result operands hstack tail ih =>
    intro v hv x hx
    exact (ih v hv x hx).imp_left (exists_name_tail _)
  | @filled naming stack n m k rest inner facts function result operands callee hsummary hstack
      hlen body tail ihbody ihtail =>
    have hbody := body.le
    have htail := tail.le
    intro v hv x hx
    rcases List.mem_append.1 hv with hv | hv
    · rcases ihbody v hv x hx with ⟨r, hr, rfl⟩ | ⟨i, hi, him, hdrawn⟩
      · -- A register of the called function: an operand, the result, or a name of this call.
        rcases Naming.name_atCall_cases hlen r with ⟨o, ho, hname⟩ | ⟨-, -, hname⟩ | hname
        · have hmem := List.mem_cons_of_mem result (List.of_mem_zip ho).2
          exact .inl ⟨o, mem_registersOf_head hmem _, hname⟩
        · exact .inl ⟨result, mem_registersOf_head List.mem_cons_self _, hname⟩
        · exact .inr ⟨n, by omega, by omega, function, r, hhash.constraints hsummary hr, hname⟩
      · exact .inr ⟨i, by omega, by omega, hdrawn⟩
    · rcases ihtail v hv x hx with hname | ⟨i, hi, hik, hdrawn⟩
      · exact .inl (exists_name_tail _ hname)
      · exact .inr ⟨i, by omega, by omega, hdrawn⟩

/-- Facts mention no name that is drawn after them. -/
theorem Expands.drawnBefore (hhash : env.HashFree) {naming : Naming} {stack : List String}
    {n m : Nat} {constraints : List Constraint} {facts : List Value}
    (h : env.Expands naming stack n constraints facts m)
    (hold : ∀ r ∈ registersOf constraints, DrawnBefore n (naming.name r)) :
    ∀ v ∈ facts, ∀ x ∈ v.registers, DrawnBefore m x := by
  intro v hv x hx
  rcases h.name_or_drawnAt hhash v hv x hx with ⟨r, hr, rfl⟩ | ⟨k, -, hk, hdrawn⟩
  · exact (hold r hr).mono h.le
  · exact hdrawn.drawnBefore_succ.mono hk

open Classical in
/-- The assignment `σ`, with the names given out at one call assigned by `ρ`. -/
noncomputable def overlay (site : String) (ρ σ : Register → Datum) (x : Register) : Datum :=
  if h : ∃ r : Register, '#' ∉ r.toList ∧ x = site ++ r then ρ h.choose else σ x

/-- The names given out at the call are assigned as the called function has it. -/
theorem overlay_site (site : String) (ρ σ : Register → Datum) {r : Register}
    (hr : '#' ∉ r.toList) : overlay site ρ σ (site ++ r) = ρ r := by
  have h : ∃ r' : Register, '#' ∉ r'.toList ∧ site ++ r = site ++ r' := ⟨r, hr, rfl⟩
  rw [overlay, dif_pos h, ← String.append_right_inj site |>.1 h.choose_spec.2]

/-- Names that were there before the call keep their values. -/
theorem overlay_of_drawnBefore {n : Nat} {x : Register} (hx : DrawnBefore n x) (function : String)
    (ρ σ : Register → Datum) : overlay (callSite function n) ρ σ x = σ x := by
  rw [overlay, dif_neg]
  rintro ⟨r, hr, rfl⟩
  exact absurd (hx n ⟨function, r, hr, rfl⟩) (Nat.lt_irrefl n)

/-- Inside a call, the overlaid assignment gives the names what `ρ'` gives the registers. -/
theorem overlay_name_atCall {outer : Naming} {callee : Summary} {function : String} {n : Nat}
    {result : Register} {operands : List Register} {ρ ρ' σ : Register → Datum}
    (hlen : callee.params.length = operands.length) (hfits : callee.Fits result operands ρ ρ')
    (hσ : ∀ o ∈ result :: operands, σ (outer.name o) = ρ o)
    (hold : ∀ o ∈ result :: operands, DrawnBefore n (outer.name o)) {r : Register}
    (hr : '#' ∉ r.toList) :
    overlay (callSite function n) ρ' σ
      ((outer.atCall callee (callSite function n) result operands).name r) = ρ' r := by
  rcases Naming.name_atCall_cases hlen r with ⟨o, hmem, hname⟩ | ⟨hreturns, hnot, hname⟩ | hname
  · have ho : o ∈ result :: operands := List.mem_cons_of_mem _ (List.of_mem_zip hmem).2
    rw [hname, overlay_of_drawnBefore (hold o ho), hσ o ho, hfits.param r o hmem]
  · have hres : result ∈ result :: operands := List.mem_cons_self
    rw [hname, overlay_of_drawnBefore (hold result hres), hσ result hres,
      hfits.returned r hreturns hnot]
  · rw [hname, overlay_site _ _ _ hr]

/-- If the constraints are met, the facts hold once the names drawn for them are assigned too. The
names drawn before keep what they were assigned. -/
theorem Expands.exists_holds (hplain : env.Plain) {naming : Naming} {stack : List String}
    {n m : Nat} {constraints : List Constraint} {facts : List Value}
    (h : env.Expands naming stack n constraints facts m) {ρ σ : Register → Datum}
    (hmeets : env.Meets stack constraints ρ)
    (hσ : ∀ r ∈ registersOf constraints, σ (naming.name r) = ρ r)
    (hold : ∀ r ∈ registersOf constraints, DrawnBefore n (naming.name r)) :
    ∃ σ' : Register → Datum,
      (∀ x, DrawnBefore n x → σ' x = σ x) ∧ ∀ v ∈ facts, v.Holds σ' := by
  induction h generalizing ρ σ with
  | nil => exact ⟨σ, fun _ _ => rfl, fun v hv => absurd hv List.not_mem_nil⟩
  | @holds naming stack n m rest facts v tail ih =>
    obtain ⟨hv, hmeets⟩ := meets_cons_holds.1 hmeets
    obtain ⟨σ', hsame, hfacts⟩ := ih hmeets (fun r hr => hσ r (mem_registersOf_tail hr _))
      (fun r hr => hold r (mem_registersOf_tail hr _))
    refine ⟨σ', hsame, fun w hw => ?_⟩
    rcases List.mem_cons.1 hw with rfl | hw
    · rw [Value.holds_mapRegisters]
      refine (Value.holds_congr fun r hr => ?_).1 hv
      have hmem := mem_registersOf_head (c := .holds v) hr rest
      rw [hsame _ (hold r hmem), hσ r hmem]
    · exact hfacts w hw
  | unknown result operands hsummary tail ih =>
    exact ih (meets_cons_call.1 hmeets).2 (fun r hr => hσ r (mem_registersOf_tail hr _))
      (fun r hr => hold r (mem_registersOf_tail hr _))
  | recursive result operands hstack tail ih =>
    exact ih (meets_cons_call.1 hmeets).2 (fun r hr => hσ r (mem_registersOf_tail hr _))
      (fun r hr => hold r (mem_registersOf_tail hr _))
  | @filled naming stack n m k rest inner facts function result operands callee hsummary hstack
      hlen body tail ihbody ihtail =>
    obtain ⟨hcall, hmeets⟩ := meets_cons_call.1 hmeets
    obtain ⟨ρ', hfits, hbody⟩ := hcall _ hsummary hstack
    have hσcall := fun o ho => hσ o (mem_registersOf_head ho rest)
    have holdcall := fun o ho => hold o (mem_registersOf_head ho rest)
    have hhash := fun r hr => hplain.hash_not_mem_constraints hsummary (r := r) hr
    have hbefore : ∀ r ∈ registersOf callee.constraints, DrawnBefore (n + 1)
        ((naming.atCall callee (callSite function n) result operands).name r) :=
      fun r hr => Naming.drawnBefore_name_atCall hlen holdcall (hhash r hr)
    -- First the names of this call, then those of the calls inside it, then those after it.
    obtain ⟨σ₁, hsame₁, hinner⟩ := ihbody (σ := overlay (callSite function n) ρ' σ) hbody
      (fun r hr => overlay_name_atCall hlen hfits hσcall holdcall (hhash r hr)) hbefore
    have hsame : ∀ x, DrawnBefore n x → σ₁ x = σ x := fun x hx => by
      rw [hsame₁ x (hx.mono (Nat.le_succ n)), overlay_of_drawnBefore hx]
    obtain ⟨σ₂, hsame₂, hfacts⟩ := ihtail (σ := σ₁) hmeets
      (fun r hr => by
        have hmem := mem_registersOf_tail hr (.call function result operands)
        rw [hsame _ (hold r hmem), hσ r hmem])
      (fun r hr => (hold r (mem_registersOf_tail hr _)).mono
        (Nat.le_trans (Nat.le_succ n) body.le))
    refine ⟨σ₂, fun x hx => ?_, fun v hv => ?_⟩
    · rw [hsame₂ x (hx.mono (Nat.le_trans (Nat.le_succ n) body.le)), hsame x hx]
    · rcases List.mem_append.1 hv with hv | hv
      · refine (Value.holds_congr fun x hx => ?_).1 (hinner v hv)
        exact (hsame₂ x (body.drawnBefore hplain.hashFree hbefore v hv x hx)).symm
      · exact hfacts v hv

/-! ## Exactness -/

/-- **Inlining is exact**: a function admits an assignment to its registers just if some assignment
to the registers and the fresh names, which agrees with it on every name without a `#`, makes all
facts of the function hold. -/
theorem admits_iff_exists_holds_facts (hplain : env.Plain) {function : String}
    {facts : List Value} (h : (env.instantiate function).outcome = .ok facts)
    (ρ : Register → Datum) :
    env.Admits [function] function ρ ↔
      ∃ σ : Register → Datum, (∀ x : Register, '#' ∉ x.toList → σ x = ρ x) ∧
        ∀ v ∈ facts, v.Holds σ := by
  obtain ⟨s, m, hsummary, hexpands⟩ := expands_of_outcome_instantiate h
  have hhash := fun r hr => hplain.hash_not_mem_constraints hsummary (r := r) hr
  constructor
  · rintro ⟨s', hs', hmeets⟩
    rw [hsummary] at hs'
    cases hs'
    obtain ⟨σ, hsame, hfacts⟩ := hexpands.exists_holds hplain (σ := ρ) hmeets
      (fun r _ => by rw [Naming.name_root])
      (fun r hr => by
        rw [Naming.name_root]
        exact drawnBefore_of_hash_not_mem (hhash r hr) 0)
    exact ⟨σ, fun x hx => hsame x (drawnBefore_of_hash_not_mem hx 0), hfacts⟩
  · rintro ⟨σ, hsame, hfacts⟩
    have hmeets := hexpands.meets hplain.nodup_params hfacts
    exact ⟨s, hsummary, hmeets.congr fun r hr => by rw [Naming.name_root, hsame r (hhash r hr)]⟩

/-- Three functions: `main` calls `mid` twice, `mid` calls `leaf` with two operands and calls back,
and `leaf` returns a parameter. -/
def callChain : Environment :=
  ((empty.addSummary ⟨"leaf", ["%a", "%b"], ["%a"],
    [.holds (.equals (.rankOf "%a") (.rankOf "%l")),
      .holds (.equals (.dimOf 0 "%b") (.dimOf 1 "%l"))]⟩).addSummary
    ⟨"mid", ["%q"], ["%t"],
      [.call "leaf" "%u" ["%q", "%t"], .call "main" "%v" ["%q"],
        .holds (.equals (.rankOf "%t") (.int 2))]⟩).addSummary
    ⟨"main", ["%x"], [],
      [.call "mid" "%r" ["%x"], .call "mid" "%s" ["%r"], .call "print" "%p" ["%s"]]⟩

/-- The facts of `callChain`: every call of `leaf` has a register `%l` of its own. -/
def callChainFacts : List Value :=
  [.equals (.rankOf "%x") (.rankOf "leaf#1::%l"),
    .equals (.dimOf 0 "%r") (.dimOf 1 "leaf#1::%l"),
    .equals (.rankOf "%r") (.int 2),
    .equals (.rankOf "%r") (.rankOf "leaf#3::%l"),
    .equals (.dimOf 0 "%s") (.dimOf 1 "leaf#3::%l"),
    .equals (.rankOf "%s") (.int 2)]

/-- What `main` admits is what its facts say, with calls filled in inside calls, a call back, and a
call of a function that has no summary. -/
theorem admits_callChain_iff :
    callChain.Plain ∧ (callChain.instantiate "main").outcome = .ok callChainFacts ∧
      (callChain.Admits ["main"] "main" (fun _ => .tensor ⟨2, fun _ => 3⟩) ↔
        ∃ σ : Register → Datum,
          (∀ x : Register, '#' ∉ x.toList → σ x = .tensor ⟨2, fun _ => 3⟩) ∧
            ∀ v ∈ callChainFacts, v.Holds σ) := by
  have hplain : callChain.Plain := ⟨by decide +kernel, by decide +kernel⟩
  have hexpands : callChain.Expands .root ["main"] 0
      [.call "mid" "%r" ["%x"], .call "mid" "%s" ["%r"], .call "print" "%p" ["%s"]] _ _ :=
    .filled rfl (by decide) rfl
      (.filled rfl (by decide) rfl (.holds _ (.holds _ (.nil ..)))
        (.recursive _ _ (by decide) (.holds _ (.nil ..))))
      (.filled rfl (by decide) rfl
        (.filled rfl (by decide) rfl (.holds _ (.holds _ (.nil ..)))
          (.recursive _ _ (by decide) (.holds _ (.nil ..))))
        (.unknown _ _ rfl (.nil ..)))
  have hfacts : (callChain.instantiate "main").outcome = .ok callChainFacts :=
    outcome_instantiate_of_expands rfl hexpands
  exact ⟨hplain, hfacts, admits_iff_exists_holds_facts hplain hfacts _⟩

end Environment

end TensorShape
