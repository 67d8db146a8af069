import TensorShape.Proofs.Consequence
import TensorShape.Proofs.Inlining
import TensorShape.Proofs.Invalidation
import TensorShape.Proofs.Renaming

/-!
# TensorShape.Proofs.MissingSummary

To know nothing of a function only loses facts.

Without the summary of one function (`Environment.Without`) its calls say nothing, and no call
inside it is filled in. All other calls are filled in as before, but the numbers of the calls left
out are given to later ones. So the facts that are left are facts as before, under other fresh names:

* `renumber` changes the number in a fresh name, and `Renumbers` says that two namings agree up to
  such a change;
* `Expands.exists_fewer` finds the numbers under which the facts that are left are, in order, some
  of the facts with the summary, also if some constraints are left out themselves;
* `Tensors.renumbered` are the tensors under the numbers that are left. A solver knows names up to
  their NUL characters, and renumbering keeps names apart up to them (`Tensors.tensor_renumbered`).
-/

namespace TensorShape

/-! ## Numbers of fresh names -/

open Classical in
/-- The name with the number of the call changed for which it is given out, if it is. -/
noncomputable def renumber (ν : Nat → Nat) (x : Register) : Register :=
  if h : ∃ p : String × Nat × Register, '#' ∉ p.2.2.toList ∧ x = callSite p.1 p.2.1 ++ p.2.2 then
    callSite h.choose.1 (ν h.choose.2.1) ++ h.choose.2.2
  else x

variable {ν ν' : Nat → Nat} {n : Nat} {x : Register}

/-- A name that is given out for a call gets the new number of the call. -/
theorem renumber_callSite (ν : Nat → Nat) (function : String) (n : Nat) {r : Register}
    (hr : '#' ∉ r.toList) :
    renumber ν (callSite function n ++ r) = callSite function (ν n) ++ r := by
  have h : ∃ p : String × Nat × Register, '#' ∉ p.2.2.toList ∧
      callSite function n ++ r = callSite p.1 p.2.1 ++ p.2.2 := ⟨(function, n, r), hr, rfl⟩
  obtain ⟨hfunction, hn, hregister⟩ := callSite_append_inj hr h.choose_spec.1 h.choose_spec.2
  rw [renumber, dif_pos h, ← hfunction, ← hn, ← hregister]

/-- A name that is given out for no call stays as it is. -/
theorem renumber_of_hash_not_mem (ν : Nat → Nat) (hx : '#' ∉ x.toList) : renumber ν x = x := by
  rw [renumber, dif_neg]
  rintro ⟨⟨function, n, r⟩, -, rfl⟩
  rw [toList_callSite_append] at hx
  exact absurd (List.mem_append_right _ List.mem_cons_self) hx

/-- Only the numbers given out so far count for a name. -/
theorem renumber_congr (hx : DrawnBefore n x) (h : ∀ k, k < n → ν k = ν' k) :
    renumber ν x = renumber ν' x := by
  unfold renumber
  split
  · next hdrawn =>
    have hlt := hx _ ⟨_, _, hdrawn.choose_spec.1, hdrawn.choose_spec.2⟩
    rw [h _ hlt]
  · rfl

/-- Once the numbers are changed, the registers of the constraints are named by `naming'` as they
are by `naming`. Of the numbers only those below `n` count. -/
structure Renumbers (ν : Nat → Nat) (n : Nat) (constraints : List Constraint)
    (naming' naming : Naming) : Prop where
  names : ∀ r ∈ registersOf constraints, renumber ν (naming'.name r) = naming.name r
  old : ∀ r ∈ registersOf constraints, DrawnBefore n (naming'.name r)

namespace Renumbers

variable {constraints rest : List Constraint} {naming naming' : Naming}

/-- A function itself has no name with a number. -/
theorem root (h : ∀ r ∈ registersOf constraints, '#' ∉ r.toList) (ν : Nat → Nat) (n : Nat) :
    Renumbers ν n constraints .root .root := by
  constructor
  · intro r hr
    rw [Naming.name_root, renumber_of_hash_not_mem ν (h r hr)]
  · intro r hr
    rw [Naming.name_root]
    exact drawnBefore_of_hash_not_mem (h r hr) n

theorem tail {c : Constraint} (h : Renumbers ν n (c :: rest) naming' naming) :
    Renumbers ν n rest naming' naming where
  names r hr := h.names r (mem_registersOf_tail hr c)
  old r hr := h.old r (mem_registersOf_tail hr c)

/-- Later numbers may be changed in any way. -/
theorem extend {m : Nat} (h : Renumbers ν n constraints naming' naming)
    (hν : ∀ k, k < n → ν' k = ν k) (hle : n ≤ m) : Renumbers ν' m constraints naming' naming where
  names r hr := by rw [renumber_congr (h.old r hr) hν, h.names r hr]
  old r hr := (h.old r hr).mono hle

/-- A value gets the same names, once the numbers are changed. -/
theorem mapRegisters_holds {v : Value} (h : Renumbers ν n (.holds v :: rest) naming' naming) :
    (v.mapRegisters naming'.name).mapRegisters (renumber ν) = v.mapRegisters naming.name := by
  rw [Value.mapRegisters_mapRegisters]
  refine Value.mapRegisters_congr fun r hr => ?_
  exact h.names r (mem_registersOf_head (c := .holds v) hr rest)

/-- The called function, if the call with number `n` gets the number that it has there. -/
theorem atCall {function : String} {result : Register} {operands : List Register}
    {callee : Summary} {m : Nat}
    (h : Renumbers ν n (.call function result operands :: rest) naming' naming) (hn : ν n = m)
    (hlen : callee.params.length = operands.length)
    (hhash : ∀ r ∈ registersOf callee.constraints, '#' ∉ r.toList) :
    Renumbers ν (n + 1) callee.constraints
      (naming'.atCall callee (callSite function n) result operands)
      (naming.atCall callee (callSite function m) result operands) := by
  constructor
  · intro r hr
    refine Naming.map_name_atCall (renumber ν) (fun o ho => h.names o ?_) ?_
    · exact mem_registersOf_head ho rest
    · rw [renumber_callSite ν function n (hhash r hr), hn]
  · intro r hr
    refine Naming.drawnBefore_name_atCall hlen (fun o ho => h.old o ?_) (hhash r hr)
    exact mem_registersOf_head ho rest

end Renumbers

/-- A name that facts can have: one without a `#`, or one given out for a call. -/
def Given (x : Register) : Prop := '#' ∉ x.toList ∨ ∃ n, DrawnAt n x

/-! ## Environments that lack a summary -/

namespace Environment

/-- `env'` knows of all functions what `env` does, except for one function of which it knows
nothing. -/
structure Without (env : Environment) (function : String) (env' : Environment) : Prop where
  gone : env'.summary? function = none
  kept : ∀ f, f ≠ function → env'.summary? f = env.summary? f

variable {env env' : Environment} {missing : String}

/-- Dropping a function leaves an environment that lacks just its summary. -/
theorem without_drop (env : Environment) (function : String) :
    env.Without function (env.drop function) where
  gone := by rw [summary?_drop, if_pos rfl]
  kept f hf := by rw [summary?_drop, if_neg (Ne.symm hf)]

namespace Without

/-- A summary that is there without the function is there with it. -/
theorem summary?_eq_some (h : env.Without missing env') {f : String} {s : Summary}
    (hs : env'.summary? f = some s) : env.summary? f = some s := by
  have hf : f ≠ missing := by
    rintro rfl
    rw [h.gone] at hs
    cases hs
  rwa [← h.kept f hf]

theorem hashFree (h : env.Without missing env') (hhash : env.HashFree) : env'.HashFree :=
  fun f s hs => hhash f s (h.summary?_eq_some hs)

end Without

/-- The facts that are left of fewer constraints, in an environment that knows no more of the
functions they may call, are, in order, some of all facts, once the names drawn for them get the
numbers that they have there. Names drawn before keep their numbers. -/
theorem Expands.exists_fewer (hhash : env'.HashFree) {naming : Naming} {stack : List String}
    {n m : Nat} {constraints : List Constraint} {facts : List Value}
    (h : env.Expands naming stack n constraints facts m)
    (hless : ∀ f s, f ∉ stack → env'.summary? f = some s → env.summary? f = some s)
    {constraints' : List Constraint} (hfewer : constraints'.Sublist constraints) {naming' : Naming}
    {n' : Nat} {ν : Nat → Nat} (hnames : Renumbers ν n' constraints' naming' naming) :
    ∃ facts' m' ν', env'.Expands naming' stack n' constraints' facts' m' ∧
      (∀ k, k < n' → ν' k = ν k) ∧
      (facts'.map (Value.mapRegisters (renumber ν'))).Sublist facts := by
  -- Of each constraint the question is first whether it is among the fewer ones.
  induction h generalizing constraints' naming' n' ν with
  | nil naming stack n =>
    cases hfewer
    exact ⟨[], n', ν, .nil naming' stack n', fun _ _ => rfl, .slnil⟩
  | holds v tail ih =>
    rcases List.sublist_cons_iff.1 hfewer with hrest | ⟨rest', rfl, hrest⟩
    · obtain ⟨facts', m', ν', hexpands, hν, hsub⟩ := ih hless hrest hnames
      exact ⟨facts', m', ν', hexpands, hν, hsub.cons _⟩
    · obtain ⟨facts', m', ν', hexpands, hν, hsub⟩ := ih hless hrest hnames.tail
      refine ⟨_, m', ν', .holds v hexpands, hν, ?_⟩
      rw [List.map_cons, (hnames.extend hν (Nat.le_refl n')).mapRegisters_holds]
      exact hsub.cons_cons _
  | @unknown naming stack n m rest facts function result operands hsummary tail ih =>
    rcases List.sublist_cons_iff.1 hfewer with hrest | ⟨rest', rfl, hrest⟩
    · exact ih hless hrest hnames
    · obtain ⟨facts', m', ν', hexpands, hν, hsub⟩ := ih hless hrest hnames.tail
      by_cases hstack : function ∈ stack
      · exact ⟨facts', m', ν', .recursive result operands hstack hexpands, hν, hsub⟩
      · have hnone : env'.summary? function = none := by
          cases hs : env'.summary? function with
          | none => rfl
          | some s =>
            rw [hless function s hstack hs] at hsummary
            cases hsummary
        exact ⟨facts', m', ν', .unknown result operands hnone hexpands, hν, hsub⟩
  | recursive result operands hstack tail ih =>
    rcases List.sublist_cons_iff.1 hfewer with hrest | ⟨rest', rfl, hrest⟩
    · exact ih hless hrest hnames
    · obtain ⟨facts', m', ν', hexpands, hν, hsub⟩ := ih hless hrest hnames.tail
      exact ⟨facts', m', ν', .recursive result operands hstack hexpands, hν, hsub⟩
  | @filled naming stack n m k rest inner facts function result operands callee hsummary hstack
      hlen body tail ihbody ihtail =>
    have hskip := List.sublist_append_right inner facts
    rcases List.sublist_cons_iff.1 hfewer with hrest | ⟨rest', rfl, hrest⟩
    · obtain ⟨facts', m', ν', hexpands, hν, hsub⟩ := ihtail hless hrest hnames
      exact ⟨facts', m', ν', hexpands, hν, hsub.trans hskip⟩
    · cases hsummary' : env'.summary? function with
      | none =>
        -- This call is left out, with all that is inside it.
        obtain ⟨facts', m', ν', hexpands, hν, hsub⟩ := ihtail hless hrest hnames.tail
        exact ⟨facts', m', ν', .unknown result operands hsummary' hexpands, hν, hsub.trans hskip⟩
      | some callee' =>
        cases (hless function callee' hstack hsummary').symm.trans hsummary
        -- This call has number `n'` here and number `n` there.
        obtain ⟨ν₁, hν₁, hhere⟩ : ∃ ν₁ : Nat → Nat, (∀ k, k < n' → ν₁ k = ν k) ∧ ν₁ n' = n :=
          ⟨fun k => if k = n' then n else ν k, fun k hk => if_neg (by omega), if_pos rfl⟩
        have hnamesBody := (hnames.extend hν₁ (Nat.le_refl n')).atCall hhere hlen
          (fun r hr => hhash.constraints hsummary' hr)
        have hlessBody : ∀ f s, f ∉ stack ++ [function] → env'.summary? f = some s →
            env.summary? f = some s :=
          fun f s hf => hless f s fun hmem => hf (List.mem_append_left _ hmem)
        obtain ⟨inner', m', ν₂, hbody, hν₂, hinner⟩ := ihbody hlessBody (.refl _) hnamesBody
        have hle : n' ≤ m' := Nat.le_of_succ_le hbody.le
        have hν : ∀ k, k < n' → ν₂ k = ν k := by
          intro k hk
          rw [hν₂ k (by omega), hν₁ k hk]
        obtain ⟨facts', k', ν₃, htail, hν₃, hfacts⟩ :=
          ihtail hless hrest (hnames.tail.extend hν hle)
        -- The names of the calls after this one are not in the facts from inside it.
        have hsame : inner'.map (Value.mapRegisters (renumber ν₃)) =
            inner'.map (Value.mapRegisters (renumber ν₂)) := by
          refine List.map_congr_left fun v hv => Value.mapRegisters_congr fun x hx => ?_
          exact renumber_congr (hbody.drawnBefore hhash hnamesBody.old v hv x hx) hν₃
        refine ⟨inner' ++ facts', k', ν₃, .filled hsummary' hstack hlen hbody htail, ?_, ?_⟩
        · intro k hk
          rw [hν₃ k (by omega), hν k hk]
        · rw [List.map_append, hsame]
          exact hinner.append hfacts

/-- The facts of a function have only names that can be given out. -/
theorem given_of_instantiate (hhash : env.HashFree) {function : String} {facts : List Value}
    (h : (env.instantiate function).outcome = .ok facts) :
    ∀ v ∈ facts, ∀ x ∈ v.registers, Given x := by
  obtain ⟨s, m, hsummary, hexpands⟩ := expands_of_outcome_instantiate h
  intro v hv x hx
  rcases hexpands.name_or_drawnAt hhash v hv x hx with ⟨r, hr, rfl⟩ | ⟨k, -, -, hdrawn⟩
  · rw [Naming.name_root]
    exact .inl (hhash.constraints hsummary hr)
  · exact .inr ⟨k, hdrawn⟩

/-- A function of which fewer constraints are known, and no more of the functions that it may call,
has facts if it had any, and they are among those that it had. -/
theorem exists_instantiate_fewer (hhash : env'.HashFree) {function : String} {s s' : Summary}
    (hs : env.summary? function = some s) (hs' : env'.summary? function = some s')
    (hfewer : s'.constraints.Sublist s.constraints)
    (hless : ∀ f t, f ≠ function → env'.summary? f = some t → env.summary? f = some t)
    {facts : List Value} (h : (env.instantiate function).outcome = .ok facts) :
    ∃ facts' ν, (env'.instantiate function).outcome = .ok facts' ∧
      (facts'.map (Value.mapRegisters (renumber ν))).Sublist facts := by
  obtain ⟨t, m, ht, hexpands⟩ := expands_of_outcome_instantiate h
  rw [hs] at ht
  cases ht
  have hown : ∀ r ∈ registersOf s'.constraints, '#' ∉ r.toList :=
    fun r hr => hhash.constraints hs' hr
  obtain ⟨facts', m', ν, hexpands', -, hsub⟩ := hexpands.exists_fewer hhash
    (fun f t hf => hless f t fun heq => hf (List.mem_singleton.2 heq)) hfewer (.root hown id 0)
  exact ⟨facts', ν, outcome_instantiate_of_expands hs' hexpands', hsub⟩

/-- A function that has its summary still has facts, and they are among those that it had. -/
theorem exists_instantiate_without (hwithout : env.Without missing env') (hhash : env.HashFree)
    {function : String} {s : Summary} (hsummary : env'.summary? function = some s)
    {facts : List Value} (h : (env.instantiate function).outcome = .ok facts) :
    ∃ facts' ν, (env'.instantiate function).outcome = .ok facts' ∧
      (facts'.map (Value.mapRegisters (renumber ν))).Sublist facts :=
  exists_instantiate_fewer (hwithout.hashFree hhash) (hwithout.summary?_eq_some hsummary) hsummary
    (.refl _) (fun _ _ _ => hwithout.summary?_eq_some) h

end Environment

/-! ## Tensors -/

/-- The symbol of a fresh name is a fresh name: neither the `#`, the number nor the colons are
lost. -/
theorem name_ofName_callSite (function : String) (n : Nat) (r : Register) :
    (Symbol.ofName (callSite function n ++ r)).name =
      callSite (Symbol.ofName function).name n ++ (Symbol.ofName r).name := by
  have hdigits : (Nat.toDigits 10 n).filter (fun c => c.toNat ≠ 0) = Nat.toDigits 10 n := by
    refine List.filter_eq_self.2 fun c hc => decide_eq_true fun hzero => ?_
    have hnul : c = Char.ofNat 0 := by rw [← hzero, Char.ofNat_toNat]
    exact not_mem_toDigits (by decide) n (hnul ▸ hc)
  have hmark : decide ('#'.toNat ≠ 0) = true := by decide
  have hcolon : decide (':'.toNat ≠ 0) = true := by decide
  rw [← String.toList_inj, toList_callSite_append]
  simp only [Symbol.ofName, toList_callSite_append, String.toList_ofList, List.filter_append,
    List.filter_cons, hdigits, hmark, hcolon, if_true]

namespace Tensors

variable {shapeLaws : Bool}

/-- The tensors under the names with their numbers changed. -/
noncomputable def renumbered (τ : Tensors shapeLaws) (ν : Nat → Nat) : Tensors shapeLaws where
  tensor r := τ.tensor (renumber ν (Symbol.ofName r).name)
  tensor_congr h := by rw [h]
  proper hlaws r := τ.proper hlaws _

/-- Renumbered tensors give to a name what the name with the new number has. -/
theorem tensor_renumbered (τ : Tensors shapeLaws) (ν : Nat → Nat) (hx : Given x) :
    (τ.renumbered ν).tensor x = τ.tensor (renumber ν x) := by
  have hhash : ∀ {y : Register}, '#' ∉ y.toList → '#' ∉ (Symbol.ofName y).name.toList := by
    intro y hy
    simp [Symbol.ofName, hy]
  refine τ.tensor_congr ?_
  rcases hx with hx | ⟨n, function, r, hr, rfl⟩
  · rw [renumber_of_hash_not_mem ν (hhash hx), renumber_of_hash_not_mem ν hx, Symbol.ofName_name]
  · rw [name_ofName_callSite, renumber_callSite ν _ n (hhash hr), ← name_ofName_callSite,
      renumber_callSite ν function n hr, Symbol.ofName_name]

/-- Tensors that meet the facts with a summary meet those without it, under the numbers that are
left. -/
theorem Meets.renumbered {τ : Tensors shapeLaws} {facts facts' : List Value} (h : τ.Meets facts)
    (hsub : (facts'.map (Value.mapRegisters (renumber ν))).Sublist facts)
    (hgiven : ∀ v ∈ facts', ∀ x ∈ v.registers, Given x) :
    (τ.renumbered ν).Meets facts' := by
  have hmeets : τ.Meets (facts'.map (Value.mapRegisters (renumber ν))) := h.mono hsub.subset
  rwa [meets_mapRegisters_iff fun v hv x hx => τ.tensor_renumbered ν (hgiven v hv x hx)] at hmeets

end Tensors

/-! ## Answers -/

namespace Verifier

variable {v : Verifier} {env env' : Environment} {function missing : String}

/-- A function is answered by its facts: they can be given, and the answer is about them. -/
theorem checkFunction_eq_ok {answer : Consistency} :
    (v.checkFunction env function).outcome = .ok answer ↔
      ∃ facts, (env.instantiate function).outcome = .ok facts ∧
        (v.checkConsistency facts).outcome = .ok answer := by
  rw [checkFunction, Report.outcome_bind_eq_ok]
  simp only [Report.outcome_mapError_eq_ok]

/-- An error in the calls of a function is reported, and nothing is put to the solver. -/
theorem checkFunction_of_error {e : CallError}
    (h : (env.instantiate function).outcome = .error e) :
    (v.checkFunction env function).outcome = .error (.call e) := by
  rw [checkFunction, Report.outcome_bind, Report.outcome_mapError, h]
  rfl

/-- **To know less refutes less**: a contradiction that is found in a function without the summary
of another one is found with it too, unless it turns out that a call passes a wrong number of
operands. -/
theorem checkFunction_of_without {solver : Solver} (hsolver : solver.Decides) (shapeLaws : Bool)
    (hhash : env.HashFree) (hwithout : env.Without missing env')
    (h : (checkFunction ⟨some solver, shapeLaws⟩ env' function).outcome = .ok .contradictory) :
    (checkFunction ⟨some solver, shapeLaws⟩ env function).outcome = .ok .contradictory ∨
      ∃ callee expected got, (checkFunction ⟨some solver, shapeLaws⟩ env function).outcome =
        .error (.call (.arityMismatch callee expected got)) := by
  obtain ⟨facts', hless, hrefutes⟩ := checkFunction_eq_ok.1 h
  obtain ⟨s, -, hsummary, -⟩ := Environment.expands_of_outcome_instantiate hless
  cases hfull : (env.instantiate function).outcome with
  | error e =>
    have hsummary' := hwithout.summary?_eq_some hsummary
    obtain ⟨callee, expected, got, rfl⟩ :=
      Environment.arityMismatch_of_outcome_instantiate hsummary' hfull
    exact .inr ⟨callee, expected, got, checkFunction_of_error hfull⟩
  | ok facts =>
    obtain ⟨facts'', ν, hless', hsub⟩ :=
      Environment.exists_instantiate_without hwithout hhash hsummary hfull
    rw [hless] at hless'
    cases hless'
    have hgiven := Environment.given_of_instantiate (hwithout.hashFree hhash) hless
    have hnone : ¬∃ τ : Tensors shapeLaws, τ.Meets facts' := (refutes_iff hsolver).1 hrefutes
    refine .inl (checkFunction_eq_ok.2 ⟨facts, hfull, (refutes_iff hsolver).2 ?_⟩)
    rintro ⟨τ, hmeets⟩
    exact hnone ⟨τ.renumbered ν, hmeets.renumbered hsub hgiven⟩

/-- `main` calls `left` and then `right`, which wants a register of its own to have two ranks. -/
def leftRight : Environment :=
  ((Environment.empty.addSummary
    ⟨"left", ["%p"], [], [.holds (.equals (.rankOf "%p") (.rankOf "%l"))]⟩).addSummary
    ⟨"right", ["%q"], [],
      [.holds (.equals (.rankOf "%l") (.int 1)),
        .holds (.equals (.rankOf "%l") (.int 2))]⟩).addSummary
    ⟨"main", ["%x"], [], [.call "left" "%r" ["%x"], .call "right" "%s" ["%x"]]⟩

/-- Without `left` the call of `right` is the first one. What it says is a contradiction under
either number. -/
theorem checkFunction_leftRight :
    Solver.ideal.Decides ∧ leftRight.HashFree ∧
    leftRight.Without "left" (leftRight.drop "left") ∧
    ((leftRight.drop "left").instantiate "main").outcome =
      .ok [.equals (.rankOf "right#0::%l") (.int 1), .equals (.rankOf "right#0::%l") (.int 2)] ∧
    (leftRight.instantiate "main").outcome =
      .ok [.equals (.rankOf "%x") (.rankOf "left#0::%l"),
        .equals (.rankOf "right#1::%l") (.int 1), .equals (.rankOf "right#1::%l") (.int 2)] ∧
    (checkFunction ⟨some Solver.ideal, true⟩ (leftRight.drop "left") "main").outcome =
      .ok .contradictory ∧
    (checkFunction ⟨some Solver.ideal, true⟩ leftRight "main").outcome = .ok .contradictory := by
  have hvalues : ∀ s ∈ leftRight.summaries.values, ∀ r ∈ s.registers, '#' ∉ r.toList := by
    decide +kernel
  have hhash : leftRight.HashFree := fun f s hs => hvalues s (Environment.mem_values_of_summary? hs)
  have hwithout := Environment.without_drop leftRight "left"
  have hless : (leftRight.drop "left").Expands .root ["main"] 0
      [.call "left" "%r" ["%x"], .call "right" "%s" ["%x"]] _ _ :=
    .unknown _ _ rfl (.filled rfl (by decide) rfl (.holds _ (.holds _ (.nil ..))) (.nil ..))
  have hfull : leftRight.Expands .root ["main"] 0
      [.call "left" "%r" ["%x"], .call "right" "%s" ["%x"]] _ _ :=
    .filled rfl (by decide) rfl (.holds _ (.nil ..))
      (.filled rfl (by decide) rfl (.holds _ (.holds _ (.nil ..))) (.nil ..))
  have hlessFacts : ((leftRight.drop "left").instantiate "main").outcome =
      .ok [.equals (.rankOf "right#0::%l") (.int 1), .equals (.rankOf "right#0::%l") (.int 2)] :=
    Environment.outcome_instantiate_of_expands rfl hless
  have hfullFacts : (leftRight.instantiate "main").outcome =
      .ok [.equals (.rankOf "%x") (.rankOf "left#0::%l"),
        .equals (.rankOf "right#1::%l") (.int 1), .equals (.rankOf "right#1::%l") (.int 2)] :=
    Environment.outcome_instantiate_of_expands rfl hfull
  have hrefutes : Refutes ⟨some Solver.ideal, true⟩
      [.equals (.rankOf "right#0::%l") (.int 1), .equals (.rankOf "right#0::%l") (.int 2)] := by
    rw [refutes_iff Solver.ideal_decides]
    rintro ⟨τ, hmeets⟩
    have hone := Tensors.satisfies_rank_iff.1 (hmeets.satisfies List.mem_cons_self ⟨_, rfl⟩)
    have htwo := Tensors.satisfies_rank_iff.1
      (hmeets.satisfies (List.mem_cons_of_mem _ List.mem_cons_self) ⟨_, rfl⟩)
    rw [hone] at htwo
    exact absurd htwo (by decide)
  have hcontradictory : (checkFunction ⟨some Solver.ideal, true⟩ (leftRight.drop "left")
      "main").outcome = .ok .contradictory := checkFunction_eq_ok.2 ⟨_, hlessFacts, hrefutes⟩
  refine ⟨Solver.ideal_decides, hhash, hwithout, hlessFacts, hfullFacts, hcontradictory, ?_⟩
  rcases checkFunction_of_without Solver.ideal_decides true hhash hwithout hcontradictory with
    hanswer | ⟨callee, expected, got, herror⟩
  · exact hanswer
  · rw [checkFunction_eq_ok.2 ⟨_, hfullFacts, outcome_checkConsistency⟩] at herror
    cases herror

end Verifier

end TensorShape
