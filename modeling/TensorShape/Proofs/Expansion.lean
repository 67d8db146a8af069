import TensorShape.CallGraph.Inlining
import TensorShape.Proofs.Tables

/-!
# TensorShape.Proofs.Expansion

How the facts of a function come about.

* `Expands` says step by step what filling in the calls of a list of constraints does, and
  `expands_of_outcome_expand` and `Expands.outcome_expand` that `Environment.expand` does just that;
* `Naming.name_atCall_of_mem_zip`, `Naming.name_atCall_of_returns` and `Naming.name_atCall_cases`
  say how the registers of a called function are named;
* `callSite_append_inj`: a name given out for one call is never given out for another.
-/

namespace TensorShape

/-- The summary of a function is among those of the environment. -/
theorem Environment.mem_values_of_summary? {env : Environment} {function : String} {s : Summary}
    (h : env.summary? function = some s) : s ∈ env.summaries.values :=
  Table.mem_values_of_get? h

/-! ## Fresh names -/

/-- The text put before the registers of `function` at the call with number `n`. -/
def callSite (function : String) (n : Nat) : String := function ++ "#" ++ toString n ++ "::"

/-- The name of a register without `#`, as given out for the call with number `n`. -/
def DrawnAt (n : Nat) (x : Register) : Prop :=
  ∃ function r : String, '#' ∉ r.toList ∧ x = callSite function n ++ r

/-- Two texts cut where a character stands last have the same part behind it. -/
theorem eq_of_append_last_eq {mark : Char} {a a' b b' : List Char} (hb : mark ∉ b) (hb' : mark ∉ b')
    (h : a ++ mark :: b = a' ++ mark :: b') : b = b' := by
  induction a generalizing a' with
  | nil =>
    cases a' with
    | nil => exact (List.cons.inj h).2
    | cons c a' =>
      have hmem : mark ∈ b := by
        rw [(List.cons.inj h).2]
        exact List.mem_append_right _ List.mem_cons_self
      exact absurd hmem hb
  | cons c a ih =>
    cases a' with
    | nil =>
      have hmem : mark ∈ b' := by
        rw [← (List.cons.inj h).2]
        exact List.mem_append_right _ List.mem_cons_self
      exact absurd hmem hb'
    | cons c' a' => exact ih (List.cons.inj h).2

/-- Two texts cut at their first colon have the same part before it. -/
theorem eq_of_append_colon_eq {a a' b b' : List Char} (ha : ':' ∉ a) (ha' : ':' ∉ a')
    (h : a ++ ':' :: b = a' ++ ':' :: b') : a = a' := by
  induction a generalizing a' with
  | nil =>
    cases a' with
    | nil => rfl
    | cons c a' => exact absurd (by rw [← (List.cons.inj h).1]; exact List.mem_cons_self) ha'
  | cons c a ih =>
    cases a' with
    | nil => exact absurd (by rw [(List.cons.inj h).1]; exact List.mem_cons_self) ha
    | cons c' a' =>
      obtain ⟨hc, htail⟩ := List.cons.inj h
      rw [hc, ih (fun hm => ha (List.mem_cons_of_mem c hm))
        (fun hm => ha' (List.mem_cons_of_mem c' hm)) htail]

/-- A character that is no digit does not stand in a decimal number. -/
theorem not_mem_toDigits {c : Char} (hc : c.isDigit = false) (n : Nat) : c ∉ Nat.toDigits 10 n := by
  intro hmem
  rw [Nat.isDigit_of_mem_toDigits (by decide) (by decide) hmem] at hc
  cases hc

/-- The characters of a fresh name: the function, its number between the marks, and the register. -/
theorem toList_callSite_append (function : String) (n : Nat) (r : String) :
    (callSite function n ++ r).toList =
      function.toList ++ '#' :: (Nat.toDigits 10 n ++ ':' :: ':' :: r.toList) := by
  simp [callSite, Nat.toString_eq_repr, Nat.toList_repr]

/-- A name that is given out tells for which call of which function, and for which register: these
can be read off before and behind the last `#`. -/
theorem callSite_append_inj {f g : String} {n m : Nat} {r s : Register} (hr : '#' ∉ r.toList)
    (hs : '#' ∉ s.toList) (h : callSite f n ++ r = callSite g m ++ s) : f = g ∧ n = m ∧ r = s := by
  have hchars := congrArg String.toList h
  rw [toList_callSite_append, toList_callSite_append] at hchars
  have hbehind : ∀ (k : Nat) {t : List Char}, '#' ∉ t →
      '#' ∉ Nat.toDigits 10 k ++ ':' :: ':' :: t := by
    intro k t ht
    simp [ht, not_mem_toDigits]
  have htail := eq_of_append_last_eq (hbehind n hr) (hbehind m hs) hchars
  have hdigits := eq_of_append_colon_eq (not_mem_toDigits (by decide) n)
    (not_mem_toDigits (by decide) m) htail
  have hvalue := congrArg (fun ds => Nat.ofDigitChars 10 ds 0) hdigits
  rw [htail, List.append_cancel_right_eq] at hchars
  rw [hdigits, List.append_cancel_left_eq] at htail
  have hregister : r.toList = s.toList := by simpa using htail
  exact ⟨String.toList_inj.1 hchars, by simpa using hvalue, String.toList_inj.1 hregister⟩

/-- A name is drawn with one number only. -/
theorem DrawnAt.unique {n m : Nat} {x : Register} (hn : DrawnAt n x) (hm : DrawnAt m x) :
    n = m := by
  obtain ⟨f, r, hr, rfl⟩ := hn
  obtain ⟨g, s, hs, h⟩ := hm
  exact (callSite_append_inj hr hs h).2.1

/-- A name that is given out for no call numbered `n` or later. -/
def DrawnBefore (n : Nat) (x : Register) : Prop := ∀ m, DrawnAt m x → m < n

theorem DrawnBefore.mono {n m : Nat} {x : Register} (h : DrawnBefore n x) (hle : n ≤ m) :
    DrawnBefore m x :=
  fun k hk => Nat.lt_of_lt_of_le (h k hk) hle

theorem DrawnAt.drawnBefore_succ {n : Nat} {x : Register} (h : DrawnAt n x) :
    DrawnBefore (n + 1) x := by
  intro m hm
  rw [hm.unique h]
  exact Nat.lt_succ_self n

/-- A name without the mark of fresh names was there before any was drawn. -/
theorem drawnBefore_of_hash_not_mem {x : Register} (h : '#' ∉ x.toList) (n : Nat) :
    DrawnBefore n x := by
  rintro m ⟨f, r, -, rfl⟩
  rw [toList_callSite_append] at h
  exact absurd (List.mem_append_right _ List.mem_cons_self) h

/-! ## Names at a call -/

namespace Naming

variable {outer : Naming} {callee : Summary} {site : String} {result : Register}
  {operands : List Register}

/-- The bindings of the parameters, without that of the register returned. -/
def paramTable (outer : Naming) (callee : Summary) (operands : List Register) :
    Table Register Register :=
  .ofList (callee.params.zip (operands.map outer.name))

/-- A register has the name it is bound to, and else its own name at the site. -/
theorem name_eq_getD (n : Naming) (r : Register) :
    n.name r = (n.bound.get? r).getD (n.site ++ r) := by
  unfold name
  cases n.bound.get? r <;> rfl

/-- The bindings of a call, looked up: a parameter first, then the register returned. -/
theorem name_atCall (r : Register) :
    (outer.atCall callee site result operands).name r =
      ((paramTable outer callee operands).get? r).getD
        (if callee.returns = [r] then outer.name result else site ++ r) := by
  rw [name_eq_getD]
  cases hreturns : callee.returns with
  | nil => simp [atCall, hreturns, paramTable]
  | cons q tail =>
    cases tail with
    | cons q' tail => simp [atCall, hreturns, paramTable]
    | nil =>
      -- A parameter that is returned keeps its operand: the returned register is bound only if
      -- it is not bound yet.
      cases hq : (paramTable outer callee operands).get? q with
      | some x =>
        have hcall : outer.atCall callee site result operands =
            ⟨paramTable outer callee operands, site⟩ := by
          simp only [atCall, hreturns]
          exact if_pos (by simp only [paramTable] at hq; simp [Table.contains, hq])
        rw [hcall]
        by_cases hr : q = r
        · subst hr
          simp [hq]
        · simp [hr]
      | none =>
        have hcall : outer.atCall callee site result operands =
            ⟨(paramTable outer callee operands).insert q (outer.name result), site⟩ := by
          simp only [atCall, hreturns]
          exact if_neg (by simp only [paramTable] at hq; simp [Table.contains, hq])
        rw [hcall, Table.get?_insert]
        by_cases hr : q = r
        · subst hr
          simp [hq]
        · simp [hr]

/-- A parameter is named as the operand passed for it. -/
theorem name_atCall_of_mem_zip (hparams : callee.params.Nodup)
    (hlen : callee.params.length = operands.length) {p o : Register}
    (h : (p, o) ∈ callee.params.zip operands) :
    (outer.atCall callee site result operands).name p = outer.name o := by
  have hget : (paramTable outer callee operands).get? p = some (outer.name o) := by
    refine Table.get?_ofList_of_mem ?_ ?_
    · rw [List.map_fst_zip (by simp [hlen])]
      exact hparams
    · rw [List.zip_map_right]
      exact List.mem_map_of_mem h
  rw [name_atCall, hget, Option.getD_some]

/-- The single register returned, if it is no parameter, is named as the result of the call. -/
theorem name_atCall_of_returns {r : Register} (hr : callee.returns = [r])
    (h : r ∉ callee.params) :
    (outer.atCall callee site result operands).name r = outer.name result := by
  have hget : (paramTable outer callee operands).get? r = none := by
    refine Table.get?_ofList_of_not_mem fun hmem => h ?_
    obtain ⟨p, hp, rfl⟩ := List.mem_map.1 hmem
    exact (List.of_mem_zip hp).1
  rw [name_atCall, hget, Option.getD_none, if_pos hr]

/-- A register of a called function is named as an operand, as the result, or after the call. -/
theorem name_atCall_cases (hlen : callee.params.length = operands.length) (r : Register) :
    (∃ o, (r, o) ∈ callee.params.zip operands ∧
      (outer.atCall callee site result operands).name r = outer.name o) ∨
    (callee.returns = [r] ∧ r ∉ callee.params ∧
      (outer.atCall callee site result operands).name r = outer.name result) ∨
    (outer.atCall callee site result operands).name r = site ++ r := by
  rw [name_atCall]
  cases hget : (paramTable outer callee operands).get? r with
  | some x =>
    have hmem := Table.mem_of_get?_ofList hget
    rw [List.zip_map_right] at hmem
    obtain ⟨⟨p, o⟩, hpo, heq⟩ := List.mem_map.1 hmem
    cases heq
    exact .inl ⟨o, hpo, rfl⟩
  | none =>
    by_cases hreturns : callee.returns = [r]
    · refine .inr (.inl ⟨hreturns, fun hmem => ?_, if_pos hreturns⟩)
      have hkey : r ∈ (callee.params.zip (operands.map outer.name)).map Prod.fst := by
        rw [List.map_fst_zip (by simp [hlen])]
        exact hmem
      exact Table.get?_ofList_ne_none hkey hget
    · exact .inr (.inr (if_neg hreturns))

/-- Renaming the names of the caller, and those given out for the call, renames those of the called
function. -/
theorem map_name_atCall (φ : Register → Register) {outer' : Naming} {site' : String}
    (hnames : ∀ o ∈ result :: operands, φ (outer.name o) = outer'.name o) {r : Register}
    (hsite : φ (site ++ r) = site' ++ r) :
    φ ((outer.atCall callee site result operands).name r) =
      (outer'.atCall callee site' result operands).name r := by
  have hoperands : operands.map outer'.name = (operands.map outer.name).map φ := by
    rw [List.map_map]
    exact List.map_congr_left fun o ho => (hnames o (List.mem_cons_of_mem _ ho)).symm
  have htable : (paramTable outer' callee operands).get? r =
      ((paramTable outer callee operands).get? r).map φ := by
    rw [paramTable, paramTable, hoperands, List.zip_map_right, Table.get?_ofList_map]
  rw [name_atCall, name_atCall, htable]
  cases (paramTable outer callee operands).get? r with
  | some x => rfl
  | none =>
    rw [Option.map_none, Option.getD_none, Option.getD_none]
    by_cases hreturns : callee.returns = [r]
    · rw [if_pos hreturns, if_pos hreturns, hnames result List.mem_cons_self]
    · rw [if_neg hreturns, if_neg hreturns, hsite]

/-- The names at the call with number `n` are older than those of any later call. -/
theorem drawnBefore_name_atCall {function : String} {n : Nat}
    (hlen : callee.params.length = operands.length)
    (hold : ∀ o ∈ result :: operands, DrawnBefore n (outer.name o)) {r : Register}
    (hr : '#' ∉ r.toList) :
    DrawnBefore (n + 1) ((outer.atCall callee (callSite function n) result operands).name r) := by
  rcases name_atCall_cases hlen r with ⟨o, hmem, hname⟩ | ⟨-, -, hname⟩ | hname
  · rw [hname]
    exact (hold o (List.mem_cons_of_mem _ (List.of_mem_zip hmem).2)).mono (Nat.le_succ n)
  · rw [hname]
    exact (hold result List.mem_cons_self).mono (Nat.le_succ n)
  · rw [hname]
    exact DrawnAt.drawnBefore_succ ⟨function, r, hr, rfl⟩

end Naming

/-! ## Derivations -/

namespace Environment

variable {env : Environment}

/-- Filling in the calls of a list of constraints, one constraint after the other: from the next
fresh number before to the facts and the next fresh number after. -/
inductive Expands (env : Environment) :
    Naming → List String → Nat → List Constraint → List Value → Nat → Prop where
  | nil (naming : Naming) (stack : List String) (n : Nat) : Expands env naming stack n [] [] n
  | holds {naming : Naming} {stack : List String} {n m : Nat} {rest : List Constraint}
      {facts : List Value} (v : Value) (tail : Expands env naming stack n rest facts m) :
      Expands env naming stack n (.holds v :: rest) (v.mapRegisters naming.name :: facts) m
  /-- A call of a function without a summary says nothing. -/
  | unknown {naming : Naming} {stack : List String} {n m : Nat} {rest : List Constraint}
      {facts : List Value} {function : String} (result : Register) (operands : List Register)
      (hsummary : env.summary? function = none)
      (tail : Expands env naming stack n rest facts m) :
      Expands env naming stack n (.call function result operands :: rest) facts m
  /-- A call of a function that is being filled in says nothing. -/
  | recursive {naming : Naming} {stack : List String} {n m : Nat} {rest : List Constraint}
      {facts : List Value} {function : String} (result : Register) (operands : List Register)
      (hstack : function ∈ stack) (tail : Expands env naming stack n rest facts m) :
      Expands env naming stack n (.call function result operands :: rest) facts m
  /-- Any other call says what the constraints of the called function say. -/
  | filled {naming : Naming} {stack : List String} {n m k : Nat} {rest : List Constraint}
      {inner facts : List Value} {function : String} {result : Register}
      {operands : List Register} {callee : Summary}
      (hsummary : env.summary? function = some callee) (hstack : function ∉ stack)
      (hlen : callee.params.length = operands.length)
      (body : Expands env (naming.atCall callee (callSite function n) result operands)
        (stack ++ [function]) (n + 1) callee.constraints inner m)
      (tail : Expands env naming stack m rest facts k) :
      Expands env naming stack n (.call function result operands :: rest) (inner ++ facts) k

/-! ### The four fates of a call -/

section Calls

variable {caller : String} {naming : Naming} {stack : List String} {n : Nat} {function : String}
  {result : Register} {operands : List Register} {rest : List Constraint} {callee : Summary}

/-- A call of a function without a summary is logged and says nothing. -/
theorem expand_unknown (hsummary : env.summary? function = none) :
    env.expand caller naming stack n (.call function result operands :: rest) = (do
      Report.log (.unknownCallee caller function)
      env.expand caller naming stack n rest) := by
  rw [expand]
  split
  · rfl
  · next hsome =>
    rw [hsummary] at hsome
    cases hsome

/-- A call of a function that is being filled in is logged and says nothing. -/
theorem expand_recursive (hsummary : env.summary? function = some callee)
    (hstack : function ∈ stack) :
    env.expand caller naming stack n (.call function result operands :: rest) = (do
      Report.log (.recursiveCall caller function)
      env.expand caller naming stack n rest) := by
  rw [expand]
  split
  · next hnone =>
    rw [hsummary] at hnone
    cases hnone
  · rw [dif_pos hstack]

/-- A call with the wrong number of operands is an error. -/
theorem expand_mismatch (hsummary : env.summary? function = some callee)
    (hstack : function ∉ stack) (hlen : callee.params.length ≠ operands.length) :
    env.expand caller naming stack n (.call function result operands :: rest) =
      Report.fail (.arityMismatch function callee.params.length operands.length) := by
  rw [expand]
  split
  · next hnone =>
    rw [hsummary] at hnone
    cases hnone
  · next hsome =>
    rw [hsummary] at hsome
    cases hsome
    rw [dif_neg hstack, if_pos hlen]

/-- A call that is filled in: the facts of its body come before those of the constraints after
it. -/
theorem expand_filled (hsummary : env.summary? function = some callee)
    (hstack : function ∉ stack) (hlen : callee.params.length = operands.length) :
    env.expand caller naming stack n (.call function result operands :: rest) = (do
      if callee.returns.length ≠ 1 then
        Report.log (.resultUnconstrained function callee.returns.length)
      let (inner, m) ← env.expand callee.name
        (naming.atCall callee (callSite function n) result operands) (stack ++ [function]) (n + 1)
        callee.constraints
      let (facts, k) ← env.expand caller naming stack m rest
      return (inner ++ facts, k)) := by
  rw [expand]
  split
  · next hnone =>
    rw [hsummary] at hnone
    cases hnone
  · next hsome =>
    rw [hsummary] at hsome
    cases hsome
    rw [dif_neg hstack, if_neg (by simp [hlen])]
    rfl

theorem outcome_expand_unknown (hsummary : env.summary? function = none) :
    (env.expand caller naming stack n (.call function result operands :: rest)).outcome =
      (env.expand caller naming stack n rest).outcome := by
  rw [expand_unknown hsummary, Report.outcome_bind, Report.outcome_log]
  rfl

/-- A call of a function that is being filled in adds no facts, whether it has a summary or not. -/
theorem outcome_expand_recursive (hstack : function ∈ stack) :
    (env.expand caller naming stack n (.call function result operands :: rest)).outcome =
      (env.expand caller naming stack n rest).outcome := by
  cases hsummary : env.summary? function with
  | none => exact outcome_expand_unknown hsummary
  | some callee =>
    rw [expand_recursive hsummary hstack, Report.outcome_bind, Report.outcome_log]
    rfl

theorem outcome_expand_mismatch (hsummary : env.summary? function = some callee)
    (hstack : function ∉ stack) (hlen : callee.params.length ≠ operands.length) :
    (env.expand caller naming stack n (.call function result operands :: rest)).outcome =
      .error (.arityMismatch function callee.params.length operands.length) := by
  rw [expand_mismatch hsummary hstack hlen, Report.outcome_fail]

/-- Whether the called function returns one register changes the log only. -/
theorem outcome_expand_filled (hsummary : env.summary? function = some callee)
    (hstack : function ∉ stack) (hlen : callee.params.length = operands.length) :
    (env.expand caller naming stack n (.call function result operands :: rest)).outcome =
      (do
        let (inner, m) ← env.expand callee.name
          (naming.atCall callee (callSite function n) result operands) (stack ++ [function]) (n + 1)
          callee.constraints
        let (facts, k) ← env.expand caller naming stack m rest
        return (inner ++ facts, k) : Report CallError (List Value × Nat)).outcome := by
  rw [expand_filled hsummary hstack hlen]
  by_cases hreturns : callee.returns.length = 1
  · simp only [hreturns]
    rfl
  · rw [if_pos hreturns]
    simp only [Report.outcome_bind, Report.outcome_log]
    rfl

end Calls

/-- Whatever `expand` gives has a derivation. -/
theorem expands_of_outcome_expand {caller : String} {naming : Naming} {stack : List String}
    {n m : Nat} {constraints : List Constraint} {facts : List Value}
    (h : (env.expand caller naming stack n constraints).outcome = .ok (facts, m)) :
    Expands env naming stack n constraints facts m := by
  induction caller, naming, stack, n, constraints using expand.induct env
    generalizing facts m with
  | case1 caller naming stack n =>
    rw [expand] at h
    cases h
    exact .nil naming stack n
  | case2 caller naming stack n v rest ih =>
    rw [expand, Report.outcome_bind_eq_ok] at h
    obtain ⟨⟨facts', m'⟩, htail, h⟩ := h
    cases h
    exact .holds v (ih htail)
  | case3 caller naming stack n function result operands rest hsummary ih =>
    rw [outcome_expand_unknown hsummary] at h
    exact .unknown result operands hsummary (ih h)
  | case4 caller naming stack n function result operands rest callee hsummary hstack ih =>
    rw [outcome_expand_recursive hstack] at h
    exact .recursive result operands hstack (ih h)
  | case5 caller naming stack n function result operands rest callee hsummary hstack hlen =>
    rw [outcome_expand_mismatch hsummary hstack hlen] at h
    cases h
  | case6 caller naming stack n function _ _ rest callee hsummary hstack hlen _ _ ihbody ihtail
  | case7 caller naming stack n function _ _ rest callee hsummary hstack hlen _ _ ihbody ihtail =>
    rw [outcome_expand_filled hsummary hstack (Decidable.not_not.1 hlen),
      Report.outcome_bind_eq_ok] at h
    obtain ⟨⟨inner, m'⟩, hbody, h⟩ := h
    rw [Report.outcome_bind_eq_ok] at h
    obtain ⟨⟨facts', k⟩, htail, h⟩ := h
    cases h
    exact .filled hsummary hstack (Decidable.not_not.1 hlen) (ihbody hbody) (ihtail m' htail)

/-- And `expand` gives what has a derivation. -/
theorem Expands.outcome_expand {naming : Naming} {stack : List String} {n m : Nat}
    {constraints : List Constraint} {facts : List Value}
    (h : Expands env naming stack n constraints facts m) (caller : String) :
    (env.expand caller naming stack n constraints).outcome = .ok (facts, m) := by
  induction h generalizing caller with
  | nil naming stack n =>
    rw [expand]
    rfl
  | holds v tail ih =>
    rw [expand, Report.outcome_bind_eq_ok]
    exact ⟨_, ih caller, rfl⟩
  | unknown result operands hsummary tail ih =>
    rw [outcome_expand_unknown hsummary]
    exact ih caller
  | recursive result operands hstack tail ih =>
    rw [outcome_expand_recursive hstack]
    exact ih caller
  | filled hsummary hstack hlen body tail ihbody ihtail =>
    rw [outcome_expand_filled hsummary hstack hlen, Report.outcome_bind_eq_ok]
    refine ⟨_, ihbody _, ?_⟩
    rw [Report.outcome_bind_eq_ok]
    exact ⟨_, ihtail caller, rfl⟩

/-- Nothing goes wrong in filling in calls but that one passes too few operands, or too many. -/
theorem arityMismatch_of_outcome_expand {caller : String} {naming : Naming} {stack : List String}
    {n : Nat} {constraints : List Constraint} {e : CallError}
    (h : (env.expand caller naming stack n constraints).outcome = .error e) :
    ∃ callee expected got, e = .arityMismatch callee expected got := by
  induction caller, naming, stack, n, constraints using expand.induct env with
  | case1 caller naming stack n =>
    rw [expand] at h
    cases h
  | case2 caller naming stack n v rest ih =>
    rw [expand, Report.outcome_bind_eq_error] at h
    rcases h with htail | ⟨p, -, h⟩
    · exact ih htail
    · cases h
  | case3 caller naming stack n function result operands rest hsummary ih =>
    rw [outcome_expand_unknown hsummary] at h
    exact ih h
  | case4 caller naming stack n function result operands rest callee hsummary hstack ih =>
    rw [outcome_expand_recursive hstack] at h
    exact ih h
  | case5 caller naming stack n function result operands rest callee hsummary hstack hlen =>
    rw [outcome_expand_mismatch hsummary hstack hlen] at h
    cases h
    exact ⟨_, _, _, rfl⟩
  | case6 caller naming stack n function _ _ rest callee hsummary hstack hlen _ _ ihbody ihtail
  | case7 caller naming stack n function _ _ rest callee hsummary hstack hlen _ _ ihbody ihtail =>
    rw [outcome_expand_filled hsummary hstack (Decidable.not_not.1 hlen),
      Report.outcome_bind_eq_error] at h
    rcases h with hbody | ⟨⟨inner, m⟩, -, h⟩
    · exact ihbody hbody
    · rcases Report.outcome_bind_eq_error.1 h with htail | ⟨p, -, h⟩
      · exact ihtail m htail
      · cases h

/-- The facts of a function come from its constraints under their own names. -/
theorem expands_of_outcome_instantiate {function : String} {facts : List Value}
    (h : (env.instantiate function).outcome = .ok facts) :
    ∃ s m, env.summary? function = some s ∧
      env.Expands .root [function] 0 s.constraints facts m := by
  cases hsummary : env.summary? function with
  | none =>
    simp only [instantiate, hsummary] at h
    cases h
  | some s =>
    simp only [instantiate, hsummary] at h
    obtain ⟨⟨facts', m⟩, hexpand, h⟩ := Report.outcome_bind_eq_ok.1 h
    cases h
    exact ⟨s, m, rfl, expands_of_outcome_expand hexpand⟩

/-- The facts of a function are what its constraints expand to, from an empty list and the first
number. -/
theorem outcome_instantiate_of_expands {function : String} {s : Summary} {facts : List Value}
    {m : Nat} (hsummary : env.summary? function = some s)
    (h : env.Expands .root [function] 0 s.constraints facts m) :
    (env.instantiate function).outcome = .ok facts := by
  simp only [instantiate, hsummary]
  rw [Report.outcome_bind_eq_ok]
  exact ⟨_, h.outcome_expand s.name, rfl⟩

/-- A function with a summary can fail in one way only: by a call with the wrong number of operands.
-/
theorem arityMismatch_of_outcome_instantiate {function : String} {s : Summary} {e : CallError}
    (hsummary : env.summary? function = some s)
    (h : (env.instantiate function).outcome = .error e) :
    ∃ callee expected got, e = .arityMismatch callee expected got := by
  simp only [instantiate, hsummary] at h
  rcases Report.outcome_bind_eq_error.1 h with hexpand | ⟨p, -, h⟩
  · exact arityMismatch_of_outcome_expand hexpand
  · cases h

end Environment

end TensorShape
