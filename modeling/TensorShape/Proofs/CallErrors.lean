import Mathlib.Data.List.Chain
import TensorShape.Proofs.Expansion

/-!
# TensorShape.Proofs.CallErrors

When the calls of a function cannot be filled in, and which error is reported.

A **route** leads from the function through calls that fit, each in the function called by the one
before, to a call that passes a wrong number of operands. Its entries are a function and the place
of a constraint in it. The functions of a route are distinct and the last call leaves the route,
since a call of a function that is being filled in is passed over before its operands are counted.

Going through constraints in order, and into each call before what comes after it, meets the routes
in the lexicographic order of their places.

* `FailsAt` is a route as the filling in meets it, with the stack that it has there, and
  `failsAt_iff_exists_misroute` says that this is a route of distinct functions;
* `Expands.not_failsAt` and `exists_first_of_outcome_expand`: filling in succeeds only if it meets
  no route, and fails at the first one.
-/

namespace TensorShape

namespace Environment

/-! ## Routes -/

/-- The constraint of a function at a place is a call of the summarized function `callee`, which has
`expected` parameters, with `got` operands. -/
def CallsAt (env : Environment) (place : String × Nat) (callee : String) (expected got : Nat) :
    Prop :=
  ∃ s t result operands, env.summary? place.1 = some s ∧
    s.constraints[place.2]? = some (.call callee result operands) ∧
    env.summary? callee = some t ∧ t.params.length = expected ∧ operands.length = got

/-- A route from a function, through calls that fit in distinct functions, to a call that does not
fit of a function that is not on the route. -/
structure Misroute (env : Environment) (function : String) (route : List (String × Nat))
    (callee : String) (expected got : Nat) : Prop where
  starts : (route.map Prod.fst).head? = some function
  distinct : (route.map Prod.fst).Nodup
  fits : route.IsChain fun place next => ∃ n, env.CallsAt place next.1 n n
  ends : ∃ place, route.getLast? = some place ∧ env.CallsAt place callee expected got
  leaves : callee ∉ route.map Prod.fst
  misfit : expected ≠ got

/-! ## Routes as they are met -/

/-- Filling in the constraints with the given stack meets, at the places that are listed, a call
with a wrong number of operands. -/
inductive FailsAt (env : Environment) :
    List String → List Constraint → List Nat → CallError → Prop where
  | here {stack : List String} {constraints : List Constraint} {place : Nat} {function : String}
      {result : Register} {operands : List Register} {callee : Summary}
      (hcall : constraints[place]? = some (.call function result operands))
      (hsummary : env.summary? function = some callee) (hstack : function ∉ stack)
      (hlen : callee.params.length ≠ operands.length) :
      FailsAt env stack constraints [place]
        (.arityMismatch function callee.params.length operands.length)
  | inside {stack : List String} {constraints : List Constraint} {place : Nat} {places : List Nat}
      {function : String} {result : Register} {operands : List Register} {callee : Summary}
      {e : CallError} (hcall : constraints[place]? = some (.call function result operands))
      (hsummary : env.summary? function = some callee) (hstack : function ∉ stack)
      (hlen : callee.params.length = operands.length)
      (body : FailsAt env (stack ++ [function]) callee.constraints places e) :
      FailsAt env stack constraints (place :: places) e

variable {env : Environment} {stack : List String} {c : Constraint} {constraints : List Constraint}
  {place : Nat} {places places' : List Nat} {e e' : CallError}

theorem not_failsAt_nil_places : ¬env.FailsAt stack constraints [] e := by
  intro h
  cases h

/-- Nothing fails where nothing is called. -/
theorem not_failsAt_nil : ¬env.FailsAt stack [] places e := by
  intro h
  cases h with
  | here hcall _ _ _ => cases hcall
  | inside hcall _ _ _ _ => cases hcall

/-- The places tell the error. -/
theorem FailsAt.unique (h : env.FailsAt stack constraints places e)
    (h' : env.FailsAt stack constraints places e') : e = e' := by
  induction h with
  | here hcall hsummary hstack hlen =>
    cases h' with
    | here hcall' hsummary' _ _ =>
      cases hcall.symm.trans hcall'
      cases hsummary.symm.trans hsummary'
      rfl
    | inside _ _ _ _ body => exact absurd body not_failsAt_nil_places
  | inside hcall hsummary hstack hlen body ih =>
    cases h' with
    | here _ _ _ _ => exact absurd body not_failsAt_nil_places
    | inside hcall' hsummary' _ _ body' =>
      cases hcall.symm.trans hcall'
      cases hsummary.symm.trans hsummary'
      exact ih body'

/-- A failure further on does not depend on the constraint in front. -/
theorem failsAt_cons_succ_iff :
    env.FailsAt stack (c :: constraints) ((place + 1) :: places) e ↔
      env.FailsAt stack constraints (place :: places) e := by
  constructor
  · intro h
    cases h with
    | here hcall hsummary hstack hlen => exact .here hcall hsummary hstack hlen
    | inside hcall hsummary hstack hlen body => exact .inside hcall hsummary hstack hlen body
  · intro h
    cases h with
    | here hcall hsummary hstack hlen =>
      exact .here (by rwa [List.getElem?_cons_succ]) hsummary hstack hlen
    | inside hcall hsummary hstack hlen body =>
      exact .inside (by rwa [List.getElem?_cons_succ]) hsummary hstack hlen body

/-! ### What the first constraint contributes -/

section First

variable {function : String} {result : Register} {operands : List Register} {callee : Summary}

/-- A value that has to hold is no call, and cannot fail. -/
theorem not_failsAt_holds {v : Value} :
    ¬env.FailsAt stack (.holds v :: constraints) (0 :: places) e := by
  intro h
  cases h with
  | here hcall _ _ _ => cases hcall
  | inside hcall _ _ _ _ => cases hcall

/-- A call that is passed over is no failure, whatever it passes. -/
theorem not_failsAt_passed (h : env.summary? function = none ∨ function ∈ stack) :
    ¬env.FailsAt stack (.call function result operands :: constraints) (0 :: places) e := by
  have hpassed : ∀ {s : Summary}, env.summary? function = some s → function ∉ stack → False := by
    intro s hs hstack
    rcases h with hnone | hmem
    · rw [hs] at hnone
      cases hnone
    · exact hstack hmem
  intro hfails
  cases hfails with
  | here hcall hsummary hstack _ =>
    cases hcall
    exact hpassed hsummary hstack
  | inside hcall hsummary hstack _ _ =>
    cases hcall
    exact hpassed hsummary hstack

/-- A call that is filled in fails where its function does. -/
theorem failsAt_filled_iff (hsummary : env.summary? function = some callee)
    (hstack : function ∉ stack) (hlen : callee.params.length = operands.length) :
    env.FailsAt stack (.call function result operands :: constraints) (0 :: places) e ↔
      env.FailsAt (stack ++ [function]) callee.constraints places e := by
  constructor
  · intro h
    cases h with
    | here hcall hsummary' _ hlen' =>
      cases hcall
      cases hsummary.symm.trans hsummary'
      exact absurd hlen hlen'
    | inside hcall hsummary' _ _ body =>
      cases hcall
      cases hsummary.symm.trans hsummary'
      exact body
  · exact .inside rfl hsummary hstack hlen

end First

/-! ## The first failure -/

/-- The failure that is met first. -/
structure FirstFailsAt (env : Environment) (stack : List String) (constraints : List Constraint)
    (places : List Nat) (e : CallError) : Prop where
  fails : env.FailsAt stack constraints places e
  first : ∀ places' e', env.FailsAt stack constraints places' e' → ¬places' < places

/-- The first failure is one, and its error is the one reported. -/
theorem FirstFailsAt.unique (h : env.FirstFailsAt stack constraints places e)
    (h' : env.FirstFailsAt stack constraints places' e') : e = e' := by
  have hplaces : places = places' :=
    List.le_antisymm (h.first places' e' h'.fails) (h'.first places e h.fails)
  subst hplaces
  exact h.fails.unique h'.fails

/-- If the constraint in front does not fail, the first failure is that of the rest. -/
theorem FirstFailsAt.cons (h : env.FirstFailsAt stack constraints places e)
    (hhead : ∀ places e, ¬env.FailsAt stack (c :: constraints) (0 :: places) e) :
    ∃ places, env.FirstFailsAt stack (c :: constraints) places e := by
  cases places with
  | nil => exact absurd h.fails not_failsAt_nil_places
  | cons place places =>
    refine ⟨(place + 1) :: places, failsAt_cons_succ_iff.2 h.fails, fun places' e' hfails => ?_⟩
    cases places' with
    | nil => exact absurd hfails not_failsAt_nil_places
    | cons place' places' =>
      cases place' with
      | zero => exact absurd hfails (hhead places' e')
      | succ place' =>
        have hlater := h.first (place' :: places') e' (failsAt_cons_succ_iff.1 hfails)
        simpa [List.cons_lt_cons_iff] using hlater

/-- If neither the constraint in front nor the rest fails, nothing does. -/
theorem not_failsAt_cons (hhead : ∀ places e, ¬env.FailsAt stack (c :: constraints) (0 :: places) e)
    (htail : ∀ places e, ¬env.FailsAt stack constraints places e) :
    ¬env.FailsAt stack (c :: constraints) places e := by
  intro h
  cases places with
  | nil => exact not_failsAt_nil_places h
  | cons place places =>
    cases place with
    | zero => exact hhead places e h
    | succ place => exact htail _ e (failsAt_cons_succ_iff.1 h)

/-- If filling in succeeds, it meets no failure. -/
theorem Expands.not_failsAt {naming : Naming} {n m : Nat} {facts : List Value}
    (h : env.Expands naming stack n constraints facts m) (places : List Nat) (e : CallError) :
    ¬env.FailsAt stack constraints places e := by
  induction h generalizing places e with
  | nil naming stack n => exact not_failsAt_nil
  | holds v tail ih => exact not_failsAt_cons (fun _ _ => not_failsAt_holds) ih
  | unknown result operands hsummary tail ih =>
    exact not_failsAt_cons (fun _ _ => not_failsAt_passed (.inl hsummary)) ih
  | recursive result operands hstack tail ih =>
    exact not_failsAt_cons (fun _ _ => not_failsAt_passed (.inr hstack)) ih
  | filled hsummary hstack hlen body tail ihbody ihtail =>
    refine not_failsAt_cons (fun places e => ?_) ihtail
    rw [failsAt_filled_iff hsummary hstack hlen]
    exact ihbody places e

/-- If filling in fails, it is at the first failure. -/
theorem exists_first_of_outcome_expand {caller : String} {naming : Naming} {n : Nat}
    (h : (env.expand caller naming stack n constraints).outcome = .error e) :
    ∃ places, env.FirstFailsAt stack constraints places e := by
  induction caller, naming, stack, n, constraints using expand.induct env with
  | case1 caller naming stack n =>
    rw [expand] at h
    cases h
  | case2 caller naming stack n v rest ih =>
    rw [expand, Report.outcome_bind_eq_error] at h
    rcases h with htail | ⟨p, -, h⟩
    · obtain ⟨places, hfirst⟩ := ih htail
      exact hfirst.cons fun _ _ => not_failsAt_holds
    · cases h
  | case3 caller naming stack n function result operands rest hsummary ih =>
    rw [outcome_expand_unknown hsummary] at h
    obtain ⟨places, hfirst⟩ := ih h
    exact hfirst.cons fun _ _ => not_failsAt_passed (.inl hsummary)
  | case4 caller naming stack n function result operands rest callee hsummary hstack ih =>
    rw [outcome_expand_recursive hstack] at h
    obtain ⟨places, hfirst⟩ := ih h
    exact hfirst.cons fun _ _ => not_failsAt_passed (.inr hstack)
  | case5 caller naming stack n function result operands rest callee hsummary hstack hlen =>
    rw [outcome_expand_mismatch hsummary hstack hlen] at h
    cases h
    refine ⟨[0], .here rfl hsummary hstack hlen, fun places' e' hfails => ?_⟩
    cases places' with
    | nil => exact absurd hfails not_failsAt_nil_places
    | cons place' places' => simp [List.cons_lt_cons_iff]
  | case6 caller naming stack n function _ _ rest callee hsummary hstack hlen _ _ ihbody ihtail
  | case7 caller naming stack n function _ _ rest callee hsummary hstack hlen _ _ ihbody ihtail =>
    have hlen := Decidable.not_not.1 hlen
    rw [outcome_expand_filled hsummary hstack hlen, Report.outcome_bind_eq_error] at h
    rcases h with hbody | ⟨⟨inner, m⟩, hbody, h⟩
    · -- The body fails first: every other failure is in it, or at a later constraint.
      obtain ⟨places, hfirst⟩ := ihbody hbody
      refine ⟨0 :: places, .inside rfl hsummary hstack hlen hfirst.fails,
        fun places' e' hfails => ?_⟩
      cases places' with
      | nil => exact absurd hfails not_failsAt_nil_places
      | cons place' places' =>
        cases place' with
        | zero =>
          rw [failsAt_filled_iff hsummary hstack hlen] at hfails
          simpa [List.cons_lt_cons_iff] using hfirst.first places' e' hfails
        | succ place' => simp [List.cons_lt_cons_iff]
    · rcases Report.outcome_bind_eq_error.1 h with htail | ⟨p, -, h⟩
      · obtain ⟨places, hfirst⟩ := ihtail m htail
        refine hfirst.cons fun places e => ?_
        rw [failsAt_filled_iff hsummary hstack hlen]
        exact (expands_of_outcome_expand hbody).not_failsAt places e
      · cases h

/-- Filling in fails with the error of the first failure. -/
theorem outcome_expand_eq_error_iff {caller : String} {naming : Naming} {n : Nat} :
    (env.expand caller naming stack n constraints).outcome = .error e ↔
      ∃ places, env.FirstFailsAt stack constraints places e := by
  constructor
  · exact exists_first_of_outcome_expand
  · rintro ⟨places, hfirst⟩
    cases houtcome : (env.expand caller naming stack n constraints).outcome with
    | ok r =>
      obtain ⟨facts, m⟩ := r
      have hexpands := expands_of_outcome_expand houtcome
      exact absurd hfirst.fails (hexpands.not_failsAt places e)
    | error e' =>
      obtain ⟨places', hfirst'⟩ := exists_first_of_outcome_expand houtcome
      rw [hfirst.unique hfirst']

/-! ## Failures are routes -/

/-- What is met with functions `below` on the stack, and then `function`, is a route from `function`
that keeps off those below. -/
theorem FailsAt.exists_misroute (below : List String) {function : String} {s : Summary}
    (hs : env.summary? function = some s)
    (h : env.FailsAt (below ++ [function]) s.constraints places e) :
    ∃ route callee expected got, route.map Prod.snd = places ∧
      e = .arityMismatch callee expected got ∧ env.Misroute function route callee expected got ∧
      ∀ g ∈ callee :: (route.map Prod.fst).tail, g ∉ below := by
  induction places generalizing below function s with
  | nil => exact absurd h not_failsAt_nil_places
  | cons place places ih =>
    cases h with
    | @here _ _ _ g result operands t hcall hsummary hstack hlen =>
      rw [List.mem_append, not_or, List.mem_singleton] at hstack
      refine ⟨[(function, place)], g, _, _, rfl, rfl, ?_, by simpa using hstack.1⟩
      exact {
        starts := rfl
        distinct := by simp
        fits := .singleton _
        ends := ⟨_, rfl, s, t, result, operands, hs, hcall, hsummary, rfl, rfl⟩
        leaves := by simpa using hstack.2
        misfit := hlen }
    | @inside _ _ _ _ g result operands t _ hcall hsummary hstack hlen body =>
      obtain ⟨route, callee, expected, got, hplaces, he, hroute, hoff⟩ := ih _ hsummary body
      cases route with
      | nil => exact absurd hroute.starts (by simp)
      | cons first route =>
        have hfirst : first.1 = g := by simpa using hroute.starts
        -- None of the functions after this one is this one or below it.
        have hafter : ∀ f ∈ callee :: (first :: route).map Prod.fst, f ∉ below ++ [function] := by
          intro f hf
          simp only [List.map_cons, List.mem_cons, hfirst] at hf
          rcases hf with rfl | rfl | hf
          · exact hoff f List.mem_cons_self
          · exact hstack
          · exact hoff f (List.mem_cons_of_mem _ hf)
        have hapart : ∀ f ∈ callee :: (first :: route).map Prod.fst, f ∉ below ∧ f ≠ function := by
          simpa only [List.mem_append, List.mem_singleton, not_or] using hafter
        refine ⟨(function, place) :: first :: route, callee, expected, got, by simp [← hplaces], he,
          ?_, fun f hf => (hapart f hf).1⟩
        have hcalls : env.CallsAt (function, place) first.1 t.params.length t.params.length := by
          rw [hfirst]
          exact ⟨s, t, result, operands, hs, hcall, hsummary, rfl, hlen.symm⟩
        exact {
          starts := rfl
          distinct := List.nodup_cons.2
            ⟨fun hmem => (hapart function (List.mem_cons_of_mem _ hmem)).2 rfl, hroute.distinct⟩
          fits := List.isChain_cons_cons.2 ⟨⟨_, hcalls⟩, hroute.fits⟩
          ends := hroute.ends
          leaves := List.not_mem_cons_of_ne_of_not_mem (hapart callee List.mem_cons_self).2
            hroute.leaves
          misfit := hroute.misfit }

/-- And every such route is met. -/
theorem Misroute.failsAt (below : List String) {function : String} {s : Summary}
    (hs : env.summary? function = some s) {route : List (String × Nat)} {callee : String}
    {expected got : Nat} (h : env.Misroute function route callee expected got)
    (hoff : ∀ g ∈ callee :: (route.map Prod.fst).tail, g ∉ below) :
    env.FailsAt (below ++ [function]) s.constraints (route.map Prod.snd)
      (.arityMismatch callee expected got) := by
  induction route generalizing below function s with
  | nil => exact absurd h.starts (by simp)
  | cons first route ih =>
    have hfirst : first.1 = function := by simpa using h.starts
    subst hfirst
    cases route with
    | nil =>
      obtain ⟨place, hplace, s', t, result, operands, hs', hcall, hsummary, rfl, rfl⟩ := h.ends
      cases hplace
      cases hs.symm.trans hs'
      have hleaves : callee ≠ first.1 := by simpa using h.leaves
      refine .here hcall hsummary ?_ h.misfit
      simpa [hleaves] using hoff callee List.mem_cons_self
    | cons second route =>
      obtain ⟨⟨n, s', t, result, operands, hs', hcall, hsummary, rfl, hlen⟩, hfits⟩ :=
        List.isChain_cons_cons.1 h.fits
      cases hs.symm.trans hs'
      obtain ⟨hnew, hdistinct⟩ := List.nodup_cons.1 h.distinct
      have hrest : env.Misroute second.1 (second :: route) callee expected got :=
        ⟨rfl, hdistinct, hfits, h.ends, List.not_mem_of_not_mem_cons h.leaves, h.misfit⟩
      have hapart : ∀ g ∈ callee :: (second :: route).map Prod.fst, g ∉ below ++ [first.1] := by
        intro g hg
        rw [List.mem_append, not_or, List.mem_singleton]
        refine ⟨hoff g hg, ?_⟩
        rcases List.mem_cons.1 hg with rfl | hg
        · exact List.ne_of_not_mem_cons h.leaves
        · exact fun heq => hnew (heq ▸ hg)
      have hsecond : second.1 ∉ below ++ [first.1] := hapart second.1 (by simp)
      refine .inside hcall hsummary hsecond hlen.symm (ih _ hsummary hrest fun g hg => ?_)
      rcases List.mem_cons.1 hg with rfl | hg
      · exact hapart g List.mem_cons_self
      · exact hapart g (List.mem_cons_of_mem _ (List.mem_of_mem_tail hg))

/-- Filling in the calls of a function meets the routes from it. -/
theorem failsAt_iff_exists_misroute {function : String} {s : Summary}
    (hs : env.summary? function = some s) :
    env.FailsAt [function] s.constraints places e ↔
      ∃ route callee expected got, route.map Prod.snd = places ∧
        e = .arityMismatch callee expected got ∧
        env.Misroute function route callee expected got := by
  constructor
  · intro h
    obtain ⟨route, callee, expected, got, hplaces, he, hroute, -⟩ :=
      FailsAt.exists_misroute [] hs h
    exact ⟨route, callee, expected, got, hplaces, he, hroute⟩
  · rintro ⟨route, callee, expected, got, rfl, rfl, hroute⟩
    exact hroute.failsAt [] hs fun g _ => List.not_mem_nil

/-- A route starts at a function that has a summary. -/
theorem Misroute.exists_summary {function : String} {route : List (String × Nat)} {callee : String}
    {expected got : Nat} (h : env.Misroute function route callee expected got) :
    ∃ s, env.summary? function = some s := by
  cases route with
  | nil => exact absurd h.starts (by simp)
  | cons first route =>
    have hfirst : first.1 = function := by simpa using h.starts
    rw [← hfirst]
    cases route with
    | nil =>
      obtain ⟨place, hplace, s, _, _, _, hs, -⟩ := h.ends
      cases hplace
      exact ⟨s, hs⟩
    | cons second route =>
      obtain ⟨⟨_, s, _, _, _, hs, -⟩, -⟩ := List.isChain_cons_cons.1 h.fits
      exact ⟨s, hs⟩

/-! ## Main result -/

/-- A function is answered with an error just if a call fails, and the error is that of the first
one. -/
theorem outcome_instantiate_eq_error_iff {function : String} {s : Summary}
    (hs : env.summary? function = some s) :
    (env.instantiate function).outcome = .error e ↔
      ∃ places, env.FirstFailsAt [function] s.constraints places e := by
  simp only [instantiate, hs]
  rw [Report.outcome_bind_eq_error, outcome_expand_eq_error_iff]
  refine or_iff_left ?_
  rintro ⟨p, -, h⟩
  cases h

/-- The route that is met first. -/
theorem exists_firstFailsAt_iff {function : String} {s : Summary}
    (hs : env.summary? function = some s) {callee : String} {expected got : Nat} :
    (∃ places, env.FirstFailsAt [function] s.constraints places
      (.arityMismatch callee expected got)) ↔
    ∃ route, env.Misroute function route callee expected got ∧
      ∀ route' callee' expected' got', env.Misroute function route' callee' expected' got' →
        ¬route'.map Prod.snd < route.map Prod.snd := by
  constructor
  · rintro ⟨places, hfails, hfirst⟩
    obtain ⟨route, _, _, _, rfl, he, hroute⟩ := (failsAt_iff_exists_misroute hs).1 hfails
    cases he
    refine ⟨route, hroute, fun route' callee' expected' got' hroute' => ?_⟩
    exact hfirst _ _ ((failsAt_iff_exists_misroute hs).2 ⟨route', _, _, _, rfl, rfl, hroute'⟩)
  · rintro ⟨route, hroute, hfirst⟩
    refine ⟨route.map Prod.snd, ?_, fun places' e' hfails => ?_⟩
    · exact (failsAt_iff_exists_misroute hs).2 ⟨route, _, _, _, rfl, rfl, hroute⟩
    · obtain ⟨route', _, _, _, rfl, -, hroute'⟩ := (failsAt_iff_exists_misroute hs).1 hfails
      exact hfirst route' _ _ _ hroute'

/-- If the facts of a function could be given, no route from it leads to a call with the wrong
number of operands. -/
theorem not_misroute_of_outcome_instantiate {function : String} {facts : List Value}
    (h : (env.instantiate function).outcome = .ok facts) {route : List (String × Nat)}
    {callee : String} {expected got : Nat} : ¬env.Misroute function route callee expected got := by
  intro hroute
  obtain ⟨s, m, hs, hexpands⟩ := expands_of_outcome_instantiate h
  have hfails := (failsAt_iff_exists_misroute hs).2 ⟨route, _, _, _, rfl, rfl, hroute⟩
  exact hexpands.not_failsAt _ _ hfails

/-- **Filling in fails exactly when it must.** It is the function that is unknown if and only if
that has no summary; it is a wrong number of operands if and only if some route leads to one; and
what is reported then is the call at the end of the route that comes first in the order of
places. -/
theorem instantiate_fails_iff (env : Environment) (function : String) :
    (∀ unknown, (env.instantiate function).outcome = .error (.unknownFunction unknown) ↔
      unknown = function ∧ env.summary? function = none) ∧
    ((∃ callee expected got,
        (env.instantiate function).outcome = .error (.arityMismatch callee expected got)) ↔
      ∃ route callee expected got, env.Misroute function route callee expected got) ∧
    ∀ callee expected got,
      (env.instantiate function).outcome = .error (.arityMismatch callee expected got) ↔
      ∃ route, env.Misroute function route callee expected got ∧
        ∀ route' callee' expected' got', env.Misroute function route' callee' expected' got' →
          ¬route'.map Prod.snd < route.map Prod.snd := by
  cases hs : env.summary? function with
  | none =>
    have houtcome : (env.instantiate function).outcome = .error (.unknownFunction function) := by
      simp only [instantiate, hs]
      rfl
    have hnone : ∀ {route callee expected got},
        ¬env.Misroute function route callee expected got := by
      intro route callee expected got hroute
      obtain ⟨s, hsome⟩ := hroute.exists_summary
      rw [hs] at hsome
      cases hsome
    simp [houtcome, hnone, eq_comm]
  | some s =>
    have hmismatch : ∀ callee expected got,
        (env.instantiate function).outcome = .error (.arityMismatch callee expected got) ↔
        ∃ route, env.Misroute function route callee expected got ∧
          ∀ route' callee' expected' got', env.Misroute function route' callee' expected' got' →
            ¬route'.map Prod.snd < route.map Prod.snd := by
      intro callee expected got
      rw [outcome_instantiate_eq_error_iff hs, exists_firstFailsAt_iff hs]
    refine ⟨fun unknown => ?_, ⟨?_, ?_⟩, hmismatch⟩
    · refine ⟨fun h => ?_, fun h => absurd h.2 (by simp)⟩
      obtain ⟨_, _, _, he⟩ := arityMismatch_of_outcome_instantiate hs h
      cases he
    · rintro ⟨callee, expected, got, h⟩
      obtain ⟨route, hroute, -⟩ := (hmismatch callee expected got).1 h
      exact ⟨route, callee, expected, got, hroute⟩
    · rintro ⟨route, callee, expected, got, hroute⟩
      cases houtcome : (env.instantiate function).outcome with
      | ok facts => exact absurd hroute (not_misroute_of_outcome_instantiate houtcome)
      | error e =>
        obtain ⟨_, _, _, rfl⟩ := arityMismatch_of_outcome_instantiate hs houtcome
        exact ⟨_, _, _, rfl⟩

end Environment

end TensorShape
