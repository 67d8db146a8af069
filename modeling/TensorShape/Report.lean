import TensorShape.Event

/-!
# TensorShape.Report

A computation that logs events as it goes and may stop with an error. The events logged before an
error are kept. `outcome` forgets the log, and commutes with sequencing (`outcome_bind`), so what a
computation comes to can be reasoned about without it.
-/

namespace TensorShape

structure Report (ε α : Type) where
  events : List Event
  outcome : Except ε α

namespace Report

variable {ε α β : Type}

/-- Log an event. -/
def log (e : Event) : Report ε Unit := ⟨[e], .ok ()⟩

/-- Log a list of events. -/
def logAll (es : List Event) : Report ε Unit := ⟨es, .ok ()⟩

/-- Stop with an error. -/
def fail (e : ε) : Report ε α := ⟨[], .error e⟩

def ofExcept (x : Except ε α) : Report ε α := ⟨[], x⟩

def bind (x : Report ε α) (f : α → Report ε β) : Report ε β :=
  match x.outcome with
  | .error e => ⟨x.events, .error e⟩
  | .ok a =>
    let y := f a
    ⟨x.events ++ y.events, y.outcome⟩

instance : Monad (Report ε) where
  pure a := ⟨[], .ok a⟩
  bind := bind

/-- Change the error of a computation. -/
def mapError {δ : Type} (f : ε → δ) (x : Report ε α) : Report δ α := ⟨x.events, x.outcome.mapError f⟩

@[simp] theorem outcome_pure (a : α) : (pure a : Report ε α).outcome = .ok a := rfl

@[simp] theorem outcome_log (e : Event) : (log e : Report ε Unit).outcome = .ok () := rfl

@[simp] theorem outcome_logAll (es : List Event) : (logAll es : Report ε Unit).outcome = .ok () := rfl

@[simp] theorem outcome_fail (e : ε) : (fail e : Report ε α).outcome = .error e := rfl

@[simp] theorem outcome_ofExcept (x : Except ε α) : (ofExcept x).outcome = x := rfl

/-- Sequencing, seen through the outcome, is sequencing of outcomes. -/
@[simp] theorem outcome_bind (x : Report ε α) (f : α → Report ε β) :
    (x >>= f).outcome = x.outcome >>= fun a => (f a).outcome := by
  change (bind x f).outcome = _
  unfold bind
  cases x.outcome <;> rfl

/-- A sequence succeeds if its first part does and then its second part. -/
theorem outcome_bind_eq_ok {x : Report ε α} {f : α → Report ε β} {b : β} :
    (x >>= f).outcome = .ok b ↔ ∃ a, x.outcome = .ok a ∧ (f a).outcome = .ok b := by
  rw [outcome_bind]
  cases x.outcome with
  | error e =>
    constructor
    · intro h
      cases h
    · rintro ⟨a, ha, -⟩
      cases ha
  | ok a =>
    constructor
    · intro h
      exact ⟨a, rfl, h⟩
    · rintro ⟨a', ha, h⟩
      cases ha
      exact h

/-- A sequence fails if its first part does, or else its second part. -/
theorem outcome_bind_eq_error {x : Report ε α} {f : α → Report ε β} {e : ε} :
    (x >>= f).outcome = .error e ↔
      x.outcome = .error e ∨ ∃ a, x.outcome = .ok a ∧ (f a).outcome = .error e := by
  rw [outcome_bind]
  cases x.outcome with
  | error e' => simp [Bind.bind, Except.bind]
  | ok a => simp [Bind.bind, Except.bind]

@[simp] theorem outcome_mapError {δ : Type} (f : ε → δ) (x : Report ε α) :
    (x.mapError f).outcome = x.outcome.mapError f := rfl

/-- To change the error of a computation that succeeds changes nothing. -/
theorem outcome_mapError_eq_ok {δ : Type} {f : ε → δ} {x : Report ε α} {a : α} :
    (x.mapError f).outcome = .ok a ↔ x.outcome = .ok a := by
  rw [outcome_mapError]
  constructor
  · intro h
    cases hx : x.outcome with
    | error e =>
      rw [hx] at h
      cases h
    | ok b =>
      rw [hx] at h
      cases h
      rfl
  · intro h
    rw [h]
    rfl

instance : LawfulMonad (Report ε) := LawfulMonad.mk' (Report ε)
  (fun x => by
    obtain ⟨es, o⟩ := x
    cases o <;> simp [Functor.map, bind])
  (fun _ _ => by simp [Bind.bind, bind, pure])
  (fun x f g => by
    obtain ⟨es, o⟩ := x
    cases o with
    | error e => rfl
    | ok a =>
      simp only [Bind.bind, bind]
      cases (f a).outcome <;> simp)

/-- A list of computations succeeds if each of them does. -/
theorem outcome_mapM_eq_ok {l : List α} {f : α → Report ε β} {bs : List β} :
    (l.mapM f).outcome = .ok bs ↔ (l.map fun a => (f a).outcome.toOption) = bs.map some := by
  induction l generalizing bs with
  | nil => cases bs <;> simp
  | cons a l ih =>
    rw [List.mapM_cons, outcome_bind_eq_ok, List.map_cons]
    simp only [outcome_bind_eq_ok, ih, outcome_pure, Except.ok.injEq]
    constructor
    · rintro ⟨b, hb, bs', hbs', rfl⟩
      rw [hb, hbs']
      rfl
    · intro h
      obtain ⟨b, bs', rfl, hb, hbs'⟩ := List.map_eq_cons_iff.1 h.symm
      refine ⟨b, ?_, bs', hbs'.symm, rfl⟩
      cases hout : (f a).outcome with
      | error e =>
        rw [hout] at hb
        cases hb
      | ok b' =>
        rw [hout] at hb
        cases hb
        rfl

theorem exists_of_outcome_mapM_eq_ok {l : List α} {f : α → Report ε β} {bs : List β}
    (h : (l.mapM f).outcome = .ok bs) {a : α} (ha : a ∈ l) : ∃ b, (f a).outcome = .ok b := by
  rw [outcome_mapM_eq_ok] at h
  have hmem : (f a).outcome.toOption ∈ l.map fun a => (f a).outcome.toOption :=
    List.mem_map.2 ⟨a, ha, rfl⟩
  rw [h, List.mem_map] at hmem
  obtain ⟨b, -, hb⟩ := hmem
  cases hout : (f a).outcome with
  | error e =>
    rw [hout] at hb
    cases hb
  | ok b' => exact ⟨b', rfl⟩

/-- A list of computations that fails does so at the first of them that fails. -/
theorem exists_of_outcome_mapM_eq_error {l : List α} {f : α → Report ε β} {e : ε}
    (h : (l.mapM f).outcome = .error e) :
    ∃ front a back, l = front ++ a :: back ∧ (∀ x ∈ front, ∃ b, (f x).outcome = .ok b) ∧
      (f a).outcome = .error e := by
  induction l with
  | nil => cases h
  | cons a l ih =>
    rw [List.mapM_cons, outcome_bind_eq_error] at h
    rcases h with hfirst | ⟨b, hb, hrest⟩
    · exact ⟨[], a, l, rfl, fun x hx => absurd hx List.not_mem_nil, hfirst⟩
    · rw [outcome_bind_eq_error] at hrest
      rcases hrest with hrest | ⟨bs, -, hpure⟩
      · obtain ⟨front, a', back, rfl, hfront, herror⟩ := ih hrest
        exact ⟨a :: front, a', back, rfl, List.forall_mem_cons.2 ⟨⟨b, hb⟩, hfront⟩, herror⟩
      · cases hpure

end Report

end TensorShape
