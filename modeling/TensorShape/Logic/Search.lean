import TensorShape.Logic.System

/-!
# TensorShape.Logic.Search

Satisfiability of Boolean combinations of linear conditions.

The search keeps a system of linear constraints and the conditions that are still open. Conditions
that have one reading go into the system at once; one that has several, such as a disjunction, is put
off. When only such conditions are left the system is solved. If its solution meets them all, it is a
solution of the whole; if not, the first condition it misses is read each way in turn.
-/

namespace TensorShape

inductive Condition where
  | const (b : Bool)
  /-- The expression is zero. -/
  | zero (e : Linear)
  /-- The expression is not negative. -/
  | nonneg (e : Linear)
  | not (c : Condition)
  | and (c d : Condition)
  | or (c d : Condition)
  | iff (c d : Condition)
deriving Inhabited

namespace Condition

def eval (ρ : Assignment) : Condition → Bool
  | .const b => b
  | .zero e => e.eval ρ = 0
  | .nonneg e => 0 ≤ e.eval ρ
  | .not c => !c.eval ρ
  | .and c d => c.eval ρ && d.eval ρ
  | .or c d => c.eval ρ || d.eval ρ
  | .iff c d => c.eval ρ == d.eval ρ

/-- A bound on the number of times a condition can be taken apart. -/
def weight : Condition → Nat
  | .const _ => 1
  | .zero _ => 2
  | .nonneg _ => 1
  | .not c => c.weight + 1
  | .and c d | .or c d | .iff c d => c.weight + d.weight + 1

end Condition

/-- A condition with the truth value it is to have. -/
structure Demand where
  truth : Bool
  condition : Condition
deriving Inhabited

namespace Demand

def holds (ρ : Assignment) (c : Demand) : Bool := c.condition.eval ρ == c.truth

def weight (c : Demand) : Nat := c.condition.weight

def weights : List Demand → Nat
  | [] => 0
  | c :: l => c.weight + weights l

/-- What a demand comes to, seen one level deep. Of two ways to meet it, the second excludes the
first. -/
inductive Reading where
  | settled (b : Bool)
  | zero (e : Linear)
  | nonneg (e : Linear)
  /-- All of these. -/
  | all (l : List Demand)
  /-- One of these two, all of its demands. -/
  | either (l r : List Demand)

def reading (c : Demand) : Reading :=
  match c.condition, c.truth with
  | .const b, t => .settled (b == t)
  | .zero e, true => .zero e
  | .zero e, false => .either [⟨true, .nonneg (e.addConst (-1))⟩] [⟨true, .nonneg (e.neg.addConst (-1))⟩]
  | .nonneg e, true => .nonneg e
  | .nonneg e, false => .nonneg (e.neg.addConst (-1))
  | .not d, t => .all [⟨!t, d⟩]
  | .and d e, true => .all [⟨true, d⟩, ⟨true, e⟩]
  | .and d e, false => .either [⟨false, d⟩] [⟨true, d⟩, ⟨false, e⟩]
  | .or d e, true => .either [⟨true, d⟩] [⟨false, d⟩, ⟨true, e⟩]
  | .or d e, false => .all [⟨false, d⟩, ⟨false, e⟩]
  | .iff d e, t => .either [⟨true, d⟩, ⟨t, e⟩] [⟨false, d⟩, ⟨!t, e⟩]

/-- A demand is heavier than all it is taken apart into. -/
theorem weights_lt_of_reading_all {c : Demand} {l : List Demand} (h : c.reading = .all l) :
    weights l < c.weight := by
  obtain ⟨t, d⟩ := c
  cases d <;> cases t <;> simp [reading] at h <;> subst h <;>
    simp only [weights, weight, Condition.weight] <;> omega

theorem weights_lt_of_reading_either {c : Demand} {l r : List Demand} (h : c.reading = .either l r) :
    weights l < c.weight ∧ weights r < c.weight := by
  obtain ⟨t, d⟩ := c
  cases d <;> cases t <;> simp [reading] at h <;> obtain ⟨rfl, rfl⟩ := h <;>
    simp only [weights, weight, Condition.weight] <;> omega

theorem weight_pos (c : Demand) : 0 < c.weight := by
  obtain ⟨t, d⟩ := c
  cases d <;> simp [weight, Condition.weight]

@[simp] theorem weights_nil : weights [] = 0 := rfl

@[simp] theorem weights_cons (c : Demand) (l : List Demand) :
    weights (c :: l) = c.weight + weights l := rfl

@[simp] theorem weights_append (l r : List Demand) : weights (l ++ r) = weights l + weights r := by
  induction l with
  | nil => simp
  | cons c l ih => simp [ih, Nat.add_assoc]

end Demand

/-! ## Demands with two readings -/

/-- A demand that may be met in two ways. -/
structure Choice where
  demand : Demand
  left : List Demand
  right : List Demand
  left_lt : Demand.weights left < demand.weight
  right_lt : Demand.weights right < demand.weight

namespace Choice

def weights : List Choice → Nat
  | [] => 0
  | c :: l => c.demand.weight + weights l

/-- Take out the first choice that an assignment does not meet. -/
def takeMissed (ρ : Assignment) : List Choice → Option (Choice × List Choice)
  | [] => none
  | c :: rest =>
    if c.demand.holds ρ then (takeMissed ρ rest).map fun p => (p.1, c :: p.2)
    else some (c, rest)

theorem weights_takeMissed {ρ : Assignment} {l l' : List Choice} {c : Choice}
    (h : takeMissed ρ l = some (c, l')) : weights l = c.demand.weight + weights l' := by
  induction l generalizing l' with
  | nil => simp [takeMissed] at h
  | cons d rest ih =>
    simp only [takeMissed] at h
    split at h
    · obtain ⟨⟨c', l''⟩, hp, heq⟩ := Option.map_eq_some_iff.1 h
      simp only [Prod.mk.injEq] at heq
      obtain ⟨rfl, rfl⟩ := heq
      have := ih hp
      simp only [weights] at this ⊢
      omega
    · simp only [Option.some.injEq, Prod.mk.injEq] at h
      obtain ⟨rfl, rfl⟩ := h
      simp [weights]

end Choice

/-! ## The search -/

/-- An assignment for `n` unknowns that solves the system and meets all demands and choices. -/
def search (n : Nat) (s : System) (choices : List Choice) (demands : List Demand) :
    Option Assignment :=
  match demands with
  | c :: rest =>
    have := c.weight_pos
    match h : c.reading with
    | .settled true => search n s choices rest
    | .settled false => none
    | .zero e => search n { s with zeros := e :: s.zeros } choices rest
    | .nonneg e => search n { s with bounds := e :: s.bounds } choices rest
    | .all l =>
      have := Demand.weights_lt_of_reading_all h
      search n s choices (l ++ rest)
    | .either l r =>
      have hw := Demand.weights_lt_of_reading_either h
      search n s (⟨c, l, r, hw.1, hw.2⟩ :: choices) rest
  | [] =>
    match s.solve n with
    | none => none
    | some ρ =>
      match h : Choice.takeMissed ρ choices with
      | none => some ρ
      | some (c, rest) =>
        have := Choice.weights_takeMissed h
        have := c.left_lt
        have := c.right_lt
        match search n s rest c.left with
        | some ρ => some ρ
        | none => search n s rest c.right
termination_by (Choice.weights choices + Demand.weights demands, Demand.weights demands)
decreasing_by
  all_goals simp_wf
  all_goals simp only [Prod.lex_def, Choice.weights] at *
  all_goals omega

end TensorShape
