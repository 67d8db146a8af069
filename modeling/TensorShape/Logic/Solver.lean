import TensorShape.Logic.CheckResult
import TensorShape.Logic.Flattening
import TensorShape.Word

/-!
# TensorShape.Logic.Solver

Deciding whether formulas have a model.

A `Solver` answers for a list of formulas; `Solver.Decides` says that its answers are right, which is
what the rest of the library relies on. `Solver.linear` is a solver for linear integer arithmetic
with sequences: it flattens, searches, and hands out a model only after evaluating the formulas in
it.
-/

namespace TensorShape

/-- What a solver says of formulas. That they have a model does not mean that it hands one out, and
it may give up without a reason. -/
inductive Answer where
  | sat (model? : Option Model)
  | unsat
  | unknown (reason? : Option String)

def Answer.result : Answer → CheckResult
  | .sat _ => .sat
  | .unsat => .unsat
  | .unknown _ => .unknown

abbrev Solver := List Formula → Answer

/-- Every answer is definite and right. -/
structure Solver.Decides (solver : Solver) : Prop where
  sat : ∀ {fs model?}, solver fs = .sat model? → ∃ m : Model, m.Satisfies fs
  unsat : ∀ {fs}, solver fs = .unsat → ∀ m : Model, ¬m.Satisfies fs
  definite : ∀ fs reason?, solver fs ≠ .unknown reason?

/-- Formulas that have a model are answered with one. -/
def Solver.GivesModels (solver : Solver) : Prop :=
  ∀ {fs model?}, solver fs = .sat model? → ∃ m : Model, model? = some m ∧ m.Satisfies fs

/-- The solver for linear integer arithmetic. -/
def Solver.linear : Solver := fun fs =>
  match (Flatten.formulas fs).run [] with
  | none => .unknown (some "nonlinear arithmetic")
  | some (condition, atoms) =>
    let demands := (condition :: atomConditions atoms).map fun c => (⟨true, c⟩ : Demand)
    match search atoms.length .empty [] demands with
    | none => .unsat
    | some ρ =>
      let m := Model.ofAtoms atoms ρ
      if m.Satisfies fs then .sat (some m) else .unknown (some "no model found")

/-- Every answer that there is a model comes with one that was tried. -/
theorem Solver.linear_givesModels : Solver.linear.GivesModels := by
  intro fs model? h
  simp only [Solver.linear] at h
  split at h
  · cases h
  · split at h
    · cases h
    · split at h
      · cases h
        exact ⟨_, rfl, by assumption⟩
      · cases h

/-! ## Forced values -/

/-- The value that a term has in every model of the formulas, if there is just one; `m` is one of
their models. -/
def Solver.forced? (solver : Solver) (fs : List Formula) (m : Model) (e : Term) : Option Int :=
  let v := e.eval m
  match solver (fs ++ [.not (.eq e (.lit v))]) with
  | .unsat => some v
  | _ => none

/-- Has the term a value in the range of 64-bit words in some model of the formulas? `m` is one of
their models. -/
def Solver.canFit (solver : Solver) (fs : List Formula) (m : Model) (e : Term) : Bool :=
  if (word? (e.eval m)).isSome then true
  else
    match solver (fs ++ [.gt e (.lit (-9223372036854775809)), .gt (.lit 9223372036854775808) e]) with
    | .sat _ => true
    | _ => false

end TensorShape
