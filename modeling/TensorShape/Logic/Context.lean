import TensorShape.Logic.Formula

/-!
# TensorShape.Logic.Context

Expressions belong to the context they were made in, and only expressions of one context can be
combined. An `Owned` expression (`TypedExpr`) knows its context.
-/

namespace TensorShape

/-- Where expressions are made. -/
structure Context where
  id : Nat
  /-- Does a check keep a proof that there is no model? -/
  proofs : Bool
deriving DecidableEq, Inhabited

/-- An attempt to combine expressions of two contexts. -/
structure ForeignExpression where
deriving DecidableEq

def ForeignExpression.message (_ : ForeignExpression) : String :=
  "expressions from different Z3 contexts cannot be combined"

/-- An expression and the number of its context. -/
structure Owned (α : Type) where
  home : Nat
  node : α
deriving DecidableEq

namespace Owned

variable {α β γ : Type}

def map (f : α → β) (x : Owned α) : Owned β := ⟨x.home, f x.node⟩

/-- The expression itself, for use in the given context. -/
def usedIn (x : Owned α) (home : Nat) : Except ForeignExpression α :=
  if x.home = home then .ok x.node else .error ⟨⟩

def combine (f : α → β → γ) (x : Owned α) (y : Owned β) : Except ForeignExpression (Owned γ) :=
  (y.usedIn x.home).map fun node => ⟨x.home, f x.node node⟩

/-- The conjunction, made in the given context, of formulas that must all be of it. -/
def conj (home : Nat) (items : List (Owned Formula)) : Except ForeignExpression (Owned Formula) := do
  return ⟨home, .conj (← items.mapM (·.usedIn home))⟩

end Owned

end TensorShape
