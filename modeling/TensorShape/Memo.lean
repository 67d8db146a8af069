import TensorShape.Table

/-!
# TensorShape.Memo

A table whose lookups never fail (`DefaultMap`): the value of a missing key is made on first access
and remembered. Making a value may depend on what was made before, so the maker carries a state.
-/

namespace TensorShape

structure Memo (σ κ α : Type) [KeyOrder κ] where
  /-- Make the value of a key that is not there. -/
  make : σ → κ → α × σ
  state : σ
  entries : Table κ α

namespace Memo

variable {σ κ α : Type} [KeyOrder κ] [DecidableEq κ]

def start (make : σ → κ → α × σ) (state : σ) : Memo σ κ α := ⟨make, state, ∅⟩

/-- The value of a key, if it is there. Nothing is made. -/
def lookup (m : Memo σ κ α) (k : κ) : Option α := m.entries.get? k

/-- The value of a key, made and kept if it is not there. -/
def get (m : Memo σ κ α) (k : κ) : α × Memo σ κ α :=
  match m.lookup k with
  | some a => (a, m)
  | none =>
    let (a, state) := m.make m.state k
    (a, { m with state := state, entries := m.entries.insert k a })

/-- Store a value, and tell what was there. -/
def insert (m : Memo σ κ α) (k : κ) (a : α) : Option α × Memo σ κ α :=
  (m.lookup k, { m with entries := m.entries.insert k a })

/-- Change the value of a key in place, made first if it is not there. -/
def modify (m : Memo σ κ α) (k : κ) (f : α → α) : α × Memo σ κ α :=
  let (a, m) := m.get k
  (f a, { m with entries := m.entries.insert k (f a) })

def size (m : Memo σ κ α) : Nat := m.entries.size

@[simp] theorem lookup_get (m : Memo σ κ α) (k : κ) : (m.get k).2.lookup k = some (m.get k).1 := by
  unfold get
  split
  · assumption
  · simp [lookup]

@[simp] theorem lookup_insert (m : Memo σ κ α) (k : κ) (a : α) (k' : κ) :
    (m.insert k a).2.lookup k' = if k = k' then some a else m.lookup k' := by
  simp [insert, lookup]

end Memo

end TensorShape
