import Mathlib.Data.List.Perm.Basic
import TensorShape.Memo
import TensorShape.Proofs.Lists
import TensorShape.Proofs.Tables

/-!
# TensorShape.Proofs.MemoHistory

A memo table over any history.

A history lists what was done to a table, the latest first. Three things can be read off a history
without the table: the keys that were got or inserted, in the order of time (`accessed`), those among
them of which the maker is asked, because they were got before they were inserted (`requested`), and
what was stored (`stores`). The table has exactly these:

* `Memo.lookup_after`: a lookup finds what was stored last;
* `Memo.state_after`: the maker was called for the requested keys, in their order, and for no other;
* `Memo.history_exact`: both, with what `get` returns and the number of entries.
-/

namespace TensorShape

namespace Memo

variable {σ κ α : Type}

/-! ## Makers -/

/-- The state of a maker that was called for some keys, one after the other. -/
def called (make : σ → κ → α × σ) (state : σ) (keys : List κ) : σ :=
  keys.foldl (fun s k => (make s k).2) state

/-- A maker that writes down the keys it is called for. -/
def recording (make : σ → κ → α × σ) (s : σ × List κ) (k : κ) : α × (σ × List κ) :=
  ((make s.1 k).1, (make s.1 k).2, s.2 ++ [k])

theorem called_concat (make : σ → κ → α × σ) (state : σ) (keys : List κ) (k : κ) :
    called make state (keys ++ [k]) = (make (called make state keys) k).2 := by
  simp [called]

/-- What a maker writes down is what it was called for. -/
theorem called_recording (make : σ → κ → α × σ) (state : σ) (keys : List κ) :
    called (recording make) (state, []) keys = (called make state keys, keys) := by
  induction keys using List.reverseRecOn with
  | nil => rfl
  | append_singleton keys k ih => rw [called_concat, called_concat, ih, recording]

/-! ## Histories -/

/-- Something done to a table. -/
inductive Op (κ α : Type) where
  | get (k : κ)
  /-- Get the value of a key and write another one in its place. -/
  | modify (k : κ) (f : α → α)
  | insert (k : κ) (a : α)
  | lookup (k : κ)

namespace Op

/-- The key that is got or inserted. -/
def key? : Op κ α → Option κ
  | .get k => some k
  | .modify k _ => some k
  | .insert k _ => some k
  | .lookup _ => none

def isGet : Op κ α → Bool
  | .get _ => true
  | .modify .. => true
  | .insert .. => false
  | .lookup _ => false

end Op

/-- The keys that were got or inserted, in the order of time. -/
def accessed (past : List (Op κ α)) : List κ := past.reverse.filterMap Op.key?

variable [DecidableEq κ]

/-- The first time that a key was got or inserted. -/
def firstAccess? (past : List (Op κ α)) (k : κ) : Option (Op κ α) :=
  past.reverse.find? fun op => op.key? = some k

/-- The keys whose first access was a get, each once, in the order of these accesses. -/
def requested (past : List (Op κ α)) : List κ :=
  (accessed past).eraseDups.filter fun k => (firstAccess? past k).any Op.isGet

/-- What was stored last under a key, in a list that has the latest first. -/
def latest (k : κ) (stores : List (κ × α)) : Option α :=
  (stores.find? fun p => p.1 = k).map Prod.snd

/-- What a get adds to what was stored: the value that is made, if the key is not there. -/
def withGot (make : σ → κ → α × σ) (state : σ) (past : List (Op κ α)) (k : κ)
    (stores : List (κ × α)) : List (κ × α) :=
  if k ∈ accessed past then stores
  else (k, (make (called make state (requested past)) k).1) :: stores

/-- All that was stored, the latest first. -/
def stores (make : σ → κ → α × σ) (state : σ) : List (Op κ α) → List (κ × α)
  | [] => []
  | .get k :: past => withGot make state past k (stores make state past)
  | .modify k f :: past =>
    let got := withGot make state past k (stores make state past)
    ((latest k got).map fun a => (k, f a)).toList ++ got
  | .insert k a :: past => (k, a) :: stores make state past
  | .lookup _ :: past => stores make state past

section Runs

variable [KeyOrder κ]

/-- The table that an operation leaves. -/
def apply (m : Memo σ κ α) : Op κ α → Memo σ κ α
  | .get k => (m.get k).2
  | .modify k f => (m.modify k f).2
  | .insert k a => (m.insert k a).2
  | .lookup _ => m

/-- The table after a history. -/
def after (make : σ → κ → α × σ) (state : σ) : List (Op κ α) → Memo σ κ α
  | [] => start make state
  | op :: past => (after make state past).apply op

end Runs

variable {past : List (Op κ α)} {op : Op κ α} {k k' : κ}

/-! ## First accesses -/

omit [DecidableEq κ] in
theorem accessed_cons (op : Op κ α) (past : List (Op κ α)) :
    accessed (op :: past) = accessed past ++ op.key?.toList := by
  simp only [accessed, List.reverse_cons, List.filterMap_append]
  cases h : op.key? <;> simp [h]

omit [DecidableEq κ] in
theorem mem_accessed_cons :
    k ∈ accessed (op :: past) ↔ k ∈ accessed past ∨ op.key? = some k := by
  rw [accessed_cons, List.mem_append, Option.mem_toList]

theorem firstAccess?_cons (op : Op κ α) (past : List (Op κ α)) (k : κ) :
    firstAccess? (op :: past) k =
      (firstAccess? past k).or (if op.key? = some k then some op else none) := by
  simp [firstAccess?, List.find?_append, List.find?_singleton]

/-- A key has a first access if it was accessed. -/
theorem isSome_firstAccess?_iff :
    (firstAccess? past k).isSome = true ↔ k ∈ accessed past := by
  simp [firstAccess?, accessed]

/-- A later access is not the first one. -/
theorem firstAccess?_cons_of_mem (op : Op κ α) (h : k ∈ accessed past) :
    firstAccess? (op :: past) k = firstAccess? past k := by
  obtain ⟨first, hfirst⟩ := Option.isSome_iff_exists.1 (isSome_firstAccess?_iff.2 h)
  rw [firstAccess?_cons, hfirst, Option.some_or]

/-- An access to a key that was not accessed before is the first one. -/
theorem firstAccess?_cons_of_not_mem (hop : op.key? = some k) (h : k ∉ accessed past) :
    firstAccess? (op :: past) k = some op := by
  have hnone : firstAccess? past k = none := by
    rw [← Option.not_isSome_iff_eq_none, isSome_firstAccess?_iff]
    exact h
  rw [firstAccess?_cons, hnone, Option.none_or, if_pos hop]

/-- What comes later does not change whether a key was requested. -/
theorem filter_accessed_cons (op : Op κ α) (past : List (Op κ α)) :
    ((accessed past).eraseDups.filter fun k => (firstAccess? (op :: past) k).any Op.isGet) =
      requested past :=
  List.filter_congr fun _ hk => by rw [firstAccess?_cons_of_mem op (List.mem_eraseDups.1 hk)]

/-- An operation on a key that was accessed before, or on none, requests nothing. -/
theorem requested_cons_of_known (h : ∀ k, op.key? = some k → k ∈ accessed past) :
    requested (op :: past) = requested past := by
  rw [← filter_accessed_cons op past, requested, accessed_cons]
  cases hop : op.key? with
  | none => rw [Option.toList_none, List.append_nil]
  | some k => rw [Option.toList_some, eraseDups_concat_of_mem (h k hop)]

/-- The first operation on a key requests it, if it is a get. -/
theorem requested_cons_of_new (hop : op.key? = some k) (h : k ∉ accessed past) :
    requested (op :: past) = if op.isGet then requested past ++ [k] else requested past := by
  rw [← filter_accessed_cons op past, requested, accessed_cons, hop, Option.toList_some,
    eraseDups_concat_of_not_mem h, List.filter_append, List.filter_singleton,
    firstAccess?_cons_of_not_mem hop h, Option.any_some]
  cases op.isGet <;> simp

/-- Writing to what was got does not change what is requested. -/
theorem requested_modify (k : κ) (f : α → α) (past : List (Op κ α)) :
    requested (.modify k f :: past) = requested (.get k :: past) := by
  by_cases hk : k ∈ accessed past
  · rw [requested_cons_of_known (by simpa [Op.key?]), requested_cons_of_known (by simpa [Op.key?])]
  · rw [requested_cons_of_new rfl hk, requested_cons_of_new rfl hk]
    rfl

/-- To modify a value is to get it and then to store another one. -/
theorem stores_modify (make : σ → κ → α × σ) (state : σ) (k : κ) (f : α → α)
    (past : List (Op κ α)) :
    stores make state (.modify k f :: past) =
      ((latest k (stores make state (.get k :: past))).map fun a => (k, f a)).toList ++
        stores make state (.get k :: past) := rfl

/-- What was stored now hides what was stored under its key before. -/
theorem latest_cons (k : κ) (p : κ × α) (stores : List (κ × α)) :
    latest k (p :: stores) = if p.1 = k then some p.2 else latest k stores := by
  by_cases h : p.1 = k <;> simp [latest, h]

/-! ## One operation -/

variable [KeyOrder κ] {make : σ → κ → α × σ} {state : σ} {m : Memo σ κ α}

/-- A value that is there is handed out, and nothing changes. -/
theorem get_of_lookup {a : α} (h : m.lookup k = some a) : m.get k = (a, m) := by
  rw [get, h]

/-- A value that is not there is made, stored and handed out. -/
theorem get_of_lookup_none (h : m.lookup k = none) :
    m.get k = ((m.make m.state k).1,
      { m with state := (m.make m.state k).2,
               entries := m.entries.insert k (m.make m.state k).1 }) := by
  rw [get, h]

/-- After an insertion its key is there, and what was there still is. -/
theorem isSome_lookup_insert (m : Memo σ κ α) (k k' : κ) (a : α) :
    ((m.insert k a).2.lookup k').isSome = true ↔ (m.lookup k').isSome = true ∨ k = k' := by
  rw [lookup_insert]
  by_cases heq : k = k' <;> simp [heq]

/-- To write to what was got is to get it and to insert under its key. -/
theorem modify_eq_insert (m : Memo σ κ α) (k : κ) (f : α → α) :
    (m.modify k f).2 = ((m.get k).2.insert k (f (m.get k).1)).2 := rfl

/-- The table has what its history says. -/
structure Follows (make : σ → κ → α × σ) (state : σ) (past : List (Op κ α)) (m : Memo σ κ α) :
    Prop where
  make_eq : m.make = make
  state_eq : m.state = called make state (requested past)
  lookup_eq : ∀ k, m.lookup k = latest k (stores make state past)
  isSome_iff : ∀ k, (m.lookup k).isSome = true ↔ k ∈ accessed past

theorem follows_start (make : σ → κ → α × σ) (state : σ) :
    Follows make state [] (start make state) where
  make_eq := rfl
  state_eq := rfl
  lookup_eq _ := rfl
  isSome_iff k := by simp [lookup, start, accessed]

namespace Follows

/-- A key that is there was accessed before, so nothing is made and nothing stored. -/
theorem get_present (h : Follows make state past m) {a : α} (hk : m.lookup k = some a) :
    Follows make state (.get k :: past) (m.get k).2 := by
  have hmem : k ∈ accessed past := (h.isSome_iff k).1 (by simp [hk])
  have hstores : stores make state (.get k :: past) = stores make state past := if_pos hmem
  rw [get_of_lookup hk]
  refine ⟨h.make_eq, ?_, ?_, fun k' => ?_⟩
  · rw [requested_cons_of_known (by simpa [Op.key?]), h.state_eq]
  · rw [hstores]
    exact h.lookup_eq
  · rw [h.isSome_iff, mem_accessed_cons, Op.key?, Option.some_inj]
    exact ⟨.inl, fun hk' => hk'.elim id fun heq => heq ▸ hmem⟩

/-- A key that is not there was never accessed, so its value is made and stored. -/
theorem get_absent (h : Follows make state past m) (hk : m.lookup k = none) :
    Follows make state (.get k :: past) (m.get k).2 := by
  have hmem : k ∉ accessed past := fun hk' => by simpa [hk] using (h.isSome_iff k).2 hk'
  have hstores : stores make state (.get k :: past) =
      (k, (make (called make state (requested past)) k).1) :: stores make state past :=
    if_neg hmem
  rw [get_of_lookup_none hk, h.make_eq, h.state_eq]
  refine ⟨rfl, ?_, fun k' => ?_, fun k' => ?_⟩
  · rw [requested_cons_of_new rfl hmem, Op.isGet, if_pos rfl, called_concat]
  · rw [hstores, latest_cons, ← h.lookup_eq]
    exact m.entries.get?_insert k _ k'
  · rw [mem_accessed_cons, Op.key?, Option.some_inj, ← h.isSome_iff]
    exact m.isSome_lookup_insert k k' _

/-- A table that follows its history does so after a get. -/
theorem get (h : Follows make state past m) (k : κ) :
    Follows make state (.get k :: past) (m.get k).2 := by
  cases hk : m.lookup k with
  | none => exact h.get_absent hk
  | some a => exact h.get_present hk

theorem insert (h : Follows make state past m) (k : κ) (a : α) :
    Follows make state (.insert k a :: past) (m.insert k a).2 := by
  refine ⟨h.make_eq, ?_, fun k' => ?_, fun k' => ?_⟩
  · -- An insertion comes before any making of its key, and after one it changes nothing.
    have hrequested : requested (.insert k a :: past) = requested past := by
      by_cases hk : k ∈ accessed past
      · exact requested_cons_of_known (by simpa [Op.key?])
      · exact requested_cons_of_new rfl hk
    rw [hrequested, ← h.state_eq]
    rfl
  · rw [lookup_insert, stores, latest_cons, h.lookup_eq]
  · rw [isSome_lookup_insert, mem_accessed_cons, Op.key?, Option.some_inj, h.isSome_iff]

theorem modify (h : Follows make state past m) (k : κ) (f : α → α) :
    Follows make state (.modify k f :: past) (m.modify k f).2 := by
  have hgot := h.get k
  have hlatest : latest k (stores make state (.get k :: past)) = some (m.get k).1 := by
    rw [← hgot.lookup_eq, lookup_get]
  have hstores : stores make state (.modify k f :: past) =
      (k, f (m.get k).1) :: stores make state (.get k :: past) := by
    rw [stores_modify, hlatest]
    rfl
  have hinsert := hgot.insert k (f (m.get k).1)
  rw [modify_eq_insert]
  refine ⟨hinsert.make_eq, ?_, fun k' => ?_, fun k' => ?_⟩
  · rw [requested_modify, ← hgot.state_eq]
    rfl
  · rw [hstores]
    exact hinsert.lookup_eq k'
  · rw [hinsert.isSome_iff]
    simp [mem_accessed_cons, Op.key?]

/-- What was done to the table is added to its history. -/
theorem apply (h : Follows make state past m) (op : Op κ α) :
    Follows make state (op :: past) (m.apply op) := by
  cases op with
  | get k => exact h.get k
  | modify k f => exact h.modify k f
  | insert k a => exact h.insert k a
  | lookup k =>
    have hrequested : requested (.lookup k :: past) = requested past :=
      requested_cons_of_known fun _ hkey => by cases hkey
    have haccessed : accessed (.lookup k :: past) = accessed past := by
      rw [accessed_cons, Op.key?, Option.toList_none, List.append_nil]
    refine ⟨h.make_eq, ?_, h.lookup_eq, ?_⟩
    · rw [hrequested]
      exact h.state_eq
    · rw [haccessed]
      exact h.isSome_iff

end Follows

/-! ## Any history -/

/-- A table follows its history, whatever that is. -/
theorem follows_after (make : σ → κ → α × σ) (state : σ) (past : List (Op κ α)) :
    Follows make state past (after make state past) := by
  induction past with
  | nil => exact follows_start make state
  | cons op past ih => exact ih.apply op

/-- A lookup finds what was stored last under its key. -/
theorem lookup_after (make : σ → κ → α × σ) (state : σ) (past : List (Op κ α)) (k : κ) :
    (after make state past).lookup k = latest k (stores make state past) :=
  (follows_after make state past).lookup_eq k

/-- The maker was called for the requested keys, in their order, and for no others. -/
theorem state_after (make : σ → κ → α × σ) (state : σ) (past : List (Op κ α)) :
    (after make state past).state = called make state (requested past) :=
  (follows_after make state past).state_eq

/-- The keys of a table are those that were accessed. -/
theorem keys_after_perm (make : σ → κ → α × σ) (state : σ) (past : List (Op κ α)) :
    (after make state past).entries.keys.Perm (accessed past).eraseDups := by
  refine (List.perm_ext_iff_of_nodup (Table.nodup_keys _) (nodup_eraseDups _)).2 fun k => ?_
  rw [Table.mem_keys_iff, List.mem_eraseDups]
  exact (follows_after make state past).isSome_iff k

/-- **A memo table over any history.** A lookup finds what was stored last under its key: by an
insertion, by a get that did not find the key, or by writing to what was got. A get returns this too.
The maker was called once for each key whose first access was a get, in the order of these accesses,
and never otherwise, and there are as many entries as keys that were accessed. -/
theorem history_exact (make : σ → κ → α × σ) (state : σ) (past : List (Op κ α)) :
    (∀ k, (after make state past).lookup k = latest k (stores make state past)) ∧
    (∀ k, some ((after make state past).get k).1 =
      latest k (stores make state (.get k :: past))) ∧
    (after (recording make) (state, []) past).state =
      ((after make state past).state, requested past) ∧
    (after make state past).size = (accessed past).eraseDups.length := by
  refine ⟨lookup_after make state past, fun k => ?_, ?_, ?_⟩
  · rw [← lookup_after]
    exact (lookup_get _ k).symm
  · rw [state_after, state_after, called_recording]
  · rw [← (keys_after_perm make state past).length_eq, Table.keys, List.length_map]
    rfl

end Memo

end TensorShape
