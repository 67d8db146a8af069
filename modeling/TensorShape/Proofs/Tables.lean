import Mathlib.Data.List.Sort
import TensorShape.Table

/-!
# TensorShape.Proofs.Tables

Lemmas on finite maps and sets of names.

* A table is its lookups (`Table.ext_get?`), and its entries are what can be looked up
  (`Table.mem_entries_iff`).
* The table of a list has the last binding of each key (`Table.mem_of_get?_ofList`,
  `Table.get?_ofList_of_mem`), and is the table itself if the list is its entries
  (`Table.ofList_entries`).
* `Table.fill` gives each key a value of its own, and `Table.withKey` adds a key that may be there.
-/

namespace TensorShape

namespace Table

variable {κ α β : Type} [KeyOrder κ]

/-! ## Entries -/

/-- The entries before one entry are those whose keys are before its key. -/
theorem filter_before {t : Table κ α} {k : κ} {a : α} {front back : List (κ × α)}
    (h : t.entries = front ++ (k, a) :: back) :
    t.entries.filter (fun p => KeyOrder.before p.1 k) = front := by
  have hascending := t.ascending
  rw [h] at hascending
  obtain ⟨-, hback, hfront⟩ := List.pairwise_append.1 hascending
  have hkept : front.filter (fun p => KeyOrder.before p.1 k) = front :=
    List.filter_eq_self.2 fun p hp => hfront p hp (k, a) List.mem_cons_self
  have hdropped : ((k, a) :: back).filter (fun p => KeyOrder.before p.1 k) = [] := by
    refine List.filter_eq_nil_iff.2 fun p hp hbefore => ?_
    rcases List.mem_cons.1 hp with rfl | hp
    · rw [KeyOrder.before_irrefl] at hbefore
      cases hbefore
    · have hcycle := KeyOrder.before_trans hbefore ((List.pairwise_cons.1 hback).1 p hp)
      rw [KeyOrder.before_irrefl] at hcycle
      cases hcycle
  rw [h, List.filter_append, hkept, hdropped, List.append_nil]

variable [DecidableEq κ]

omit [KeyOrder κ] in
/-- What is found in a list of entries is one of them. -/
theorem mem_of_lookupEntry {l : List (κ × α)} {k : κ} {a : α} (h : lookupEntry k l = some a) :
    (k, a) ∈ l := by
  induction l with
  | nil => cases h
  | cons p rest ih =>
    simp only [lookupEntry] at h
    split at h
    · next heq =>
      cases h
      rw [← heq]
      exact List.mem_cons_self
    · exact List.mem_cons_of_mem _ (ih h)

/-- What is bound is an entry. -/
theorem mem_entries_of_get? {t : Table κ α} {k : κ} {a : α} (h : t.get? k = some a) :
    (k, a) ∈ t.entries :=
  mem_of_lookupEntry h

/-- What is bound is one of the values. -/
theorem mem_values_of_get? {t : Table κ α} {k : κ} {a : α} (h : t.get? k = some a) :
    a ∈ t.values :=
  List.mem_map.2 ⟨(k, a), mem_entries_of_get? h, rfl⟩

/-- In ascending entries each one is found. -/
theorem lookupEntry_of_mem {l : List (κ × α)} {k : κ} {a : α}
    (hl : l.Pairwise fun p q => KeyOrder.before p.1 q.1 = true) (h : (k, a) ∈ l) :
    lookupEntry k l = some a := by
  induction l with
  | nil => exact absurd h List.not_mem_nil
  | cons p rest ih =>
    obtain ⟨hp, hrest⟩ := List.pairwise_cons.1 hl
    rcases List.mem_cons.1 h with rfl | hmem
    · simp [lookupEntry]
    · -- A later entry has a greater key, so the first one is not the one that is found.
      have hbefore := hp (k, a) hmem
      have hne : p.1 ≠ k := by
        intro heq
        rw [heq, KeyOrder.before_irrefl] at hbefore
        cases hbefore
      simp [lookupEntry, hne, ih hrest hmem]

/-- Each entry of a table can be looked up. -/
theorem get?_of_mem_entries {t : Table κ α} {k : κ} {a : α} (h : (k, a) ∈ t.entries) :
    t.get? k = some a :=
  lookupEntry_of_mem t.ascending h

/-- The entries are what can be looked up. -/
theorem mem_entries_iff {t : Table κ α} {p : κ × α} : p ∈ t.entries ↔ t.get? p.1 = some p.2 :=
  ⟨get?_of_mem_entries, mem_entries_of_get?⟩

/-- Tables that answer every lookup alike are the same. -/
theorem ext_get? {s t : Table κ α} (h : ∀ k, s.get? k = t.get? k) : s = t := by
  have hirrefl : Std.Irrefl fun p q : κ × α => KeyOrder.before p.1 q.1 = true :=
    ⟨fun p hp => by simp [KeyOrder.before_irrefl] at hp⟩
  have hantisymm : Std.Antisymm fun p q : κ × α => KeyOrder.before p.1 q.1 = true :=
    ⟨fun p q hpq hqp => absurd (KeyOrder.before_trans hpq hqp) (by simp [KeyOrder.before_irrefl])⟩
  refine ext (s.ascending.eq_of_mem_iff t.ascending fun p => ?_)
  rw [mem_entries_iff, mem_entries_iff, h]

/-- To bind a key to what it is bound to changes nothing. -/
theorem insert_of_get? {t : Table κ α} {k : κ} {a : α} (h : t.get? k = some a) : t.insert k a = t := by
  refine Table.ext_get? fun k' => ?_
  rw [Table.get?_insert]
  split
  · next heq => rw [← heq, h]
  · rfl

/-- The keys after an insertion. -/
theorem mem_keys_insert_iff (t : Table κ α) (k : κ) (a : α) (k' : κ) :
    k' ∈ (t.insert k a).keys ↔ k = k' ∨ k' ∈ t.keys := by
  rw [mem_keys_iff, mem_keys_iff, get?_insert]
  by_cases h : k = k' <;> simp [h]

/-- Erasing adds nothing. -/
theorem size_erase_le (t : Table κ α) (k : κ) : (t.erase k).size ≤ t.size :=
  List.length_filter_le _ _

/-! ## Tables of a list -/

/-- Binding a list of entries, one after the other, binds nothing else. -/
theorem mem_or_of_get?_foldl {l : List (κ × α)} {t : Table κ α} {k : κ} {a : α}
    (h : (l.foldl (fun t p => t.insert p.1 p.2) t).get? k = some a) :
    (k, a) ∈ l ∨ t.get? k = some a := by
  induction l generalizing t with
  | nil => exact .inr h
  | cons p l ih =>
    rcases ih h with hmem | hget
    · exact .inl (List.mem_cons_of_mem p hmem)
    · rw [get?_insert] at hget
      split at hget
      · next heq =>
        cases hget
        exact .inl (by rw [← heq]; exact List.mem_cons_self)
      · exact .inr hget

/-- A key that is not in the list keeps its binding. -/
theorem get?_foldl_of_not_mem {l : List (κ × α)} {t : Table κ α} {k : κ}
    (h : k ∉ l.map Prod.fst) :
    (l.foldl (fun t p => t.insert p.1 p.2) t).get? k = t.get? k := by
  induction l generalizing t with
  | nil => rfl
  | cons p l ih =>
    rw [List.map_cons, List.mem_cons, not_or] at h
    rw [List.foldl_cons, ih h.2, get?_insert, if_neg (Ne.symm h.1)]

/-- Entries with different keys are all bound. -/
theorem get?_foldl_of_mem {l : List (κ × α)} {t : Table κ α} {k : κ} {a : α}
    (hl : (l.map Prod.fst).Nodup) (h : (k, a) ∈ l) :
    (l.foldl (fun t p => t.insert p.1 p.2) t).get? k = some a := by
  induction l generalizing t with
  | nil => exact absurd h List.not_mem_nil
  | cons p l ih =>
    obtain ⟨hp, hl⟩ := List.nodup_cons.1 hl
    rcases List.mem_cons.1 h with rfl | h
    · rw [List.foldl_cons, get?_foldl_of_not_mem hp, get?_insert, if_pos rfl]
    · exact ih hl h

/-- A key of the list is bound afterwards, and so is one that was bound before. -/
theorem get?_foldl_ne_none {l : List (κ × α)} {t : Table κ α} {k : κ}
    (h : k ∈ l.map Prod.fst ∨ t.get? k ≠ none) :
    (l.foldl (fun t p => t.insert p.1 p.2) t).get? k ≠ none := by
  induction l generalizing t with
  | nil => exact h.resolve_left List.not_mem_nil
  | cons p l ih =>
    apply ih
    rw [get?_insert]
    by_cases hk : p.1 = k
    · exact .inr (by simp [hk])
    · rw [List.map_cons, List.mem_cons] at h
      rcases h with (heq | hmem) | hget
      · exact absurd heq.symm hk
      · exact .inl hmem
      · exact .inr (by rwa [if_neg hk])

/-- Tables bound alike, but with what they bind mapped. -/
theorem get?_foldl_map (f : α → β) {l : List (κ × α)} {t : Table κ α} {t' : Table κ β}
    (h : ∀ k, t'.get? k = (t.get? k).map f) (k : κ) :
    ((l.map (Prod.map id f)).foldl (fun t p => t.insert p.1 p.2) t').get? k =
      ((l.foldl (fun t p => t.insert p.1 p.2) t).get? k).map f := by
  induction l generalizing t t' with
  | nil => exact h k
  | cons p l ih =>
    rw [List.map_cons, List.foldl_cons, List.foldl_cons]
    refine ih fun k' => ?_
    rw [get?_insert, get?_insert, h k']
    by_cases hk : p.1 = k' <;> simp [hk]

/-- What a table of a list binds is in the list. -/
theorem mem_of_get?_ofList {l : List (κ × α)} {k : κ} {a : α}
    (h : (ofList l).get? k = some a) : (k, a) ∈ l :=
  (mem_or_of_get?_foldl h).resolve_right (by simp)

/-- What is not in the list is not bound. -/
theorem get?_ofList_of_not_mem {l : List (κ × α)} {k : κ} (h : k ∉ l.map Prod.fst) :
    (ofList l).get? k = none :=
  get?_foldl_of_not_mem h

/-- Every key of the list is bound. -/
theorem get?_ofList_ne_none {l : List (κ × α)} {k : κ} (h : k ∈ l.map Prod.fst) :
    (ofList l).get? k ≠ none :=
  get?_foldl_ne_none (.inl h)

/-- In a list of different keys each entry counts. -/
theorem get?_ofList_of_mem {l : List (κ × α)} {k : κ} {a : α} (hl : (l.map Prod.fst).Nodup)
    (h : (k, a) ∈ l) : (ofList l).get? k = some a :=
  get?_foldl_of_mem hl h

/-- The table of a list with mapped values is the table of the list, with its values mapped. -/
theorem get?_ofList_map (f : α → β) (l : List (κ × α)) (k : κ) :
    (ofList (l.map (Prod.map id f))).get? k = ((ofList l).get? k).map f :=
  get?_foldl_map f (by simp) k

/-- A table with the values of some keys, where they have one. -/
theorem get?_ofList_filterMap_iff (keys : List κ) (f : κ → Option α) (k : κ) (a : α) :
    (Table.ofList (keys.filterMap fun k => (f k).map (k, ·))).get? k = some a ↔
      k ∈ keys ∧ f k = some a := by
  have hmem : ∀ b, (k, b) ∈ (keys.filterMap fun k => (f k).map (k, ·)) ↔
      k ∈ keys ∧ f k = some b := by
    intro b
    simp only [List.mem_filterMap, Option.map_eq_some_iff, Prod.mk.injEq]
    constructor
    · rintro ⟨k', hk', b', hb', rfl, rfl⟩
      exact ⟨hk', hb'⟩
    · rintro ⟨hk, hb⟩
      exact ⟨k, hk, b, hb, rfl, rfl⟩
  constructor
  · exact fun h => (hmem a).1 (mem_of_get?_ofList h)
  · intro h
    have hkey := get?_ofList_ne_none (List.mem_map.2 ⟨_, (hmem a).2 h, rfl⟩)
    obtain ⟨b, hb⟩ := Option.ne_none_iff_exists'.1 hkey
    have hvalue := ((hmem b).1 (mem_of_get?_ofList hb)).2
    rw [h.2] at hvalue
    rw [hb, hvalue]

/-- An entry behind all others is put at the end. -/
theorem insertEntry_of_before {k : κ} (a : α) {l : List (κ × α)}
    (h : ∀ p ∈ l, KeyOrder.before p.1 k = true) : insertEntry k a l = l ++ [(k, a)] := by
  induction l with
  | nil => rfl
  | cons p l ih =>
    obtain ⟨k', a'⟩ := p
    have hbefore : KeyOrder.before k' k = true := h (k', a') List.mem_cons_self
    have hne : k' ≠ k := by
      rintro rfl
      rw [KeyOrder.before_irrefl] at hbefore
      cases hbefore
    have hafter : ¬KeyOrder.before k k' = true := by
      intro hk
      have hcycle := KeyOrder.before_trans hk hbefore
      rw [KeyOrder.before_irrefl] at hcycle
      cases hcycle
    rw [insertEntry, if_neg hne, if_neg hafter, ih fun p hp => h p (List.mem_cons_of_mem _ hp)]
    rfl

/-- Entries that come in ascending order are appended, one after the other. -/
theorem entries_foldl_insert {l : List (κ × α)} {t : Table κ α}
    (h : (t.entries ++ l).Pairwise fun p q => KeyOrder.before p.1 q.1 = true) :
    (l.foldl (fun t p => t.insert p.1 p.2) t).entries = t.entries ++ l := by
  induction l generalizing t with
  | nil => simp
  | cons p l ih =>
    have hlast : ∀ q ∈ t.entries, KeyOrder.before q.1 p.1 = true := fun q hq =>
      (List.pairwise_append.1 h).2.2 q hq p List.mem_cons_self
    have hinsert : (t.insert p.1 p.2).entries = t.entries ++ [p] :=
      insertEntry_of_before p.2 hlast
    rw [List.foldl_cons, ih (by rw [hinsert]; simpa using h), hinsert]
    simp

/-- A table is the table of its entries. -/
@[simp] theorem ofList_entries (t : Table κ α) : Table.ofList t.entries = t :=
  Table.ext (entries_foldl_insert t.ascending)

/-! ## Filled tables -/

/-- The table with the same keys in which each key has its own value. -/
def fill (f : κ → β) (t : Table κ α) : Table κ β :=
  ⟨t.entries.map fun p => (p.1, f p.1), t.ascending.map _ fun _ _ h => h⟩

omit [DecidableEq κ] in
/-- The entries of a filled table, key by key. -/
theorem entries_fill (f : κ → β) (t : Table κ α) :
    (t.fill f).entries = t.keys.map fun k => (k, f k) := by
  simp [fill, keys]

omit [KeyOrder κ] in
/-- A lookup in filled entries finds the value of its key, if the key is there. -/
theorem lookupEntry_fill (f : κ → β) (l : List (κ × α)) (k : κ) :
    lookupEntry k (l.map fun p => (p.1, f p.1)) = (lookupEntry k l).map fun _ => f k := by
  induction l with
  | nil => rfl
  | cons p rest ih =>
    obtain ⟨k', a⟩ := p
    simp only [List.map_cons, lookupEntry]
    by_cases h : k' = k
    · simp [h]
    · simp only [if_neg h, ih]

/-- A filled table has the value of each of its keys, and no other. -/
theorem get?_fill (f : κ → β) (t : Table κ α) (k : κ) :
    (t.fill f).get? k = (t.get? k).map fun _ => f k :=
  lookupEntry_fill f t.entries k

/-- To bind a key and fill is to fill and bind the key to its value. -/
theorem fill_insert (f : κ → β) (t : Table κ α) (k : κ) (a : α) :
    (t.insert k a).fill f = (t.fill f).insert k (f k) := by
  refine ext_get? fun k' => ?_
  rw [get?_fill, get?_insert, get?_insert, get?_fill]
  by_cases h : k = k' <;> simp [h]

/-- The table with a key that may be there already. -/
def withKey (t : Table κ Unit) (k : κ) : Table κ Unit := if t.contains k then t else t.insert k ()

/-- A key that is there already is not added, so the keys are the same in both cases. -/
theorem mem_keys_withKey_iff (t : Table κ Unit) (k k' : κ) :
    k' ∈ (t.withKey k).keys ↔ k = k' ∨ k' ∈ t.keys := by
  unfold withKey
  split
  · next hknown =>
    refine ⟨.inr, fun h => h.elim (fun heq => ?_) id⟩
    rw [← heq, mem_keys_iff]
    exact hknown
  · exact mem_keys_insert_iff t k () k'

end Table

namespace NameSet

/-- Sets with the same names are the same. -/
theorem ext_keys {s t : NameSet} (h : ∀ name, name ∈ s.keys ↔ name ∈ t.keys) : s = t := by
  refine Table.ext_get? fun name => ?_
  have hname := h name
  rw [Table.mem_keys_iff, Table.mem_keys_iff] at hname
  cases hs : s.get? name <;> cases ht : t.get? name <;> simp_all

/-- The names of a set are those of the list it was made of. -/
theorem mem_keys_ofList_iff (names : List String) (name : String) :
    name ∈ (NameSet.ofList names).keys ↔ name ∈ names := by
  have hkeys : (names.map fun n => (n, ())).map Prod.fst = names := by simp [Function.comp_def]
  rw [Table.mem_keys_iff, Option.isSome_iff_ne_none]
  constructor
  · intro hsome
    by_contra hmem
    exact hsome (Table.get?_ofList_of_not_mem (by rwa [hkeys]))
  · intro hmem
    exact Table.get?_ofList_ne_none (by rwa [hkeys])

end NameSet

end TensorShape
