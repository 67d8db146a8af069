/-!
# TensorShape.Table

Finite maps with a fixed order: the entries are a list in strictly ascending order of their keys,
so two tables that answer every lookup alike are the same value, and whatever is listed from one
(functions of a module, recorded calls, entries of a witness) is listed in the order of its keys.

Strings are ordered by their code points.
-/

namespace TensorShape

/-! ## Orders on keys -/

/-- A strict total order on keys, given as a test. -/
class KeyOrder (κ : Type) where
  /-- Does the first key stand before the second? -/
  before : κ → κ → Bool
  before_irrefl : ∀ a, before a a = false
  before_trans : ∀ {a b c}, before a b = true → before b c = true → before a c = true
  eq_of_not_before : ∀ {a b}, before a b = false → before b a = false → a = b

/-- Lexicographic order by code point; a proper initial part comes first. -/
def codesBefore : List Char → List Char → Bool
  | _, [] => false
  | [], _ :: _ => true
  | a :: as, b :: bs => if a = b then codesBefore as bs else decide (a.toNat < b.toNat)

theorem codesBefore_irrefl (as : List Char) : codesBefore as as = false := by
  induction as with
  | nil => rfl
  | cons a as ih => simp [codesBefore, ih]

private theorem toNat_ne_of_ne {a b : Char} (h : a ≠ b) : a.toNat ≠ b.toNat :=
  fun hn => h (by rw [← Char.ofNat_toNat a, ← Char.ofNat_toNat b, hn])

theorem codesBefore_trans {as bs cs : List Char} (hab : codesBefore as bs = true)
    (hbc : codesBefore bs cs = true) : codesBefore as cs = true := by
  induction as generalizing bs cs with
  | nil =>
    cases cs with
    | nil => cases bs <;> simp [codesBefore] at hbc
    | cons c cs => rfl
  | cons a as ih =>
    cases bs with
    | nil => simp [codesBefore] at hab
    | cons b bs =>
      cases cs with
      | nil => simp [codesBefore] at hbc
      | cons c cs =>
        simp only [codesBefore] at hab hbc ⊢
        by_cases h1 : a = b
        · subst h1
          by_cases h2 : a = c
          · simp only [h2, if_true] at *
            exact ih hab hbc
          · simpa only [if_neg h2] using hbc
        · by_cases h2 : b = c
          · subst h2
            simpa only [if_neg h1] using hab
          · simp only [if_neg h1, if_neg h2, decide_eq_true_eq] at hab hbc
            have h3 : a ≠ c := fun h => by subst h; omega
            simp only [if_neg h3, decide_eq_true_eq]
            omega

theorem eq_of_not_codesBefore {as bs : List Char} (hab : codesBefore as bs = false)
    (hba : codesBefore bs as = false) : as = bs := by
  induction as generalizing bs with
  | nil => cases bs with
    | nil => rfl
    | cons b bs => simp [codesBefore] at hab
  | cons a as ih =>
    cases bs with
    | nil => simp [codesBefore] at hba
    | cons b bs =>
      simp only [codesBefore] at hab hba
      by_cases h : a = b
      · subst h
        simp only [if_true] at hab hba
        rw [ih hab hba]
      · have hne := toNat_ne_of_ne h
        simp only [if_neg h, if_neg (Ne.symm h), decide_eq_false_iff_not] at hab hba
        omega

instance : KeyOrder String where
  before a b := codesBefore a.toList b.toList
  before_irrefl a := codesBefore_irrefl a.toList
  before_trans := codesBefore_trans
  eq_of_not_before hab hba := String.toList_inj.1 (eq_of_not_codesBefore hab hba)

/-! ## Tables -/

/-- A finite map whose entries stand in strictly ascending order of their keys. -/
structure Table (κ α : Type) [KeyOrder κ] where
  entries : List (κ × α)
  ascending : entries.Pairwise fun p q => KeyOrder.before p.1 q.1 = true

namespace Table

variable {κ α β : Type} [KeyOrder κ]

@[ext] theorem ext {s t : Table κ α} (h : s.entries = t.entries) : s = t := by
  cases s; cases t; cases h; rfl

instance [DecidableEq κ] [DecidableEq α] : DecidableEq (Table κ α) := fun s t =>
  decidable_of_iff (s.entries = t.entries) ⟨ext, fun h => h ▸ rfl⟩

def empty : Table κ α := ⟨[], .nil⟩

instance : EmptyCollection (Table κ α) := ⟨empty⟩

instance : Inhabited (Table κ α) := ⟨empty⟩

def keys (t : Table κ α) : List κ := t.entries.map Prod.fst

def values (t : Table κ α) : List α := t.entries.map Prod.snd

def size (t : Table κ α) : Nat := t.entries.length

def isEmpty (t : Table κ α) : Bool := t.entries.isEmpty

/-- No key occurs twice. -/
theorem nodup_keys (t : Table κ α) : t.keys.Nodup := by
  refine List.pairwise_map.2 (t.ascending.imp fun {p q} hbefore heq => ?_)
  rw [heq, KeyOrder.before_irrefl] at hbefore
  cases hbefore

/-- Apply `f` to every value. -/
def map (f : α → β) (t : Table κ α) : Table κ β :=
  ⟨t.entries.map fun p => (p.1, f p.2), t.ascending.map _ fun _ _ h => h⟩

/-! ### Lookup -/

variable [DecidableEq κ]

/-- The value of the first entry with key `k`. -/
def lookupEntry (k : κ) : List (κ × α) → Option α
  | [] => none
  | (k', a) :: rest => if k' = k then some a else lookupEntry k rest

def get? (t : Table κ α) (k : κ) : Option α := lookupEntry k t.entries

def contains (t : Table κ α) (k : κ) : Bool := (t.get? k).isSome

/-! ### Insertion -/

/-- Put an entry in its place, over an entry of the same key. -/
def insertEntry (k : κ) (a : α) : List (κ × α) → List (κ × α)
  | [] => [(k, a)]
  | (k', a') :: rest =>
    if k' = k then (k, a) :: rest
    else if KeyOrder.before k k' then (k, a) :: (k', a') :: rest
    else (k', a') :: insertEntry k a rest

theorem mem_insertEntry {k : κ} {a : α} {l : List (κ × α)} {p : κ × α}
    (h : p ∈ insertEntry k a l) : p = (k, a) ∨ p ∈ l := by
  induction l with
  | nil => simpa [insertEntry] using h
  | cons q rest ih =>
    obtain ⟨k', a'⟩ := q
    simp only [insertEntry] at h
    split at h
    · rcases List.mem_cons.1 h with h | h
      · exact .inl h
      · exact .inr (List.mem_cons_of_mem _ h)
    · split at h
      · rcases List.mem_cons.1 h with h | h
        · exact .inl h
        · exact .inr h
      · rcases List.mem_cons.1 h with h | h
        · exact .inr (h ▸ List.mem_cons_self)
        · exact (ih h).imp id (List.mem_cons_of_mem _)

theorem insertEntry_ascending (k : κ) (a : α) {l : List (κ × α)}
    (h : l.Pairwise fun p q => KeyOrder.before p.1 q.1 = true) :
    (insertEntry k a l).Pairwise fun p q => KeyOrder.before p.1 q.1 = true := by
  induction l with
  | nil => simp [insertEntry]
  | cons q rest ih =>
    obtain ⟨k', a'⟩ := q
    obtain ⟨hq, hrest⟩ := List.pairwise_cons.1 h
    simp only [insertEntry]
    split
    · next heq =>
      subst heq
      exact List.pairwise_cons.2 ⟨hq, hrest⟩
    · next hne =>
      split
      · next hlt =>
        refine List.pairwise_cons.2 ⟨fun p hp => ?_, h⟩
        rcases List.mem_cons.1 hp with rfl | hp
        · exact hlt
        · exact KeyOrder.before_trans hlt (hq p hp)
      · next hlt =>
        refine List.pairwise_cons.2 ⟨fun p hp => ?_, ih hrest⟩
        rcases mem_insertEntry hp with rfl | hp
        · cases hb : KeyOrder.before k' k with
          | true => rfl
          | false =>
            exact absurd (KeyOrder.eq_of_not_before hb (by simpa using hlt)) hne
        · exact hq p hp

/-- Bind `k` to `a`, whatever it was bound to. -/
def insert (t : Table κ α) (k : κ) (a : α) : Table κ α :=
  ⟨insertEntry k a t.entries, insertEntry_ascending k a t.ascending⟩

/-- The table of a list of bindings; of two bindings of one key the later one counts. -/
def ofList (l : List (κ × α)) : Table κ α :=
  l.foldl (fun t p => t.insert p.1 p.2) ∅

/-! ### Removal -/

/-- Forget `k`. -/
def erase (t : Table κ α) (k : κ) : Table κ α :=
  ⟨t.entries.filter fun p => p.1 ≠ k, t.ascending.filter _⟩

/-! ### What the operations do to lookups -/

@[simp] theorem get?_empty (k : κ) : (∅ : Table κ α).get? k = none := rfl

theorem lookupEntry_insertEntry (k : κ) (a : α) (l : List (κ × α)) (k' : κ) :
    lookupEntry k' (insertEntry k a l) = if k = k' then some a else lookupEntry k' l := by
  induction l with
  | nil => simp [insertEntry, lookupEntry]
  | cons q rest ih =>
    obtain ⟨k₁, a₁⟩ := q
    simp only [insertEntry]
    split
    · next heq =>
      subst heq
      by_cases h : k₁ = k' <;> simp [lookupEntry, h]
    · next hne =>
      split
      · by_cases h : k = k' <;> simp [lookupEntry, h]
      · simp only [lookupEntry, ih]
        by_cases h₁ : k₁ = k'
        · subst h₁
          simp [Ne.symm hne]
        · simp [h₁]

@[simp] theorem get?_insert (t : Table κ α) (k : κ) (a : α) (k' : κ) :
    (t.insert k a).get? k' = if k = k' then some a else t.get? k' :=
  lookupEntry_insertEntry k a t.entries k'

theorem contains_insert_iff (t : Table κ α) (k : κ) (a : α) (k' : κ) :
    (t.insert k a).contains k' = true ↔ k = k' ∨ t.contains k' = true := by
  simp only [contains, get?_insert]
  by_cases h : k = k' <;> simp [h]

omit [KeyOrder κ] in
theorem lookupEntry_filter (k k' : κ) (l : List (κ × α)) :
    lookupEntry k' (l.filter fun p => p.1 ≠ k) = if k = k' then none else lookupEntry k' l := by
  induction l with
  | nil => simp [lookupEntry]
  | cons q rest ih =>
    obtain ⟨k₁, a₁⟩ := q
    by_cases h₁ : k₁ = k
    · subst h₁
      rw [List.filter_cons_of_neg (by simp), ih]
      by_cases h : k₁ = k' <;> simp [lookupEntry, h]
    · rw [List.filter_cons_of_pos (by simp [h₁])]
      simp only [lookupEntry, ih]
      by_cases h : k₁ = k'
      · subst h
        simp [Ne.symm h₁]
      · simp [h]

@[simp] theorem get?_erase (t : Table κ α) (k k' : κ) :
    (t.erase k).get? k' = if k = k' then none else t.get? k' :=
  lookupEntry_filter k k' t.entries

theorem mem_keys_iff (t : Table κ α) (k : κ) : k ∈ t.keys ↔ (t.get? k).isSome = true := by
  simp only [keys, get?]
  induction t.entries with
  | nil => simp [lookupEntry]
  | cons q rest ih =>
    obtain ⟨k₁, a₁⟩ := q
    by_cases h : k₁ = k
    · simp [lookupEntry, h]
    · simp only [List.map_cons, List.mem_cons, ih, lookupEntry, if_neg h]
      exact ⟨fun h' => h'.resolve_left (Ne.symm h), .inr⟩

end Table

/-- A set of names, listed in order. -/
abbrev NameSet := Table String Unit

/-- The names of a list, each once. -/
def NameSet.ofList (names : List String) : NameSet :=
  Table.ofList (names.map fun n => (n, ()))

end TensorShape
