import Mathlib.Data.List.Nodup
import TensorShape.Proofs.Scoping
import TensorShape.Proofs.Tables

/-!
# TensorShape.Proofs.Flaws

What is found wrong with a program, and when nothing is.

Several things may be wrong with a function, and with several functions of a module; the search for a
flaw stops at the first. `Function.Has` and `Module.HasAt` say that what a flaw tells is true, whether
it is the first or not.

* `Function.has_of_flaw?`, `Module.exists_entry_of_flaw?`: a flaw that is found is really there;
* `Function.not_has`: nothing is wrong where none is found;
* `Function.flaw?_eq_none_iff`, `Module.flaw?_eq_none_iff`: none is found in what is well formed, and
  only there;
* `Module.flaw?_exact`: a program passes exactly if it is well formed, and otherwise the flaw is one
  of the first function, in the order of keys, that has any.
-/

namespace TensorShape

/-! ## Repetitions -/

/-- An element that is found was seen before or occurs twice. -/
theorem mem_or_of_firstRepeatedFrom {seen l : List String} {x : String}
    (h : firstRepeatedFrom seen l = some x) : x ∈ l ∧ (x ∈ seen ∨ 2 ≤ l.count x) := by
  induction l generalizing seen with
  | nil => cases h
  | cons y l ih =>
    rw [firstRepeatedFrom] at h
    split at h
    · next hy =>
      cases h
      exact ⟨List.mem_cons_self, .inl hy⟩
    · obtain ⟨hmem, hseen⟩ := ih h
      refine ⟨List.mem_cons_of_mem y hmem, ?_⟩
      have hcount : l.count x ≤ (y :: l).count x := List.count_le_count_cons
      rcases hseen with hseen | htwice
      · rcases List.mem_cons.1 hseen with rfl | hseen
        · have hpos : 0 < l.count x := List.count_pos_iff.2 hmem
          rw [List.count_cons_self]
          exact .inr (by omega)
        · exact .inl hseen
      · exact .inr (by omega)

/-- What is found to be repeated is there twice. -/
theorem two_le_count_of_firstRepeated {l : List String} {x : String}
    (h : firstRepeated l = some x) : 2 ≤ l.count x :=
  (mem_or_of_firstRepeatedFrom h).2.resolve_left List.not_mem_nil

/-! ## Flaws of a function -/

/-- The function that has the flaw, by its key. -/
def Flaw.function : Flaw → String
  | .nameMismatch key _ => key
  | .noBlocks function => function
  | .duplicateBlock function _ => function
  | .missingBlock function _ => function
  | .duplicateRegister function _ _ => function

namespace Function

variable {f : Function} {flaw : Flaw}

/-- What the flaw tells of the blocks of the function is true. -/
def Has (f : Function) : Flaw → Prop
  | .nameMismatch _ _ => False
  | .noBlocks function => function = f.name ∧ f.blocks = []
  | .duplicateBlock function label => function = f.name ∧ 2 ≤ f.labels.count label
  | .missingBlock function target =>
    function = f.name ∧ (∃ b ∈ f.blocks, target ∈ b.terminator.targets) ∧ target ∉ f.labels
  | .duplicateRegister function block r =>
    function = f.name ∧ ∃ b ∈ f.blocks, b.label = block ∧ 2 ≤ b.definedRegisters.count r

/-- A flaw names the function that has it. -/
theorem Has.function_eq (h : f.Has flaw) : flaw.function = f.name := by
  cases flaw with
  | nameMismatch key name => exact h.elim
  | noBlocks function => exact h.1
  | duplicateBlock function label => exact h.1
  | missingBlock function target => exact h.1
  | duplicateRegister function block r => exact h.1

/-- A flaw that is found in a block is one of the function. -/
theorem has_of_blockFlaw? {b : Block} (hb : b ∈ f.blocks) (h : f.blockFlaw? b = some flaw) :
    f.Has flaw := by
  unfold blockFlaw? at h
  rw [Block.listedRegisters_eq] at h
  split at h
  · next r hr =>
    cases h
    exact ⟨rfl, b, hb, rfl, two_le_count_of_firstRepeated hr⟩
  · obtain ⟨t, ht, rfl⟩ := Option.map_eq_some_iff.1 h
    have hmissing : t ∉ f.labels := by simpa using List.find?_some ht
    exact ⟨rfl, ⟨b, hb, List.mem_of_find?_eq_some ht⟩, hmissing⟩

/-- A flaw that is found is there. -/
theorem has_of_flaw? (h : f.flaw? = some flaw) : f.Has flaw := by
  unfold flaw? at h
  split at h
  · next hblocks =>
    cases h
    exact ⟨rfl, hblocks⟩
  · split at h
    · next label hlabel =>
      cases h
      exact ⟨rfl, two_le_count_of_firstRepeated hlabel⟩
    · obtain ⟨b, hb, hflaw⟩ := List.exists_of_findSome?_eq_some h
      exact has_of_blockFlaw? hb hflaw

/-- A function that is well formed has no flaw. -/
theorem WellFormed.not_has (h : f.WellFormed) (flaw : Flaw) : ¬f.Has flaw := by
  cases flaw with
  | nameMismatch key name => exact id
  | noBlocks function => exact fun hflaw => h.blocks_ne_nil hflaw.2
  | duplicateBlock function label =>
    intro hflaw
    have honce := List.nodup_iff_count_le_one.1 h.labels_nodup label
    have htwice := hflaw.2
    omega
  | missingBlock function target =>
    rintro ⟨-, ⟨b, hb, htarget⟩, hmissing⟩
    exact hmissing (h.targets_mem b hb target htarget)
  | duplicateRegister function block r =>
    rintro ⟨-, b, hb, -, htwice⟩
    have honce := List.nodup_iff_count_le_one.1 (h.registers_nodup b hb) r
    omega

/-- Nothing is wrong where no flaw is found. -/
theorem not_has (h : f.flaw? = none) (flaw : Flaw) : ¬f.Has flaw :=
  (flaw?_eq_none_iff.1 h).not_has flaw

end Function

/-! ## Flaws of a module -/

namespace Module

variable {m : Module} {flaw : Flaw}

/-- What the flaw tells of the function with the key is true. -/
def HasAt (m : Module) (key : String) (flaw : Flaw) : Prop :=
  ∃ f, m.functions.get? key = some f ∧
    (f.name ≠ key ∧ flaw = .nameMismatch key f.name ∨ f.Has flaw)

/-- Nothing is found in an entry whose function has its key as name and passes. -/
theorem entryFlaw?_eq_none_iff {p : String × Function} :
    (if p.2.name ≠ p.1 then some (Flaw.nameMismatch p.1 p.2.name) else p.2.flaw?) = none ↔
      p.2.name = p.1 ∧ p.2.flaw? = none := by
  by_cases hname : p.2.name = p.1 <;> simp [hname]

/-- No flaw is found in a module that is well formed, and in no other. -/
theorem flaw?_eq_none_iff : m.flaw? = none ↔ m.WellFormed := by
  rw [flaw?, List.findSome?_eq_none_iff]
  constructor
  · intro h
    have hpass := fun p hp => entryFlaw?_eq_none_iff.1 (h p hp)
    exact ⟨fun p hp => (hpass p hp).1.symm,
      fun p hp => Function.flaw?_eq_none_iff.1 (hpass p hp).2⟩
  · intro h p hp
    exact entryFlaw?_eq_none_iff.2
      ⟨(h.key_eq_name p hp).symm, Function.flaw?_eq_none_iff.2 (h.function p hp)⟩

/-- In a well-formed module each function stands under its name and passes. -/
theorem wellFormed_iff : m.WellFormed ↔
    ∀ key f, m.functions.get? key = some f → f.name = key ∧ f.flaw? = none := by
  constructor
  · intro h key f hf
    have hmem : (key, f) ∈ m.functions.entries := Table.mem_entries_iff.2 hf
    exact ⟨(h.key_eq_name _ hmem).symm, Function.flaw?_eq_none_iff.2 (h.function _ hmem)⟩
  · intro h
    have hpass := fun p (hp : p ∈ m.functions.entries) => h p.1 p.2 (Table.mem_entries_iff.1 hp)
    exact ⟨fun p hp => (hpass p hp).1.symm,
      fun p hp => Function.flaw?_eq_none_iff.1 (hpass p hp).2⟩

/-- The flaw that is found is one of an entry, and the functions before this entry pass. -/
theorem exists_entry_of_flaw? (h : m.flaw? = some flaw) : ∃ front f back,
    m.functions.entries = front ++ (flaw.function, f) :: back ∧
    (f.name ≠ flaw.function ∧ flaw = .nameMismatch flaw.function f.name ∨ f.Has flaw) ∧
    ∀ p ∈ front, p.2.name = p.1 ∧ p.2.flaw? = none := by
  obtain ⟨front, ⟨key, f⟩, back, hentries, hflaw, hfront⟩ := List.findSome?_eq_some_iff.1 h
  have hpass : ∀ p ∈ front, p.2.name = p.1 ∧ p.2.flaw? = none := fun p hp =>
    entryFlaw?_eq_none_iff.1 (hfront p hp)
  split at hflaw
  · next hname =>
    cases hflaw
    exact ⟨front, f, back, hentries, .inl ⟨hname, rfl⟩, hpass⟩
  · next hname =>
    have hhas : f.Has flaw := Function.has_of_flaw? hflaw
    have hkey : flaw.function = key := hhas.function_eq.trans (not_not.1 hname)
    exact ⟨front, f, back, hkey ▸ hentries, .inr hhas, hpass⟩

/-- **A program passes exactly if it is well formed.** A module does if every function stands under
its name and passes; a function does if it has a block, distinct labels, no target but its own labels,
and no block with a register that is defined twice. A flaw that is found is really there, and it is
one of the first function, in the order of keys, that has any. -/
theorem flaw?_exact :
    (∀ m : Module, m.flaw? = none ↔
      ∀ key f, m.functions.get? key = some f → f.name = key ∧ f.flaw? = none) ∧
    (∀ f : Function, f.flaw? = none ↔
      f.blocks ≠ [] ∧ f.labels.Nodup ∧
      (∀ b ∈ f.blocks, ∀ t ∈ b.terminator.targets, t ∈ f.labels) ∧
      ∀ b ∈ f.blocks, b.definedRegisters.Nodup) ∧
    (∀ (f : Function) flaw, f.flaw? = some flaw → f.Has flaw) ∧
    (∀ (m : Module) flaw, m.flaw? = some flaw → m.HasAt flaw.function flaw ∧
      ∀ key flaw', m.HasAt key flaw' → KeyOrder.before key flaw.function = false) := by
  refine ⟨fun m => flaw?_eq_none_iff.trans wellFormed_iff, fun f => ?_,
    fun f flaw => Function.has_of_flaw?, ?_⟩
  · rw [Function.flaw?_eq_none_iff]
    constructor
    · exact fun h => ⟨h.blocks_ne_nil, h.labels_nodup, h.targets_mem, h.registers_nodup⟩
    · rintro ⟨hblocks, hlabels, htargets, hregisters⟩
      exact ⟨hblocks, hlabels, htargets, hregisters⟩
  · intro m flaw hflaw
    obtain ⟨front, f, back, hentries, hhas, hfront⟩ := exists_entry_of_flaw? hflaw
    have hmem : (flaw.function, f) ∈ m.functions.entries :=
      hentries ▸ List.mem_append_right front List.mem_cons_self
    refine ⟨⟨f, Table.get?_of_mem_entries hmem, hhas⟩, ?_⟩
    rintro key flaw' ⟨g, hg, hhas'⟩
    by_contra hnot
    -- An earlier entry has been passed, so it has no flaw.
    have hearlier : (key, g) ∈ front := by
      rw [← Table.filter_before hentries, List.mem_filter]
      exact ⟨Table.mem_entries_of_get? hg, by simpa using hnot⟩
    obtain ⟨hname, hpass⟩ := hfront (key, g) hearlier
    rcases hhas' with ⟨hmismatch, -⟩ | hhas'
    · exact hmismatch hname
    · exact Function.not_has hpass flaw' hhas'

/-- `a` is all right, `b` defines a register twice and branches to a block that it does not have, and
`d` stands under another name. -/
def severalFlaws : Module where
  functions := .ofList
    [("a", ⟨"a", [⟨"entry", [], [], .unreachable⟩]⟩),
      ("b", ⟨"b", [⟨"entry", [⟨"%0", .named "Int"⟩], [⟨["%1", "%0"], .other "load" []⟩],
        .branch "exit" []⟩]⟩),
      ("c", ⟨"d", [⟨"entry", [], [], .unreachable⟩]⟩)]

/-- The first flaw of the first function that has one. -/
theorem flaw?_severalFlaws :
    severalFlaws.flaw? = some (.duplicateRegister "b" "entry" "%0") ∧
    severalFlaws.HasAt "b" (.duplicateRegister "b" "entry" "%0") ∧
    severalFlaws.HasAt "b" (.missingBlock "b" "exit") ∧
    severalFlaws.HasAt "c" (.nameMismatch "c" "d") ∧ KeyOrder.before "c" "b" = false := by
  have hflaw : severalFlaws.flaw? = some (.duplicateRegister "b" "entry" "%0") := by decide
  have hmismatch : severalFlaws.HasAt "c" (.nameMismatch "c" "d") :=
    ⟨_, rfl, .inl ⟨by decide, rfl⟩⟩
  have hmissing : severalFlaws.HasAt "b" (.missingBlock "b" "exit") :=
    ⟨_, rfl, .inr ⟨rfl, ⟨_, List.mem_cons_self, List.mem_cons_self⟩, by decide⟩⟩
  obtain ⟨hfound, hfirst⟩ := flaw?_exact.2.2.2 severalFlaws _ hflaw
  exact ⟨hflaw, hfound, hmissing, hmismatch, hfirst "c" _ hmismatch⟩

end Module

end TensorShape
