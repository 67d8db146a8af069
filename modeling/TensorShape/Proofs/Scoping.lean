import TensorShape.Program.WellFormed
import TensorShape.Proofs.Expansion

/-!
# TensorShape.Proofs.Scoping

Function-wide names keep definitions apart.

A definition is a block, by its index, and a register that the block defines (`Function.Defines`).
The name of a register is longer than the register only in a later block that defines what another
block defines too (`Function.Redefines`); everywhere else it is the register itself.

* `labelled_inj`: label and register can be read off `label::register`, if the register has no
  colon. The label may have some.
* `Function.scope_eq_iff_of_colon_not_mem`: what keeps its name.
* `Function.WellFormed.definition_eq`: in a well-formed function a name tells its definition. Labels
  differ, and of several blocks that define a register all but the entry block name it with theirs.
-/

namespace TensorShape

/-! ## Functions without a flaw -/

/-- No repetition is found if the names differ from each other and from those seen before. -/
theorem firstRepeatedFrom_eq_none_iff {seen l : List String} :
    firstRepeatedFrom seen l = none ↔ l.Nodup ∧ ∀ x ∈ l, x ∉ seen := by
  induction l generalizing seen with
  | nil => simp [firstRepeatedFrom]
  | cons x l ih =>
    rw [firstRepeatedFrom, List.nodup_cons, List.forall_mem_cons]
    by_cases hx : x ∈ seen
    · simp [hx]
    · have hfresh : (∀ y ∈ l, y ∉ x :: seen) ↔ x ∉ l ∧ ∀ y ∈ l, y ∉ seen := by
        simp only [List.mem_cons, not_or, forall_and]
        exact and_congr_left fun _ => ⟨fun h hmem => h x hmem rfl, fun h y hy heq => h (heq ▸ hy)⟩
      rw [if_neg hx, ih, hfresh, and_left_comm, and_assoc]
      simp [hx]

theorem firstRepeated_eq_none_iff {l : List String} : firstRepeated l = none ↔ l.Nodup := by
  simp [firstRepeated, firstRepeatedFrom_eq_none_iff]

namespace Function

variable {f : Function} {i j k : Nat} {r s : Register}

/-- A block has no flaw if it defines each register once and branches to blocks of its function. -/
theorem blockFlaw?_eq_none_iff {b : Block} :
    f.blockFlaw? b = none ↔
      b.definedRegisters.Nodup ∧ ∀ t ∈ b.terminator.targets, t ∈ f.labels := by
  rw [← firstRepeated_eq_none_iff, blockFlaw?, Block.listedRegisters_eq]
  cases firstRepeated b.definedRegisters <;> simp

/-- No flaw is found in a function that is well formed, and in no other. -/
theorem flaw?_eq_none_iff : f.flaw? = none ↔ f.WellFormed := by
  have hparts : f.flaw? = none ↔
      f.blocks ≠ [] ∧ f.labels.Nodup ∧ ∀ b ∈ f.blocks, f.blockFlaw? b = none := by
    rw [← firstRepeated_eq_none_iff, flaw?]
    by_cases hblocks : f.blocks = []
    · simp [hblocks]
    · cases firstRepeated f.labels <;> simp [hblocks]
  rw [hparts]
  constructor
  · rintro ⟨hblocks, hlabels, hall⟩
    refine ⟨hblocks, hlabels, fun b hb => ?_, fun b hb => ?_⟩
    · exact (blockFlaw?_eq_none_iff.1 (hall b hb)).2
    · exact (blockFlaw?_eq_none_iff.1 (hall b hb)).1
  · intro h
    refine ⟨h.blocks_ne_nil, h.labels_nodup, fun b hb => blockFlaw?_eq_none_iff.2 ?_⟩
    exact ⟨h.registers_nodup b hb, h.targets_mem b hb⟩

/-- In a well-formed function a label tells its block. -/
theorem WellFormed.index_eq (h : f.WellFormed) {b c : Block} (hi : f.blocks[i]? = some b)
    (hj : f.blocks[j]? = some c) (hlabel : b.label = c.label) : i = j := by
  have hi' : f.labels[i]? = some b.label := by simp [labels, hi]
  have hj' : f.labels[j]? = some b.label := by simp [labels, hj, hlabel]
  obtain ⟨hlt, -⟩ := List.getElem?_eq_some_iff.1 hi'
  exact (List.getElem?_inj hlt h.labels_nodup).1 (hi'.trans hj'.symm)

/-! ## Definitions -/

/-- The block at the index defines the register. -/
def Defines (f : Function) (index : Nat) (r : Register) : Prop :=
  ∃ b, f.blocks[index]? = some b ∧ r ∈ b.definedRegisters

/-- The block at the index comes after the entry block and defines a register that another block
defines too. -/
structure Redefines (f : Function) (index : Nat) (r : Register) : Prop where
  later : index ≠ 0
  defines : f.Defines index r
  shared : ∃ k, k ≠ index ∧ f.Defines k r

/-- A register is defined elsewhere if another block defines it. -/
theorem definedElsewhere_iff : f.definedElsewhere i r = true ↔ ∃ k, k ≠ i ∧ f.Defines k r := by
  simp only [definedElsewhere, List.any_eq_true, Bool.and_eq_true, bne_iff_ne, ne_eq,
    List.contains_iff_mem, Prod.exists, List.mk_mem_zipIdx_iff_getElem?, Defines]
  constructor
  · rintro ⟨b, k, hk, hne, hr⟩
    exact ⟨k, hne, b, hk, hr⟩
  · rintro ⟨k, hne, b, hk, hr⟩
    exact ⟨b, k, hk, hne, hr⟩

/-- A register that a later block shares with another is named by its block. -/
theorem scope_of_redefines {b : Block} (hb : f.blocks[i]? = some b) (h : f.Redefines i r) :
    f.scope i r = b.label ++ "::" ++ r := by
  obtain ⟨c, hc, hr⟩ := h.defines
  rw [hb] at hc
  cases hc
  simp only [scope, hb]
  exact if_pos ⟨h.later, hr, definedElsewhere_iff.2 h.shared⟩

/-- All other registers keep their names. -/
theorem scope_of_not_redefines (h : ¬f.Redefines i r) : f.scope i r = r := by
  unfold scope
  split
  · rfl
  · next b hb =>
    refine if_neg fun hscoped => h ⟨hscoped.1, ⟨b, hb, hscoped.2.1⟩, ?_⟩
    exact definedElsewhere_iff.1 hscoped.2.2

theorem scope_of_not_defines (h : ¬f.Defines i r) : f.scope i r = r :=
  scope_of_not_redefines fun hredefines => h hredefines.defines

/-- A definition keeps its name in the entry block, and where it is the only one. -/
theorem not_redefines_iff (h : f.Defines i r) :
    ¬f.Redefines i r ↔ i = 0 ∨ ∀ k, f.Defines k r → k = i := by
  constructor
  · intro hnot
    refine Decidable.or_iff_not_imp_left.2 fun hi k hk => Decidable.byContradiction fun hne => ?_
    exact hnot ⟨hi, h, k, hne, hk⟩
  · rintro (hi | honly) hredefines
    · exact hredefines.later hi
    · obtain ⟨k, hne, hk⟩ := hredefines.shared
      exact hne (honly k hk)

end Function

/-! ## Names with a label -/

theorem toList_labelled (label : String) (r : Register) :
    (label ++ "::" ++ r).toList = (label.toList ++ [':']) ++ ':' :: r.toList := by
  simp

/-- Label and register are what stands before and behind the last two colons. -/
theorem labelled_inj {label label' : String} {r s : Register} (hr : ':' ∉ r.toList)
    (hs : ':' ∉ s.toList) (h : label ++ "::" ++ r = label' ++ "::" ++ s) :
    label = label' ∧ r = s := by
  have hchars := congrArg String.toList h
  rw [toList_labelled, toList_labelled] at hchars
  have hregister : r.toList = s.toList := eq_of_append_last_eq hr hs hchars
  rw [hregister, List.append_cancel_right_eq, List.append_cancel_right_eq] at hchars
  exact ⟨String.toList_inj.1 hchars, String.toList_inj.1 hregister⟩

/-- A name with a label is no name without a colon. -/
theorem labelled_ne {label : String} {r s : Register} (hs : ':' ∉ s.toList) :
    label ++ "::" ++ r ≠ s := by
  rintro rfl
  rw [toList_labelled] at hs
  exact hs (List.mem_append_right _ List.mem_cons_self)

namespace Function

variable {f : Function} {i j : Nat} {r s : Register}

/-! ## Separation -/

/-- A name without a colon is that of a register that keeps its name. -/
theorem scope_eq_iff_of_colon_not_mem (hs : ':' ∉ s.toList) :
    f.scope i r = s ↔ r = s ∧ ¬f.Redefines i r := by
  constructor
  · intro h
    by_cases hredefines : f.Redefines i r
    · obtain ⟨b, hb, -⟩ := hredefines.defines
      rw [scope_of_redefines hb hredefines] at h
      exact absurd h (labelled_ne hs)
    · rw [scope_of_not_redefines hredefines] at h
      exact ⟨h, hredefines⟩
  · rintro ⟨rfl, hredefines⟩
    exact scope_of_not_redefines hredefines

/-- Registers of one block get different names. -/
theorem scope_inj (hr : ':' ∉ r.toList) (hs : ':' ∉ s.toList) (h : f.scope i r = f.scope i s) :
    r = s := by
  by_cases hredefines : f.Redefines i s
  · obtain ⟨b, hb, -⟩ := hredefines.defines
    by_cases hredefines' : f.Redefines i r
    · rw [scope_of_redefines hb hredefines, scope_of_redefines hb hredefines'] at h
      exact (labelled_inj hr hs h).2
    · rw [scope_of_not_redefines hredefines'] at h
      exact ((scope_eq_iff_of_colon_not_mem hr).1 h.symm).1.symm
  · rw [scope_of_not_redefines hredefines] at h
    exact ((scope_eq_iff_of_colon_not_mem hs).1 h).1

/-- Two definitions with one name are one definition. -/
theorem WellFormed.definition_eq (h : f.WellFormed) (hi : f.Defines i r) (hj : f.Defines j s)
    (hr : ':' ∉ r.toList) (hs : ':' ∉ s.toList) (heq : f.scope i r = f.scope j s) :
    (i, r) = (j, s) := by
  by_cases hredefines : f.Redefines j s
  · obtain ⟨c, hc, -⟩ := hj
    by_cases hredefines' : f.Redefines i r
    · obtain ⟨b, hb, -⟩ := hi
      rw [scope_of_redefines hb hredefines', scope_of_redefines hc hredefines] at heq
      obtain ⟨hlabel, rfl⟩ := labelled_inj hr hs heq
      rw [h.index_eq hb hc hlabel]
    · rw [scope_of_not_redefines hredefines'] at heq
      exact absurd hredefines ((scope_eq_iff_of_colon_not_mem hr).1 heq.symm).2
  · rw [scope_of_not_redefines hredefines] at heq
    obtain ⟨rfl, hredefines'⟩ := (scope_eq_iff_of_colon_not_mem hs).1 heq
    -- Both keep their names, so each is the only one, or both are in the entry block.
    rcases (not_redefines_iff hi).1 hredefines' with rfl | honly
    · rcases (not_redefines_iff hj).1 hredefines with rfl | honly
      · rfl
      · rw [honly 0 hi]
    · rw [honly j hj]

/-- **Function-wide names keep definitions apart.** In a function without a flaw, two different
definitions of registers without a colon have different names. A register that its block does not
define has the name of a definition if and only if that one is a definition of the register, in the
entry block or nowhere else. -/
theorem scope_separates (hflaw : f.flaw? = none) :
    (∀ i j r s, f.Defines i r → f.Defines j s → ':' ∉ r.toList → ':' ∉ s.toList →
      (i, r) ≠ (j, s) → f.scope i r ≠ f.scope j s) ∧
    (∀ i j r s, f.Defines i r → ¬f.Defines j s → ':' ∉ s.toList →
      (f.scope j s = f.scope i r ↔ r = s ∧ (i = 0 ∨ ∀ k, f.Defines k r → k = i))) := by
  have hwf : f.WellFormed := flaw?_eq_none_iff.1 hflaw
  constructor
  · intro i j r s hi hj hr hs hne heq
    exact hne (hwf.definition_eq hi hj hr hs heq)
  · intro i j r s hi hj hs
    rw [scope_of_not_defines hj, eq_comm, scope_eq_iff_of_colon_not_mem hs, not_redefines_iff hi]

/-- A branch to two blocks that define `%0` as the entry block does, and whose labels differ by a
colon at the end. -/
def colonLabels : Function where
  name := "f"
  blocks :=
    [⟨"entry", [⟨"%x", .named "Tensor"⟩], [⟨["%0"], .other "load" ["%x"]⟩],
        .condBranch "%0" "b" "b:"⟩,
      ⟨"b", [], [⟨["%0"], .other "load" ["%x"]⟩], .ret ⟨"%0", .named "Int"⟩⟩,
      ⟨"b:", [], [⟨["%0"], .other "load" ["%x"]⟩], .ret ⟨"%0", .named "Int"⟩⟩]

/-- `b::%0` and `b:::%0` are two names. The register `%x` of the last block is the parameter. -/
theorem scope_colonLabels :
    colonLabels.flaw? = none ∧ colonLabels.Defines 1 "%0" ∧ colonLabels.Defines 2 "%0" ∧
    colonLabels.Defines 0 "%x" ∧ ¬colonLabels.Defines 2 "%x" ∧
    colonLabels.scope 1 "%0" = "b::%0" ∧ colonLabels.scope 2 "%0" = "b:::%0" ∧
    colonLabels.scope 1 "%0" ≠ colonLabels.scope 2 "%0" ∧
    colonLabels.scope 2 "%x" = colonLabels.scope 0 "%x" := by
  have hflaw : colonLabels.flaw? = none := by decide
  have hfirst : colonLabels.Defines 1 "%0" := ⟨_, rfl, by decide⟩
  have hsecond : colonLabels.Defines 2 "%0" := ⟨_, rfl, by decide⟩
  have hparam : colonLabels.Defines 0 "%x" := ⟨_, rfl, by decide⟩
  have hfree : ¬colonLabels.Defines 2 "%x" := by
    rintro ⟨b, hb, hmem⟩
    cases hb
    exact absurd hmem (by decide)
  obtain ⟨hapart, hsame⟩ := scope_separates hflaw
  refine ⟨hflaw, hfirst, hsecond, hparam, hfree, by decide, by decide, ?_, ?_⟩
  · exact hapart 1 2 "%0" "%0" hfirst hsecond (by decide) (by decide) (by decide)
  · exact (hsame 0 2 "%x" "%x" hparam hfree (by decide)).2 ⟨rfl, .inl rfl⟩

end Function

end TensorShape
