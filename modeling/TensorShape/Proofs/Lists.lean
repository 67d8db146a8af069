import Mathlib.Data.List.Forall2
import Mathlib.Data.List.Induction
import Mathlib.Data.List.Nodup

/-!
# TensorShape.Proofs.Lists

Lemmas on lists: the first occurrences of the items of a list, in their order (`List.eraseDups`), and
lists that are read item by item.
-/

namespace TensorShape

/-! ## First occurrences -/

section FirstOccurrences

variable {α : Type} [DecidableEq α]

/-- A last item that occurred before is no first occurrence. -/
theorem eraseDups_concat_of_mem {l : List α} {x : α} (h : x ∈ l) :
    (l ++ [x]).eraseDups = l.eraseDups := by
  simp [List.eraseDups_append, List.removeAll, h]

/-- A last item that is new comes last among the first occurrences. -/
theorem eraseDups_concat_of_not_mem {l : List α} {x : α} (h : x ∉ l) :
    (l ++ [x]).eraseDups = l.eraseDups ++ [x] := by
  simp [List.eraseDups_append, List.removeAll, List.eraseDups_cons, h]

/-- First occurrences occur once. -/
theorem nodup_eraseDups (l : List α) : l.eraseDups.Nodup := by
  induction l using List.reverseRecOn with
  | nil => simp
  | append_singleton l x ih =>
    by_cases h : x ∈ l
    · rwa [eraseDups_concat_of_mem h]
    · rw [eraseDups_concat_of_not_mem h, ← List.concat_eq_append]
      exact ih.concat (mt List.mem_eraseDups.1 h)

end FirstOccurrences

/-! ## Items that are read -/

/-- A list is read if each of its items is, and the items read stand in the same order. -/
theorem mapM_eq_some_iff {α β : Type} {f : β → Option α} {R : α → β → Prop}
    (h : ∀ b a, f b = some a ↔ R a b) {items : List β} {l : List α} :
    items.mapM f = some l ↔ List.Forall₂ R l items := by
  induction items generalizing l with
  | nil => simp [eq_comm]
  | cons b items ih =>
    simp only [List.mapM_cons, Option.bind_eq_bind, Option.pure_def, Option.bind_eq_some_iff,
      Option.some.injEq, h b, ih, List.forall₂_cons_right_iff]
    constructor
    · rintro ⟨a, ha, as, has, rfl⟩
      exact ⟨a, as, ha, has, rfl⟩
    · rintro ⟨a, as, ha, has, rfl⟩
      exact ⟨a, ha, as, has, rfl⟩

end TensorShape
