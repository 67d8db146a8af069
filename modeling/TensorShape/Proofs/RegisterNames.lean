import Mathlib.Data.Set.Function
import Mathlib.Logic.Equiv.Basic
import TensorShape.Proofs.Consequence
import TensorShape.Proofs.DroppedFacts
import TensorShape.Proofs.Renaming

/-!
# TensorShape.Proofs.RegisterNames

What register names mean.

The solver sees the symbol of a register, so all that a name says is which other names are the same
symbol. A renaming that keeps this (`KeepsSymbols`) keeps the kind of every answer, as tensors can
be carried over from one list of facts to the other (`Tensors.carry`); and one that does not keep it
changes some answer, as two registers can be given different ranks if and only if their symbols
differ (`exists_meets_ranksDiffer_iff`).

Names lose their NUL characters on the way, so an injective renaming need not keep symbols. On names
without NULs it does (`keepsSymbols_of_injOn`).
-/

namespace TensorShape

/-! ## Renamings that keep symbols -/

/-- Among these registers, the renaming neither joins symbols nor parts them. -/
def KeepsSymbols (φ : Register → Register) (rs : Set Register) : Prop :=
  ∀ r ∈ rs, ∀ s ∈ rs, Symbol.ofName (φ r) = Symbol.ofName (φ s) ↔ Symbol.ofName r = Symbol.ofName s

/-- The registers that occur in a list of values. -/
def occurring (vs : List Value) : Set Register := {r | ∃ v ∈ vs, r ∈ v.registers}

/-- Different names without a NUL are different symbols. -/
theorem Symbol.ofName_inj_of_nul_not_mem {r s : String} (hr : '\x00' ∉ r.toList)
    (hs : '\x00' ∉ s.toList) : ofName r = ofName s ↔ r = s := by
  have hkept : ∀ {t : String}, '\x00' ∉ t.toList → ofName t = ⟨t⟩ := by
    intro t ht
    have hfilter : (t.toList.filter fun c => c.toNat ≠ 0) = t.toList := by
      rw [List.filter_eq_self]
      intro c hc
      rw [decide_eq_true_iff]
      intro hzero
      have hnul : c = '\x00' := Char.toNat_inj.1 hzero
      exact ht (hnul ▸ hc)
    rw [ofName, hfilter, String.ofList_toList]
  rw [hkept hr, hkept hs, Symbol.mk.injEq]

/-- A renaming that joins no names keeps symbols, if there are no NULs before or after. -/
theorem keepsSymbols_of_injOn {φ : Register → Register} {rs : Set Register} (hinj : Set.InjOn φ rs)
    (hnul : ∀ r ∈ rs, '\x00' ∉ r.toList ∧ '\x00' ∉ (φ r).toList) : KeepsSymbols φ rs := by
  intro r hr s hs
  rw [Symbol.ofName_inj_of_nul_not_mem (hnul r hr).2 (hnul s hs).2,
    Symbol.ofName_inj_of_nul_not_mem (hnul r hr).1 (hnul s hs).1]
  exact hinj.eq_iff hr hs

/-! ## Tensors carried over -/

namespace Tensors

variable {shapeLaws : Bool}

open Classical in
/-- Tensors for one naming `f` of some registers from tensors for another naming `g`. -/
noncomputable def carry (τ : Tensors shapeLaws) (f g : Register → Register) (rs : Set Register) :
    Tensors shapeLaws where
  tensor x :=
    if h : ∃ r ∈ rs, Symbol.ofName (f r) = Symbol.ofName x then τ.tensor (g h.choose)
    else τ.tensor x
  tensor_congr h := by
    simp only [h]
    split
    · rfl
    · exact τ.tensor_congr h
  proper hlaws x := by
    split <;> exact τ.proper hlaws _

/-- The carried tensors give to a name under `f` what the name under `g` has. -/
theorem tensor_carry (τ : Tensors shapeLaws) {f g : Register → Register} {rs : Set Register}
    (h : ∀ r ∈ rs, ∀ s ∈ rs, Symbol.ofName (f r) = Symbol.ofName (f s) →
      Symbol.ofName (g r) = Symbol.ofName (g s)) {r : Register} (hr : r ∈ rs) :
    (τ.carry f g rs).tensor (f r) = τ.tensor (g r) := by
  have hnamed : ∃ s ∈ rs, Symbol.ofName (f s) = Symbol.ofName (f r) := ⟨r, hr, rfl⟩
  have hchosen := hnamed.choose_spec
  simp only [carry, dif_pos hnamed]
  exact τ.tensor_congr (h _ hchosen.1 r hr hchosen.2)

/-- Under a renaming that keeps symbols, what can be said of the tensors under the new names can be
said of tensors under the old ones. -/
theorem exists_iff_of_keepsSymbols {φ : Register → Register} {rs : Set Register}
    {P Q : Tensors shapeLaws → Prop} (hφ : KeepsSymbols φ rs)
    (h : ∀ τ τ' : Tensors shapeLaws, (∀ r ∈ rs, τ'.tensor r = τ.tensor (φ r)) → (P τ ↔ Q τ')) :
    (∃ τ, P τ) ↔ ∃ τ, Q τ := by
  constructor
  · rintro ⟨τ, hτ⟩
    refine ⟨τ.carry id φ rs, (h τ _ fun r hr => ?_).1 hτ⟩
    exact τ.tensor_carry (f := id) (fun r hr s hs heq => (hφ r hr s hs).2 heq) hr
  · rintro ⟨τ, hτ⟩
    refine ⟨τ.carry φ id rs, (h _ τ fun r hr => ?_).2 hτ⟩
    exact (τ.tensor_carry (g := id) (fun r hr s hs heq => (hφ r hr s hs).1 heq) hr).symm

/-- Renamed facts can be met if the facts can. -/
theorem exists_meets_mapRegisters_iff {φ : Register → Register} {facts : List Value}
    (hφ : KeepsSymbols φ (occurring facts)) :
    (∃ τ : Tensors shapeLaws, τ.Meets (facts.map (Value.mapRegisters φ))) ↔
      ∃ τ : Tensors shapeLaws, τ.Meets facts :=
  exists_iff_of_keepsSymbols hφ fun _ _ hτ =>
    meets_mapRegisters_iff fun v hv r hr => hτ r ⟨v, hv, hr⟩

end Tensors

/-- Goals follow if no tensors meet the assumptions and miss a goal. -/
theorem follows_iff_not_exists {shapeLaws : Bool} {assumptions goals : List Value}
    (hgoals : ∀ g ∈ goals, g.Encodable) :
    Follows shapeLaws assumptions goals ↔
      ¬∃ τ : Tensors shapeLaws, τ.Meets assumptions ∧ ¬τ.Meets goals := by
  simp only [Follows, ← Tensors.meets_iff hgoals, not_exists, not_and, not_not]

theorem encodable_map_mapRegisters_iff (φ : Register → Register) (goals : List Value) :
    (∀ g ∈ goals.map (Value.mapRegisters φ), g.Encodable) ↔ ∀ g ∈ goals, g.Encodable := by
  simp only [List.forall_mem_map, Value.encodable_mapRegisters]

/-- Renamed goals follow from renamed assumptions if the goals follow from the assumptions. -/
theorem follows_mapRegisters_iff {shapeLaws : Bool} {φ : Register → Register}
    {assumptions goals : List Value} (hφ : KeepsSymbols φ (occurring (assumptions ++ goals)))
    (hgoals : ∀ g ∈ goals, g.Encodable) :
    Follows shapeLaws (assumptions.map (Value.mapRegisters φ)) (goals.map (Value.mapRegisters φ)) ↔
      Follows shapeLaws assumptions goals := by
  rw [follows_iff_not_exists hgoals,
    follows_iff_not_exists ((encodable_map_mapRegisters_iff φ goals).2 hgoals)]
  refine not_congr (Tensors.exists_iff_of_keepsSymbols hφ fun τ τ' hτ => ?_)
  refine and_congr ?_ (not_congr ?_)
  · exact Tensors.meets_mapRegisters_iff fun v hv r hr =>
      hτ r ⟨v, List.mem_append_left _ hv, hr⟩
  · exact Tensors.meets_mapRegisters_iff fun v hv r hr =>
      hτ r ⟨v, List.mem_append_right _ hv, hr⟩

/-! ## Two ranks -/

/-- One register has rank one, the other rank two. -/
def ranksDiffer (r s : Register) : List Value :=
  [.equals (.rankOf r) (.int 1), .equals (.rankOf s) (.int 2)]

/-- A register has rank one, all others have rank two. -/
def Tensors.vectorAt (shapeLaws : Bool) (r : Register) : Tensors shapeLaws where
  tensor x := ⟨if Symbol.ofName x = Symbol.ofName r then 1 else 2, fun _ => 0⟩
  tensor_congr h := by rw [h]
  proper _ x := ⟨by dsimp only; split <;> decide, fun _ => Int.le_refl 0⟩

theorem Tensors.meets_ranksDiffer_iff {shapeLaws : Bool} {τ : Tensors shapeLaws} {r s : Register} :
    τ.Meets (ranksDiffer r s) ↔ (τ.tensor r).rank = 1 ∧ (τ.tensor s).rank = 2 := by
  have hencodable : ∀ v ∈ ranksDiffer r s, v.Encodable := by
    simp only [ranksDiffer, List.forall_mem_cons]
    exact ⟨⟨_, rfl⟩, ⟨_, rfl⟩, fun _ h => absurd h List.not_mem_nil⟩
  rw [Tensors.meets_iff hencodable]
  simp only [ranksDiffer, List.forall_mem_cons, Tensors.satisfies_rank_iff, List.not_mem_nil,
    false_implies, implies_true, and_true]
  exact Iff.rfl

/-- Two registers can have different ranks just if they are two symbols. -/
theorem exists_meets_ranksDiffer_iff {shapeLaws : Bool} {r s : Register} :
    (∃ τ : Tensors shapeLaws, τ.Meets (ranksDiffer r s)) ↔ Symbol.ofName r ≠ Symbol.ofName s := by
  simp only [Tensors.meets_ranksDiffer_iff]
  constructor
  · rintro ⟨τ, hr, hs⟩ heq
    rw [τ.tensor_congr heq, hs] at hr
    cases hr
  · intro hne
    exact ⟨.vectorAt shapeLaws r, if_pos rfl, if_neg hne.symm⟩

/-! ## Answers under other names -/

namespace Verifier

variable {solver : Solver}

/-- A renaming that keeps symbols changes no answer about facts. -/
theorem consistencyKind_mapRegisters (hsolver : solver.Decides) {shapeLaws : Bool}
    {φ : Register → Register} {facts : List Value} (hφ : KeepsSymbols φ (occurring facts)) :
    consistencyKind ⟨some solver, shapeLaws⟩ (facts.map (Value.mapRegisters φ)) =
      consistencyKind ⟨some solver, shapeLaws⟩ facts :=
  (consistencyKind_eq_iff hsolver).2 (Tensors.exists_meets_mapRegisters_iff hφ)

/-- A renaming that keeps symbols changes no verdict. -/
theorem verdictKind_mapRegisters (hsolver : solver.Decides) {shapeLaws : Bool}
    {φ : Register → Register} {assumptions goals : List Value}
    (hφ : KeepsSymbols φ (occurring (assumptions ++ goals))) :
    verdictKind ⟨some solver, shapeLaws⟩ (assumptions.map (Value.mapRegisters φ))
        (goals.map (Value.mapRegisters φ)) =
      verdictKind ⟨some solver, shapeLaws⟩ assumptions goals := by
  rw [verdictKind_eq hsolver, verdictKind_eq hsolver]
  by_cases hgoals : ∀ g ∈ goals, g.Encodable
  · rw [if_pos hgoals, if_pos ((encodable_map_mapRegisters_iff φ goals).2 hgoals)]
    by_cases h : Follows shapeLaws assumptions goals
    · rw [if_pos h, if_pos ((follows_mapRegisters_iff hφ hgoals).2 h)]
    · rw [if_neg h, if_neg (mt (follows_mapRegisters_iff hφ hgoals).1 h)]
  · rw [if_neg hgoals, if_neg (mt (encodable_map_mapRegisters_iff φ goals).1 hgoals)]

/-- A renaming that never changes an answer keeps symbols. -/
theorem keepsSymbols_of_consistencyKind (hsolver : solver.Decides) {shapeLaws : Bool}
    {φ : Register → Register}
    (h : ∀ facts, consistencyKind ⟨some solver, shapeLaws⟩ (facts.map (Value.mapRegisters φ)) =
      consistencyKind ⟨some solver, shapeLaws⟩ facts) (rs : Set Register) : KeepsSymbols φ rs := by
  intro r _ s _
  have hranks := (consistencyKind_eq_iff hsolver).1 (h (ranksDiffer r s))
  change (∃ τ : Tensors shapeLaws, τ.Meets (ranksDiffer (φ r) (φ s))) ↔ _ at hranks
  rw [exists_meets_ranksDiffer_iff, exists_meets_ranksDiffer_iff] at hranks
  exact not_iff_not.1 hranks

/-- Register names mean nothing but which of them are one symbol. With a solver that decides, facts
get an answer of one kind under their names and under others, and so do assumptions with goals, if
the renaming keeps the symbols of the registers that occur; an injective renaming does so if neither
its old names nor its new ones have NUL characters. A renaming that always keeps the kind of the
answer about facts keeps all symbols. -/
theorem kind_mapRegisters (hsolver : solver.Decides) (shapeLaws : Bool)
    (φ : Register → Register) :
    (∀ facts, KeepsSymbols φ (occurring facts) →
      ∃ kind, consistencyKind ⟨some solver, shapeLaws⟩ facts = .ok kind ∧
        consistencyKind ⟨some solver, shapeLaws⟩ (facts.map (Value.mapRegisters φ)) = .ok kind) ∧
    (∀ assumptions goals, KeepsSymbols φ (occurring (assumptions ++ goals)) →
      ∃ kind, verdictKind ⟨some solver, shapeLaws⟩ assumptions goals = .ok kind ∧
        verdictKind ⟨some solver, shapeLaws⟩ (assumptions.map (Value.mapRegisters φ))
          (goals.map (Value.mapRegisters φ)) = .ok kind) ∧
    (∀ rs, Set.InjOn φ rs → (∀ r ∈ rs, '\x00' ∉ r.toList ∧ '\x00' ∉ (φ r).toList) →
      KeepsSymbols φ rs) ∧
    ((∀ facts, consistencyKind ⟨some solver, shapeLaws⟩ (facts.map (Value.mapRegisters φ)) =
        consistencyKind ⟨some solver, shapeLaws⟩ facts) →
      KeepsSymbols φ Set.univ) := by
  refine ⟨fun facts hφ => ?_, fun assumptions goals hφ => ?_, fun rs => keepsSymbols_of_injOn,
    fun h => keepsSymbols_of_consistencyKind hsolver h Set.univ⟩
  · rw [consistencyKind_mapRegisters hsolver hφ]
    exact ⟨_, consistencyKind_eq hsolver .., consistencyKind_eq hsolver ..⟩
  · rw [verdictKind_mapRegisters hsolver hφ]
    exact ⟨_, verdictKind_eq hsolver .., verdictKind_eq hsolver ..⟩

theorem consistencyKind_ranksDiffer (hsolver : solver.Decides) {shapeLaws : Bool} (r s : Register) :
    consistencyKind ⟨some solver, shapeLaws⟩ (ranksDiffer r s) =
      .ok (if Symbol.ofName r = Symbol.ofName s then .contradictory else .consistent) := by
  rw [consistencyKind_eq hsolver]
  by_cases h : Symbol.ofName r = Symbol.ofName s
  · rw [if_pos h, if_neg fun hτ => exists_meets_ranksDiffer_iff.1 hτ h]
  · rw [if_neg h, if_pos (exists_meets_ranksDiffer_iff.2 h)]

/-- A register name with the name of a function before it. -/
def qualified (r : Register) : Register := "f::" ++ r

/-- Putting the same text before each name keeps symbols. -/
theorem keepsSymbols_qualified (rs : Set Register) : KeepsSymbols qualified rs := by
  intro r _ s _
  simp only [qualified, Symbol.ofName, Symbol.mk.injEq, String.ofList_inj, String.toList_append,
    List.filter_append, List.append_cancel_left_eq]

/-- Names put behind the name of their function: registers that are one symbol stay one, and those
that are two stay two. -/
theorem kind_mapRegisters_qualified :
    Solver.ideal.Decides ∧
    KeepsSymbols qualified (occurring (ranksDiffer "%x" "%x\x00")) ∧
    consistencyKind ⟨some Solver.ideal, true⟩
      ((ranksDiffer "%x" "%y").map (Value.mapRegisters qualified)) = .ok .consistent ∧
    consistencyKind ⟨some Solver.ideal, true⟩
      ((ranksDiffer "%x" "%x\x00").map (Value.mapRegisters qualified)) = .ok .contradictory ∧
    (∃ kind, verdictKind ⟨some Solver.ideal, true⟩ [isMatrix] [hasAxis 1] = .ok kind ∧
      verdictKind ⟨some Solver.ideal, true⟩ ([isMatrix].map (Value.mapRegisters qualified))
        ([hasAxis 1].map (Value.mapRegisters qualified)) = .ok kind) ∧
    KeepsSymbols (Equiv.swap "%x" "%y") {"%x", "%y"} ∧
    (∀ facts, consistencyKind ⟨some Solver.ideal, true⟩ (facts.map (Value.mapRegisters qualified)) =
      consistencyKind ⟨some Solver.ideal, true⟩ facts) ∧
    KeepsSymbols qualified Set.univ := by
  obtain ⟨hfacts, hgoals, -, hback⟩ := kind_mapRegisters Solver.ideal_decides true qualified
  obtain ⟨-, -, hinj, -⟩ := kind_mapRegisters Solver.ideal_decides true (Equiv.swap "%x" "%y")
  have hkept : ∀ facts, consistencyKind ⟨some Solver.ideal, true⟩
      (facts.map (Value.mapRegisters qualified)) =
        consistencyKind ⟨some Solver.ideal, true⟩ facts :=
    fun facts => consistencyKind_mapRegisters Solver.ideal_decides (keepsSymbols_qualified _)
  refine ⟨Solver.ideal_decides, keepsSymbols_qualified _, ?_, ?_,
    hgoals _ _ (keepsSymbols_qualified _), hinj _ (Equiv.injective _).injOn ?_, hkept, hback hkept⟩
  · obtain ⟨kind, hkind, hrenamed⟩ := hfacts (ranksDiffer "%x" "%y") (keepsSymbols_qualified _)
    rw [hrenamed, ← hkind, consistencyKind_ranksDiffer Solver.ideal_decides]
    rfl
  · obtain ⟨kind, hkind, hrenamed⟩ :=
      hfacts (ranksDiffer "%x" "%x\x00") (keepsSymbols_qualified _)
    rw [hrenamed, ← hkind, consistencyKind_ranksDiffer Solver.ideal_decides]
    rfl
  · rintro r (rfl | rfl) <;> decide

/-- A renaming may be injective and yet join two symbols: `%x` and `%y` may have different ranks,
but not `%x` and a name that differs from it in a NUL character. -/
theorem kind_swap_nul_ne :
    Solver.ideal.Decides ∧
    Function.Injective (Equiv.swap "%y" "%x\x00") ∧
    (ranksDiffer "%x" "%y").map (Value.mapRegisters (Equiv.swap "%y" "%x\x00")) =
      ranksDiffer "%x" "%x\x00" ∧
    consistencyKind ⟨some Solver.ideal, true⟩ (ranksDiffer "%x" "%y") = .ok .consistent ∧
    consistencyKind ⟨some Solver.ideal, true⟩
      ((ranksDiffer "%x" "%y").map (Value.mapRegisters (Equiv.swap "%y" "%x\x00"))) =
        .ok .contradictory := by
  have hrenamed : (ranksDiffer "%x" "%y").map (Value.mapRegisters (Equiv.swap "%y" "%x\x00")) =
      ranksDiffer "%x" "%x\x00" := by decide
  refine ⟨Solver.ideal_decides, Equiv.injective _, hrenamed, ?_, ?_⟩
  · rw [consistencyKind_ranksDiffer Solver.ideal_decides]
    rfl
  · rw [hrenamed, consistencyKind_ranksDiffer Solver.ideal_decides]
    rfl

end Verifier

end TensorShape
