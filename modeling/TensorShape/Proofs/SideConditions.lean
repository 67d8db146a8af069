import TensorShape.Proofs.Lists
import TensorShape.Proofs.Translation

/-!
# TensorShape.Proofs.SideConditions

Every law and every obligation is made once.

A translator is asked for facts, for terms and for its obligations, in any order, and some of the
facts may fail. With the laws of shapes on, its laws are those of the ranks and dimensions that were
reached, in the order of first reach, where a dimension reaches the rank of its tensor before itself.
The obligations that it has handed out, and then those that it still has, are those of the axes that
were reached, in the same order: an axis that is reached again after its obligations were taken does
not bring them back.
-/

namespace TensorShape

/-! ## Laws and obligations of what is reached -/

namespace Reached

/-- What is reached with a rank or a dimension: a dimension comes after the rank of its tensor. -/
def parts : Reached → List Reached
  | .rank r => [.rank r]
  | .dim a => [.rank a.register, .dim a]

def law : Reached → Formula
  | .rank r => Encoder.notNegative (rankTerm r)
  | .dim a => Encoder.notNegative (dimTerm a)

def axis? : Reached → Option Axis
  | .rank _ => none
  | .dim a => some a

/-- The rank of a register is among the parts if anything of the register was reached. -/
theorem rank_mem_parts_iff (l : List Reached) (r : Register) :
    .rank r ∈ l.flatMap parts ↔ ∃ x ∈ l, x.register = r := by
  rw [List.mem_flatMap]
  refine exists_congr fun x => and_congr_right fun _ => ?_
  cases x <;> simp [parts, register, eq_comm]

theorem dim_mem_parts_iff (l : List Reached) (a : Axis) :
    .dim a ∈ l.flatMap parts ↔ .dim a ∈ l := by
  rw [List.mem_flatMap]
  constructor
  · rintro ⟨x, hx, ha⟩
    cases x with
    | rank r => simp [parts] at ha
    | dim b =>
      have hab : a = b := by simpa [parts] using ha
      rwa [hab]
  · exact fun h => ⟨_, h, by simp [parts]⟩

theorem mem_axes_iff (l : List Reached) (a : Axis) : a ∈ l.filterMap axis? ↔ .dim a ∈ l := by
  rw [List.mem_filterMap]
  constructor
  · rintro ⟨x, hx, ha⟩
    cases x with
    | rank r => cases ha
    | dim b =>
      cases ha
      exact hx
  · exact fun h => ⟨_, h, rfl⟩

end Reached

namespace Encoder

/-- The laws of ranks and dimensions, each where it occurs first. -/
def lawsOf (shapeLaws : Bool) (l : List Reached) : List Formula :=
  if shapeLaws then l.eraseDups.map Reached.law else []

/-- The obligations of axes, each where it occurs first. -/
def obligationsOf (shapeLaws : Bool) (l : List Axis) : List Formula :=
  if shapeLaws then l.eraseDups.flatMap axisObligations else []

/-- What was reached before brings no law again. -/
theorem lawsOf_concat_of_mem {l : List Reached} {x : Reached} (shapeLaws : Bool) (h : x ∈ l) :
    lawsOf shapeLaws (l ++ [x]) = lawsOf shapeLaws l := by
  simp only [lawsOf, eraseDups_concat_of_mem h]

/-- What is reached for the first time brings its law, if the laws are on. -/
theorem lawsOf_concat_of_not_mem {l : List Reached} {x : Reached} (shapeLaws : Bool) (h : x ∉ l) :
    lawsOf shapeLaws (l ++ [x]) =
      if shapeLaws then lawsOf shapeLaws l ++ [x.law] else lawsOf shapeLaws l := by
  cases shapeLaws <;> simp [lawsOf, eraseDups_concat_of_not_mem h]

/-- An axis that was reached before brings no obligations again. -/
theorem obligationsOf_concat_of_mem {l : List Axis} {a : Axis} (shapeLaws : Bool) (h : a ∈ l) :
    obligationsOf shapeLaws (l ++ [a]) = obligationsOf shapeLaws l := by
  simp only [obligationsOf, eraseDups_concat_of_mem h]

/-- An axis that is reached for the first time brings its obligations, if the laws are on. -/
theorem obligationsOf_concat_of_not_mem {l : List Axis} {a : Axis} (shapeLaws : Bool) (h : a ∉ l) :
    obligationsOf shapeLaws (l ++ [a]) =
      if shapeLaws then obligationsOf shapeLaws l ++ axisObligations a
      else obligationsOf shapeLaws l := by
  cases shapeLaws <;> simp [obligationsOf, eraseDups_concat_of_not_mem h]

/-! ### One step -/

/-- Reaching a rank adds to the laws what its first time adds. -/
theorem laws_reachRank {enc : Encoder} {l : List Reached} {r : Register}
    (hknown : enc.ranks.contains r = true ↔ .rank r ∈ l)
    (hlaws : enc.laws = lawsOf enc.shapeLaws l) :
    (enc.reachRank r).laws = lawsOf enc.shapeLaws (l ++ [.rank r]) := by
  unfold reachRank
  split
  · next h => rw [lawsOf_concat_of_mem _ (hknown.1 h), hlaws]
  · next h => rw [lawsOf_concat_of_not_mem _ (mt hknown.2 h), ← hlaws]; rfl

/-- A step adds the laws of what it reaches first. -/
theorem laws_reach {enc : Encoder} {l : List Reached} (h : enc.Tracks l)
    (hlaws : enc.laws = lawsOf enc.shapeLaws (l.flatMap Reached.parts)) (x : Reached) :
    (enc.reach x).laws = lawsOf enc.shapeLaws ((l ++ [x]).flatMap Reached.parts) := by
  have hrank : ∀ r, enc.ranks.contains r = true ↔ .rank r ∈ l.flatMap Reached.parts := by
    intro r
    rw [h.ranks, Reached.rank_mem_parts_iff]
  have hdim : ∀ a, enc.dims.contains a = true ↔ .dim a ∈ l.flatMap Reached.parts := by
    intro a
    rw [h.dims, Reached.dim_mem_parts_iff]
  rw [List.flatMap_append]
  cases x with
  | rank r => exact laws_reachRank (hrank r) hlaws
  | dim a =>
    have hparts : [Reached.dim a].flatMap Reached.parts = [.rank a.register] ++ [.dim a] := rfl
    rw [hparts, ← List.append_assoc, reach, reachDim]
    split
    · -- A dimension that is known has reached its rank before, and nothing is added.
      next hknown =>
      have hregister : .rank a.register ∈ l.flatMap Reached.parts :=
        (Reached.rank_mem_parts_iff ..).2 ⟨_, (h.dims a).1 hknown, rfl⟩
      rw [lawsOf_concat_of_mem _ (List.mem_append_left _ ((hdim a).1 hknown)),
        lawsOf_concat_of_mem _ hregister, hlaws]
    · next hnew =>
      have hfresh : .dim a ∉ l.flatMap Reached.parts ++ [.rank a.register] := by
        simpa using mt (hdim a).2 hnew
      rw [lawsOf_concat_of_not_mem _ hfresh, ← laws_reachRank (hrank a.register) hlaws]
      simp only [shapeLaws_reachRank]
      rfl

/-- A step adds the obligations of an axis that it reaches first, even if all that were made before
it have been handed out. -/
theorem obligations_reach {enc : Encoder} {l : List Reached} {handed : List Formula}
    (h : enc.Tracks l)
    (hobligations : handed ++ enc.obligations =
      obligationsOf enc.shapeLaws (l.filterMap Reached.axis?)) (x : Reached) :
    handed ++ (enc.reach x).obligations =
      obligationsOf enc.shapeLaws ((l ++ [x]).filterMap Reached.axis?) := by
  rw [List.filterMap_append]
  cases x with
  | rank r =>
    have haxes : [Reached.rank r].filterMap Reached.axis? = [] := rfl
    rw [haxes, List.append_nil, reach, obligations_reachRank, hobligations]
  | dim a =>
    have haxes : [Reached.dim a].filterMap Reached.axis? = [a] := rfl
    have hknown : enc.dims.contains a = true ↔ a ∈ l.filterMap Reached.axis? := by
      rw [h.dims, Reached.mem_axes_iff]
    rw [haxes, reach, reachDim]
    split
    · next hmem => rw [obligationsOf_concat_of_mem _ (hknown.1 hmem), hobligations]
    · next hnew =>
      rw [obligationsOf_concat_of_not_mem _ (mt hknown.2 hnew), ← hobligations]
      simp only [shapeLaws_reachRank, obligations_reachRank]
      split <;> simp

/-! ### Histories -/

/-- The laws and the obligations, handed out or not, are those of what was reached. -/
structure Collects (shapeLaws : Bool) (enc : Encoder) (handed : List Formula) (l : List Reached) :
    Prop where
  shapeLaws_eq : enc.shapeLaws = shapeLaws
  tracks : enc.Tracks l
  laws : enc.laws = lawsOf enc.shapeLaws (l.flatMap Reached.parts)
  obligations : handed ++ enc.obligations =
    obligationsOf enc.shapeLaws (l.filterMap Reached.axis?)

theorem collects_start (shapeLaws : Bool) : Collects shapeLaws (start shapeLaws) [] [] where
  shapeLaws_eq := rfl
  tracks := tracks_start shapeLaws
  laws := by cases shapeLaws <;> rfl
  obligations := by cases shapeLaws <;> rfl

/-- What is reached next is collected once. -/
theorem Collects.reach {shapeLaws : Bool} {enc : Encoder} {handed : List Formula}
    {l : List Reached} (x : Reached) (h : Collects shapeLaws enc handed l) :
    Collects shapeLaws (enc.reach x) handed (l ++ [x]) where
  shapeLaws_eq := by rw [shapeLaws_reach, h.shapeLaws_eq]
  tracks := h.tracks.reach x
  laws := by rw [shapeLaws_reach, laws_reach h.tracks h.laws]
  obligations := by rw [shapeLaws_reach, obligations_reach h.tracks h.obligations]

/-- Obligations that are taken are not made again: they are remembered as reached. -/
theorem Collects.takeObligations {shapeLaws : Bool} {enc : Encoder} {handed : List Formula}
    {l : List Reached} (h : Collects shapeLaws enc handed l) :
    Collects shapeLaws enc.takeObligations.2 (handed ++ enc.takeObligations.1) l where
  shapeLaws_eq := h.shapeLaws_eq
  tracks := ⟨h.tracks.ranks, h.tracks.dims, h.tracks.laws⟩
  laws := h.laws
  obligations := by simpa [Encoder.takeObligations] using h.obligations

end Encoder

namespace Translator

/-- With the laws of shapes on, and after any calls, there is one law for each register of which the
rank or a dimension was reached, one for each dimension that was reached, and nothing else. The
obligations that were handed out, and then those that were not, are those of each axis that was
reached, once, in the order of first reach. With the laws of shapes off there are none. -/
theorem sideConditions_once (calls : List Call) :
    (∃ items : List Reached, items.Nodup ∧
      (∀ r, .rank r ∈ items ↔ ∃ x ∈ calls.flatMap Call.reached, x.register = r) ∧
      (∀ a, .dim a ∈ items ↔ .dim a ∈ calls.flatMap Call.reached) ∧
      (InUse.after true calls).translator.laws = items.map Reached.law) ∧
    (InUse.after true calls).handed ++ (InUse.after true calls).translator.obligations =
      ((calls.flatMap Call.reached).filterMap Reached.axis?).eraseDups.flatMap
        Encoder.axisObligations ∧
    (InUse.after false calls).translator.laws = [] ∧
    (InUse.after false calls).handed = [] ∧
    (InUse.after false calls).translator.obligations = [] := by
  have hcollects (shapeLaws : Bool) := InUse.after_invariant (P := Encoder.Collects shapeLaws)
    Encoder.Collects.reach Encoder.Collects.takeObligations shapeLaws calls
    (Encoder.collects_start shapeLaws)
  obtain ⟨enc, handed, hafter, h⟩ := hcollects true
  obtain ⟨encOff, handedOff, hafterOff, hOff⟩ := hcollects false
  rw [hafter, hafterOff]
  have hlaws := h.laws
  have hobligations := h.obligations
  have hlawsOff := hOff.laws
  have hobligationsOff := hOff.obligations
  rw [h.shapeLaws_eq] at hlaws hobligations
  rw [hOff.shapeLaws_eq] at hlawsOff hobligationsOff
  refine ⟨⟨_, nodup_eraseDups _, fun r => ?_, fun a => ?_, hlaws⟩, hobligations, hlawsOff,
    List.append_eq_nil_iff.1 hobligationsOff⟩
  · rw [List.mem_eraseDups, Reached.rank_mem_parts_iff]
  · rw [List.mem_eraseDups, Reached.dim_mem_parts_iff]

end Translator

end TensorShape
