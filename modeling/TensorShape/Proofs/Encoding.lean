import TensorShape.Check.Encoding
import TensorShape.Proofs.Meaning

/-!
# TensorShape.Proofs.Encoding

What an encoding says of tensors.

The formulas of an encoding speak of unknowns `rank(r)` and `shape(r)`, one of each for every tensor
in a register. A model of the unknowns and an assignment of tensors *agree* on a rank or a dimension
if they give it the same number (`Reached.Agree`). Where they agree on all that was reached, a
formula is true in the model if and only if its value holds of the tensors
(`Value.holds_iff_of_asFact`).

Every assignment comes from a model (`Tensors.agree_model`), and every model that meets the laws
gives an assignment (`Tensors.agree_ofModel`): a rank or an extent that nothing reached is free, so
it can be made not negative.

What an encoder has collected depends on what it reached and not on the order
(`Encoder.Tracks`).
-/

namespace TensorShape

/-! ## Symbols -/

namespace Symbol

/-- The name of a symbol has lost its NUL characters already. -/
@[simp] theorem ofName_name (r : String) : ofName (ofName r).name = ofName r := by
  simp [ofName, List.filter_filter]

/-- Names that are one symbol stay one symbol inside a longer name. -/
theorem ofName_append_congr {r s : String} (before after : String) (h : ofName r = ofName s) :
    ofName (before ++ r ++ after) = ofName (before ++ s ++ after) := by
  have hfilter := String.ofList_inj.1 (Symbol.mk.inj h)
  simp only [ofName, String.toList_append, List.filter_append, hfilter]

/-- What stands between a text and the last character of a symbol. -/
def inner (before : String) (s : Symbol) : String :=
  String.ofList (s.name.toList.drop before.length).dropLast

/-- A symbol gives back the name in its brackets, up to NUL characters. -/
theorem ofName_inner {before : String}
    (hbefore : before.toList.filter (fun c => c.toNat ≠ 0) = before.toList) (r : String) :
    ofName (inner before (ofName (before ++ r ++ ")"))) = ofName r := by
  have hclose : ")".toList.filter (fun c => c.toNat ≠ 0) = [')'] := by decide
  have hinner : inner before (ofName (before ++ r ++ ")")) =
      String.ofList (r.toList.filter fun c => c.toNat ≠ 0) := by
    simp only [inner, ofName, String.toList_append, List.filter_append, hbefore, hclose,
      String.toList_ofList, List.append_assoc]
    rw [← String.length_toList, List.drop_left, List.dropLast_concat]
  rw [hinner]
  simp [ofName, List.filter_filter]

end Symbol

/-! ## Truth of formulas -/

namespace Formula

@[simp] theorem eval_eq_iff (m : Model) (a b : Term) :
    (Formula.eq a b).eval m = true ↔ a.eval m = b.eval m := by simp [Formula.eval]

@[simp] theorem eval_gt_iff (m : Model) (a b : Term) :
    (Formula.gt a b).eval m = true ↔ b.eval m < a.eval m := by simp [Formula.eval]

@[simp] theorem eval_not_iff (m : Model) (f : Formula) :
    (Formula.not f).eval m = true ↔ ¬f.eval m = true := by simp [Formula.eval]

/-- A conjunction is true if all its formulas are. -/
@[simp] theorem eval_conj_iff (m : Model) (fs : List Formula) :
    (Formula.conj fs).eval m = true ↔ m.Satisfies fs := by
  cases fs with
  | nil => simp [conj, Formula.eval, Model.Satisfies]
  | cons f fs => exact evalAll_eq_true_iff m (f :: fs)

end Formula

@[simp] theorem Model.satisfies_singleton {m : Model} {f : Formula} :
    m.Satisfies [f] ↔ f.eval m = true :=
  List.forall_mem_singleton

@[simp] theorem Model.satisfies_append {m : Model} {fs gs : List Formula} :
    m.Satisfies (fs ++ gs) ↔ m.Satisfies fs ∧ m.Satisfies gs :=
  List.forall_mem_append

/-! ## Assignments of tensors -/

/-- Ranks and extents of a tensor are not negative. -/
structure Tensor.Proper (t : Tensor) : Prop where
  rank_nonneg : 0 ≤ t.rank
  extent_nonneg : ∀ i, 0 ≤ t.extent i

/-- The axis is one of the axes of its tensor. -/
def Axis.Within (τ : Register → Tensor) (a : Axis) : Prop :=
  0 ≤ a.index.toInt ∧ a.index.toInt < (τ a.register).rank

/-- A tensor for each register. Registers that are one symbol hold one tensor; with the laws of
shapes on, the tensors are proper. -/
structure Tensors (shapeLaws : Bool) where
  tensor : Register → Tensor
  tensor_congr : ∀ {r s}, Symbol.ofName r = Symbol.ofName s → tensor r = tensor s
  proper : shapeLaws = true → ∀ r, (tensor r).Proper

/-- The axes a value speaks of, from left to right. -/
def Value.axes : Value → List Axis
  | .dimOf k r => [⟨r, k⟩]
  | .equals a b => a.axes ++ b.axes
  | _ => []

namespace Tensors

variable {shapeLaws : Bool}

/-- The registers hold their tensors. -/
def data (τ : Tensors shapeLaws) (r : Register) : Datum := .tensor (τ.tensor r)

/-- The value holds and, with the laws of shapes on, the axes it speaks of are there. -/
structure Satisfies (τ : Tensors shapeLaws) (v : Value) : Prop where
  holds : v.Holds τ.data
  within : shapeLaws = true → ∀ a ∈ v.axes, a.Within τ.tensor

end Tensors

/-! ## Agreement of models and assignments -/

namespace Reached

/-- The model and the tensors give the same number. A dimension brings the rank of its tensor. -/
def Agree (m : Model) (τ : Register → Tensor) : Reached → Prop
  | .rank r => (rankTerm r).eval m = (τ r).rank
  | .dim a => (rankTerm a.register).eval m = (τ a.register).rank ∧
      (dimTerm a).eval m = (τ a.register).extent a.index.toInt

/-- In the model the laws of shapes hold of what was reached. -/
def Lawful (m : Model) : Reached → Prop
  | .rank r => 0 ≤ (rankTerm r).eval m
  | .dim a => 0 ≤ (rankTerm a.register).eval m ∧ 0 ≤ (dimTerm a).eval m

end Reached

namespace Tensors

variable {shapeLaws : Bool}

/-- The model in which the unknowns are the ranks and extents of the tensors. -/
def model (τ : Tensors shapeLaws) : Model where
  int s := (τ.tensor (s.inner "rank(")).rank
  seq s := (τ.tensor (s.inner "shape(")).extent
  divZero n := n

/-- In the model that tensors make, the term of a rank has the rank as its value. -/
@[simp] theorem eval_rankTerm_model (τ : Tensors shapeLaws) (r : Register) :
    (rankTerm r).eval τ.model = (τ.tensor r).rank :=
  congrArg Tensor.rank (τ.tensor_congr (Symbol.ofName_inner (by decide) r))

/-- In the model that tensors make, the term of a dimension has the extent as its value. -/
@[simp] theorem eval_dimTerm_model (τ : Tensors shapeLaws) (a : Axis) :
    (dimTerm a).eval τ.model = (τ.tensor a.register).extent a.index.toInt :=
  congrArg (fun t => t.extent a.index.toInt)
    (τ.tensor_congr (Symbol.ofName_inner (by decide) a.register))

/-- Tensors and the model that they make agree on whatever was reached. -/
theorem agree_model (τ : Tensors shapeLaws) (x : Reached) : x.Agree τ.model τ.tensor := by
  cases x with
  | rank r => exact τ.eval_rankTerm_model r
  | dim a => exact ⟨τ.eval_rankTerm_model a.register, τ.eval_dimTerm_model a⟩

/-- The laws hold in the model that tensors make. -/
theorem lawful_model (τ : Tensors shapeLaws) (hlaws : shapeLaws = true) (x : Reached) :
    x.Lawful τ.model := by
  cases x with
  | rank r =>
    rw [Reached.Lawful, eval_rankTerm_model]
    exact (τ.proper hlaws r).rank_nonneg
  | dim a =>
    rw [Reached.Lawful, eval_rankTerm_model, eval_dimTerm_model]
    exact ⟨(τ.proper hlaws a.register).rank_nonneg, (τ.proper hlaws a.register).extent_nonneg _⟩

/-- A number that the laws of shapes let pass: with the laws on, negative ones become zero. -/
def clamp (shapeLaws : Bool) (n : Int) : Int := if shapeLaws then max n 0 else n

theorem clamp_nonneg (h : shapeLaws = true) (n : Int) : 0 ≤ clamp shapeLaws n := by
  simp only [clamp, h, if_true]
  omega

/-- Where the laws hold, clamping changes nothing. -/
theorem clamp_of_nonneg {n : Int} (h : shapeLaws = true → 0 ≤ n) : clamp shapeLaws n = n := by
  unfold clamp
  split
  · have := h ‹_›
    omega
  · rfl

/-- The tensors of a model. -/
def ofModel (shapeLaws : Bool) (m : Model) : Tensors shapeLaws where
  tensor r :=
    { rank := clamp shapeLaws ((rankTerm r).eval m)
      extent := fun i => clamp shapeLaws (m.seq (.ofName ("shape(" ++ r ++ ")")) i) }
  tensor_congr {r s} h := by
    have hrank : rankTerm r = rankTerm s :=
      congrArg Term.var (Symbol.ofName_append_congr "rank(" ")" h)
    rw [hrank, Symbol.ofName_append_congr "shape(" ")" h]
  proper h r := ⟨clamp_nonneg h _, fun _ => clamp_nonneg h _⟩

/-- A model and the tensors that are read out of it agree on what was reached, as far as the laws
hold of it. -/
theorem agree_ofModel {m : Model} {x : Reached} (h : shapeLaws = true → x.Lawful m) :
    x.Agree m (ofModel shapeLaws m).tensor := by
  cases x with
  | rank r => exact (clamp_of_nonneg h).symm
  | dim a =>
    exact ⟨(clamp_of_nonneg fun hlaws => (h hlaws).1).symm,
      (clamp_of_nonneg fun hlaws => (h hlaws).2).symm⟩

end Tensors

/-! ## Truth of encodings -/

/-- The value has an encoding as a fact. -/
def Value.Encodable (v : Value) : Prop := ∃ f, v.asFact = .ok f

/-- What a side of an equality comes to in a model. -/
def Side.datum (m : Model) : Side → Datum
  | .term t => .int (t.eval m)
  | .formula f => .bool (f.eval m)

namespace Value

variable {m : Model} {τ : Register → Tensor}

/-- An equality of encoded sides has both sides encoded, and by the same kind. -/
theorem asSide_equals_eq_ok {a b : Value} {s : Side} (h : (equals a b).asSide = .ok s) :
    (∃ t u, a.asSide = .ok (.term t) ∧ b.asSide = .ok (.term u) ∧ s = .formula (.eq t u)) ∨
    (∃ f g, a.asSide = .ok (.formula f) ∧ b.asSide = .ok (.formula g) ∧
      s = .formula (.iff f g)) := by
  simp only [asSide] at h
  split at h
  · cases h
  · cases h
  · next t u ha hb =>
    cases h
    exact .inl ⟨t, u, ha, hb, rfl⟩
  · next f g ha hb =>
    cases h
    exact .inr ⟨f, g, ha, hb, rfl⟩
  · cases h

/-- If the left side can be encoded, an equation reaches what its two sides reach. -/
theorem reachedAsSide_equals_of_ok {a b : Value} {s : Side} (h : a.asSide = .ok s) :
    (equals a b).reachedAsSide = a.reachedAsSide ++ b.reachedAsSide := by
  simp only [reachedAsSide, h]

/-- An encoded side stands for what it comes to in a model that agrees with the tensors. -/
theorem denote_of_asSide {v : Value} {s : Side} (h : v.asSide = .ok s)
    (hagree : ∀ x ∈ v.reachedAsSide, x.Agree m τ) :
    v.denote (fun r => .tensor (τ r)) = some (s.datum m) := by
  induction v generalizing s with
  | int k =>
    cases h
    rfl
  | rankOf r =>
    cases h
    have hrank : (rankTerm r).eval m = (τ r).rank := hagree (.rank r) (List.mem_singleton.2 rfl)
    simp [denote, Side.datum, hrank]
  | dimOf k r =>
    cases h
    have hdim : (Reached.dim ⟨r, k⟩).Agree m τ := hagree _ (List.mem_singleton.2 rfl)
    simp [denote, Side.datum, hdim.2]
  | shapeOf r => cases h
  | builtinRef b => cases h
  | functionRef name => cases h
  | equals a b iha ihb =>
    have hcases := asSide_equals_eq_ok h
    obtain ⟨sa, ha⟩ : ∃ sa, a.asSide = .ok sa := by
      rcases hcases with ⟨t, _, ha, _⟩ | ⟨f, _, ha, _⟩ <;> exact ⟨_, ha⟩
    rw [reachedAsSide_equals_of_ok ha] at hagree
    have hagreeA := fun x hx => hagree x (List.mem_append_left _ hx)
    have hagreeB := fun x hx => hagree x (List.mem_append_right _ hx)
    rcases hcases with ⟨t, u, ha, hb, rfl⟩ | ⟨f, g, ha, hb, rfl⟩
    · simp only [denote, iha ha hagreeA, ihb hb hagreeB, Side.datum, Formula.eval, Datum.int.injEq]
    · simp only [denote, iha ha hagreeA, ihb hb hagreeB, Side.datum, Formula.eval,
        Datum.bool.injEq, Bool.beq_eq_decide_eq]

/-- A fact that can be encoded is an equality or an integer. -/
theorem asFact_eq_ok {v : Value} {f : Formula} (h : v.asFact = .ok f) :
    (∃ a b, v = .equals a b ∧ v.asSide = .ok (.formula f)) ∨
    (∃ k, v = .int k ∧ f = .not (.eq (.lit k.toInt) (.lit 0))) := by
  cases v with
  | equals a b =>
    simp only [asFact] at h
    split at h
    · next g hg =>
      cases h
      exact .inl ⟨a, b, rfl, hg⟩
    · cases h
    · cases h
  | int k =>
    cases h
    exact .inr ⟨k, rfl, rfl⟩
  | _ => cases h

/-- The formula of a fact is true in a model that agrees with the tensors if and only if the fact
holds of the tensors. -/
theorem holds_iff_of_asFact {v : Value} {f : Formula} (h : v.asFact = .ok f)
    (hagree : ∀ x ∈ v.reachedAsFact, x.Agree m τ) :
    v.Holds (fun r => .tensor (τ r)) ↔ f.eval m = true := by
  rcases asFact_eq_ok h with ⟨a, b, rfl, hside⟩ | ⟨k, rfl, rfl⟩
  · simp [Holds, denote_of_asSide hside hagree, Side.datum]
  · simp [Holds, denote, Term.eval]

/-- An encoded side reaches just the axes it speaks of. -/
theorem dim_mem_reachedAsSide_iff {v : Value} {s : Side} (h : v.asSide = .ok s) (a : Axis) :
    .dim a ∈ v.reachedAsSide ↔ a ∈ v.axes := by
  induction v generalizing s with
  | int k => simp [reachedAsSide, reachedAsTerm, axes]
  | rankOf r => simp [reachedAsSide, reachedAsTerm, axes]
  | dimOf k r => simp [reachedAsSide, reachedAsTerm, axes]
  | shapeOf r => cases h
  | builtinRef b => cases h
  | functionRef name => cases h
  | equals l r ihl ihr =>
    rcases asSide_equals_eq_ok h with ⟨t, u, hl, hr, -⟩ | ⟨f, g, hl, hr, -⟩
    all_goals
      rw [reachedAsSide_equals_of_ok hl, axes, List.mem_append, List.mem_append, ihl hl, ihr hr]

/-- A fact that can be encoded reaches just the axes it speaks of. -/
theorem Encodable.dim_mem_reachedAsFact_iff {v : Value} (h : v.Encodable) (a : Axis) :
    .dim a ∈ v.reachedAsFact ↔ a ∈ v.axes := by
  obtain ⟨f, hf⟩ := h
  rcases asFact_eq_ok hf with ⟨l, r, rfl, hside⟩ | ⟨k, rfl, -⟩
  · exact dim_mem_reachedAsSide_iff hside a
  · simp [reachedAsFact, axes]

end Value

/-! ## What an encoder collects -/

namespace Reached

/-- The register whose rank is reached. -/
def register : Reached → Register
  | .rank r => r
  | .dim a => a.register

/-- The law of a dimension contains the one of its rank. -/
theorem Lawful.rank_nonneg {m : Model} {x : Reached} (h : x.Lawful m) :
    0 ≤ (rankTerm x.register).eval m := by
  cases x with
  | rank r => exact h
  | dim a => exact h.1

end Reached

namespace Encoder

/-- A term is not negative in a model. -/
theorem eval_notNegative_iff (m : Model) (t : Term) :
    (notNegative t).eval m = true ↔ 0 ≤ t.eval m := by
  simp only [notNegative, Formula.eval_gt_iff, Term.eval]
  omega

/-- The obligations of an axis, where model and tensors agree. -/
theorem satisfies_axisObligations_iff {m : Model} {τ : Register → Tensor} {a : Axis}
    (h : (Reached.dim a).Agree m τ) : m.Satisfies (axisObligations a) ↔ a.Within τ := by
  have hrank : (rankTerm a.register).eval m = (τ a.register).rank := h.1
  simp [Model.Satisfies, axisObligations, eval_notNegative_iff, Term.eval, hrank, Axis.Within,
    and_comm]

/-- A law is added where the laws of shapes are on. -/
theorem satisfies_ite_notNegative (m : Model) (shapeLaws : Bool) (fs : List Formula) (t : Term) :
    m.Satisfies (if shapeLaws then fs ++ [notNegative t] else fs) ↔
      m.Satisfies fs ∧ (shapeLaws = true → 0 ≤ t.eval m) := by
  cases shapeLaws with
  | false => simp
  | true => simp [eval_notNegative_iff]

/-! ### One step -/

@[simp] theorem shapeLaws_reachRank (enc : Encoder) (r : Register) :
    (enc.reachRank r).shapeLaws = enc.shapeLaws := by
  unfold reachRank
  split <;> rfl

@[simp] theorem dims_reachRank (enc : Encoder) (r : Register) :
    (enc.reachRank r).dims = enc.dims := by
  unfold reachRank
  split <;> rfl

@[simp] theorem obligations_reachRank (enc : Encoder) (r : Register) :
    (enc.reachRank r).obligations = enc.obligations := by
  unfold reachRank
  split <;> rfl

@[simp] theorem shapeLaws_reach (enc : Encoder) (x : Reached) :
    (enc.reach x).shapeLaws = enc.shapeLaws := by
  cases x with
  | rank r => exact enc.shapeLaws_reachRank r
  | dim a =>
    simp only [reach, reachDim]
    split
    · rfl
    · exact enc.shapeLaws_reachRank a.register

/-- A step makes one dimension known, if it is for a dimension. -/
theorem contains_dims_reach_iff (enc : Encoder) (x : Reached) (a : Axis) :
    (enc.reach x).dims.contains a = true ↔ x = .dim a ∨ enc.dims.contains a = true := by
  cases x with
  | rank r => simp [reach]
  | dim b =>
    simp only [reach, reachDim]
    split
    · next hknown =>
      refine ⟨.inr, fun h => h.elim (fun hb => ?_) id⟩
      cases hb
      exact hknown
    · simp [Table.contains_insert_iff]

/-- The encoder has reached just what is in the list, and has collected its laws. -/
structure Tracks (enc : Encoder) (l : List Reached) : Prop where
  ranks : ∀ r, enc.ranks.contains r = true ↔ ∃ x ∈ l, x.register = r
  dims : ∀ a, enc.dims.contains a = true ↔ .dim a ∈ l
  laws : ∀ m, m.Satisfies enc.laws ↔ (enc.shapeLaws = true → ∀ x ∈ l, x.Lawful m)

theorem tracks_start (shapeLaws : Bool) : (start shapeLaws).Tracks [] where
  ranks r := by simp [start, Table.contains]
  dims a := by simp [start, Table.contains]
  laws m := by simp [start, Model.Satisfies]

/-- Reaching what is known already adds nothing. -/
theorem Tracks.append_known {enc : Encoder} {l : List Reached} (h : enc.Tracks l) {x : Reached}
    (hrank : ∃ y ∈ l, y.register = x.register) (hdim : ∀ a, x = .dim a → .dim a ∈ l) :
    enc.Tracks (l ++ [x]) where
  ranks r := by
    rw [h.ranks]
    constructor
    · rintro ⟨y, hy, hr⟩
      exact ⟨y, List.mem_append_left _ hy, hr⟩
    · rintro ⟨y, hy, hr⟩
      rcases List.mem_append.1 hy with hy | hy
      · exact ⟨y, hy, hr⟩
      · cases List.mem_singleton.1 hy
        rwa [hr] at hrank
  dims a := by
    rw [h.dims]
    refine ⟨List.mem_append_left _, fun ha => ?_⟩
    rcases List.mem_append.1 ha with ha | ha
    · exact ha
    · exact hdim a (List.mem_singleton.1 ha).symm
  laws m := by
    rw [h.laws]
    refine ⟨fun hl hlaws => ?_, fun hl hlaws y hy => hl hlaws y (List.mem_append_left _ hy)⟩
    rw [List.forall_mem_append, List.forall_mem_singleton]
    refine ⟨hl hlaws, ?_⟩
    cases x with
    | rank r =>
      obtain ⟨y, hy, hr⟩ := hrank
      have hnonneg := (hl hlaws y hy).rank_nonneg
      rwa [hr] at hnonneg
    | dim a => exact hl hlaws _ (hdim a rfl)

/-- An encoder keeps track of a rank that is reached. -/
theorem Tracks.reachRank {enc : Encoder} {l : List Reached} (h : enc.Tracks l) (r : Register) :
    (enc.reachRank r).Tracks (l ++ [.rank r]) := by
  unfold Encoder.reachRank
  split
  · next hknown => exact h.append_known ((h.ranks r).1 hknown) (by simp)
  · exact {
      ranks := fun s => by
        simp [Table.contains_insert_iff, h.ranks, or_and_right, exists_or, Reached.register, or_comm]
      dims := fun a => by simp [h.dims]
      laws := fun m => by
        rw [satisfies_ite_notNegative, h.laws, List.forall_mem_append, List.forall_mem_singleton,
          imp_and]
        rfl }

/-- An encoder keeps track of a dimension that is reached, which reaches its rank too. -/
theorem Tracks.reachDim {enc : Encoder} {l : List Reached} (h : enc.Tracks l) (a : Axis) :
    (enc.reachDim a).Tracks (l ++ [.dim a]) := by
  unfold Encoder.reachDim
  split
  · next hknown =>
    have hmem := (h.dims a).1 hknown
    exact h.append_known ⟨_, hmem, rfl⟩ fun b hb => hb ▸ hmem
  · -- The rank is reached first, and stays in the list as part of the dimension.
    have hrank := h.reachRank a.register
    exact {
      ranks := fun s => by
        simp [hrank.ranks, or_and_right, exists_or, Reached.register]
      dims := fun b => by
        simp only [Table.contains_insert_iff, dims_reachRank, h.dims, List.mem_append,
          List.mem_singleton, Reached.dim.injEq]
        exact or_comm.trans (or_congr_right eq_comm)
      laws := fun m => by
        rw [satisfies_ite_notNegative, hrank.laws]
        simp only [List.forall_mem_append, List.forall_mem_singleton, Reached.Lawful, imp_and,
          and_assoc] }

theorem Tracks.reach {enc : Encoder} {l : List Reached} (h : enc.Tracks l) (x : Reached) :
    (enc.reach x).Tracks (l ++ [x]) := by
  cases x with
  | rank r => exact h.reachRank r
  | dim a => exact h.reachDim a

/-- What a step adds to the obligations. -/
theorem satisfies_obligations_reach (enc : Encoder) (x : Reached) (m : Model) :
    m.Satisfies (enc.reach x).obligations ↔ m.Satisfies enc.obligations ∧
      (enc.shapeLaws = true → ∀ a, x = .dim a → ¬enc.dims.contains a = true →
        m.Satisfies (axisObligations a)) := by
  cases x with
  | rank r => simp [reach]
  | dim b =>
    simp only [reach, reachDim]
    split
    · next hknown => simp_all
    · next hnew => cases hl : enc.shapeLaws <;> simp [hl, hnew, Model.satisfies_append]

/-! ### A run of steps -/

@[simp] theorem reachAll_nil (enc : Encoder) : enc.reachAll [] = enc := rfl

@[simp] theorem reachAll_cons (enc : Encoder) (x : Reached) (l : List Reached) :
    enc.reachAll (x :: l) = (enc.reach x).reachAll l := rfl

@[simp] theorem shapeLaws_reachAll (enc : Encoder) (l : List Reached) :
    (enc.reachAll l).shapeLaws = enc.shapeLaws := by
  induction l generalizing enc with
  | nil => rfl
  | cons x l ih => rw [reachAll_cons, ih, shapeLaws_reach]

/-- An encoder keeps track of all that is reached, one after the other. -/
theorem Tracks.reachAll {enc : Encoder} {l : List Reached} (h : enc.Tracks l)
    (l' : List Reached) : (enc.reachAll l').Tracks (l ++ l') := by
  induction l' generalizing enc l with
  | nil => simpa using h
  | cons x l' ih =>
    have hrun := ih (h.reach x)
    rwa [List.append_assoc] at hrun

/-- A run adds the obligations of the dimensions that were not known before it. -/
theorem satisfies_obligations_reachAll (enc : Encoder) (l : List Reached) (m : Model) :
    m.Satisfies (enc.reachAll l).obligations ↔ m.Satisfies enc.obligations ∧
      (enc.shapeLaws = true → ∀ a, .dim a ∈ l → ¬enc.dims.contains a = true →
        m.Satisfies (axisObligations a)) := by
  induction l generalizing enc with
  | nil => simp
  | cons x l ih =>
    rw [reachAll_cons, ih, satisfies_obligations_reach, shapeLaws_reach]
    constructor
    · rintro ⟨⟨hold, hstep⟩, hrest⟩
      refine ⟨hold, fun hlaws a ha hnew => ?_⟩
      by_cases hx : x = .dim a
      · exact hstep hlaws a hx hnew
      · refine hrest hlaws a ((List.mem_cons.1 ha).resolve_left (Ne.symm hx)) ?_
        rw [contains_dims_reach_iff]
        exact fun h => h.elim hx hnew
    · rintro ⟨hold, hall⟩
      refine ⟨⟨hold, fun hlaws a hx hnew => hall hlaws a (hx ▸ List.mem_cons_self ..) hnew⟩, ?_⟩
      intro hlaws a ha hnew
      refine hall hlaws a (List.mem_cons_of_mem _ ha) fun hknown => hnew ?_
      exact (contains_dims_reach_iff ..).2 (.inr hknown)

end Encoder

end TensorShape
