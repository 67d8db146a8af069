import TensorShape.Check.Translator
import TensorShape.Proofs.Kinds
import TensorShape.Proofs.Tables

/-!
# TensorShape.Proofs.Translation

A translator encodes.

An encoding depends on the value alone, and an encoder keeps track of what was reached. A translator
hands out terms that it has made before. As long as it has made them itself they are the right ones:
its tables are those of an encoder, filled with the term of each key (`Translator.filled`), and
every action leads from such a translator to such a translator.

* `Translator.run_rank`, `Translator.run_dim`: a term is the one of its key, made now or before;
* `Translator.run_side`, `Translator.run_fact`: a value is translated to its encoding, and what was
  made before an error is what the encoding reaches;
* `Translator.fact_exact`: which facts are translated, and to what, after any calls.
-/

namespace TensorShape

/-! ## Memos of pure makers -/

/-- The memo that has made the values of some keys, when what is made depends on the key alone. -/
def Memo.filled {κ α : Type} [KeyOrder κ] (f : κ → α) (keys : Table κ Unit) : Memo Unit κ α :=
  ⟨fun _ k => (f k, ()), (), keys.fill f⟩

theorem Memo.lookup_filled {κ α : Type} [KeyOrder κ] [DecidableEq κ] (f : κ → α)
    (keys : Table κ Unit) (k : κ) :
    (Memo.filled f keys).lookup k = (keys.get? k).map fun _ => f k :=
  keys.get?_fill f k

/-- A get from a filled table hands out the value of the key, and the key is there then. -/
theorem Memo.get_filled {κ α : Type} [KeyOrder κ] [DecidableEq κ] (f : κ → α)
    (keys : Table κ Unit) (k : κ) :
    (Memo.filled f keys).get k = (f k, Memo.filled f (keys.withKey k)) := by
  unfold Memo.get Table.withKey Table.contains
  rw [lookup_filled]
  cases h : keys.get? k with
  | some u => rfl
  | none => simp [Memo.filled, Table.fill_insert]

/-! ## Filled translators -/

/-- The registers of which a dimension is known. -/
def dimRegisters (dims : Table Axis Unit) : NameSet := NameSet.ofList (dims.keys.map Axis.register)

/-- A dimension brings the register of its axis. -/
theorem dimRegisters_insert (dims : Table Axis Unit) (a : Axis) :
    dimRegisters (dims.insert a ()) = (dimRegisters dims).withKey a.register := by
  refine NameSet.ext_keys fun name => ?_
  simp only [dimRegisters, Table.mem_keys_withKey_iff, NameSet.mem_keys_ofList_iff, List.mem_map,
    Table.mem_keys_insert_iff, or_and_right, exists_or, exists_eq_left']

theorem Encoder.reachAll_append (enc : Encoder) (l l' : List Reached) :
    enc.reachAll (l ++ l') = (enc.reachAll l).reachAll l' := List.foldl_append

/-- An equality is encoded as a side as it is as a fact. -/
theorem Value.asSide_equals_eq_map (a b : Value) :
    (equals a b).asSide = (equals a b).asFact.map .formula := by
  cases h : (equals a b).asSide with
  | error e => simp only [asFact, h]; rfl
  | ok s =>
    obtain ⟨t, u, -, -, rfl⟩ | ⟨f, g, -, -, rfl⟩ := asSide_equals_eq_ok h <;>
      simp only [asFact, h] <;> rfl

/-- With the laws of shapes off, a model is as good as the tensors it gives. -/
theorem Tensors.agree_ofModel_false (m : Model) (x : Reached) :
    x.Agree m (ofModel false m).tensor :=
  agree_ofModel fun hlaws => absurd hlaws Bool.false_ne_true

namespace Translator

/-- The translator that has made the terms of all that an encoder has reached. -/
def filled (enc : Encoder) : Translator where
  shapeLaws := enc.shapeLaws
  ranks := .filled rankTerm enc.ranks
  shapes := .filled shapeSymbol (dimRegisters enc.dims)
  dims := enc.dims.fill dimTerm
  laws := enc.laws
  obligations := enc.obligations

theorem filled_start (shapeLaws : Bool) : filled (.start shapeLaws) = start shapeLaws := rfl

/-- How an action ends: with what was encoded, and all the terms made that were reached. -/
def ended {α : Type} :
    Except EncodingError α × Encoder → EStateM.Result EncodingError Translator α
  | (.ok a, enc) => .ok a (filled enc)
  | (.error e, enc) => .error e (filled enc)

/-- The term of a rank is the one of its register, made now or before. The memo of symbols plays no
part in it. -/
theorem run_rank (enc : Encoder) (shapes : Memo Unit Register Symbol) (r : Register) :
    (rank r).run { filled enc with shapes := shapes } =
      .ok (rankTerm r) { filled (enc.reachRank r) with shapes := shapes } := by
  unfold rank
  rw [EStateM.run_modifyGet]
  obtain h | ⟨_, h⟩ := (enc.ranks.get? r).eq_none_or_eq_some <;>
    simp [filled, Memo.get_filled, Memo.lookup_filled, Encoder.reachRank, Table.withKey,
      Table.contains, h]

/-- The symbol of a sequence of extents is kept in place. -/
theorem run_shape (enc : Encoder) (r : Register) :
    (shape r).run (filled enc) =
      .ok (shapeSymbol r)
        { filled enc with shapes := .filled shapeSymbol ((dimRegisters enc.dims).withKey r) } := by
  unfold shape
  rw [EStateM.run_modifyGet]
  simp only [filled, Memo.get_filled]

/-- A dimension in place is the dimension that is encoded, and reaches what it reaches. -/
theorem run_dim (enc : Encoder) (a : Axis) :
    (dim a).run (filled enc) = .ok (dimTerm a) (filled (enc.reachDim a)) := by
  have hget : (filled enc).dims.get? a = (enc.dims.get? a).map fun _ => dimTerm a :=
    Table.get?_fill ..
  unfold dim
  rw [EStateM.run_bind, EStateM.run_get]
  simp only [hget]
  obtain h | ⟨_, h⟩ := (enc.dims.get? a).eq_none_or_eq_some
  · -- The symbol is made before the rank, so the rank is made beside a memo of symbols that is ahead.
    have hterm : Term.item (shapeSymbol a.register) (.lit a.index.toInt) = dimTerm a := rfl
    simp only [h, Option.map_none, EStateM.run_bind, run_shape, run_rank, keepDim, EStateM.run_modify,
      EStateM.run_pure]
    simp [Encoder.reachDim, Table.contains, h, filled, dimRegisters_insert, Table.fill_insert, hterm,
      Encoder.axisObligations]
  · simp [h, Encoder.reachDim, Table.contains]

/-- Translating a term in place ends as encoding it does. -/
theorem run_term (enc : Encoder) (v : Value) : (term v).run (filled enc) = ended (enc.term v) := by
  cases v with
  | rankOf r =>
    calc (rank r).run (filled enc)
        = .ok (rankTerm r) { filled (enc.reachRank r) with shapes := (filled enc).shapes } :=
          run_rank enc _ r
      _ = .ok (rankTerm r) (filled (enc.reachRank r)) := by simp [filled]
  | dimOf k r => exact run_dim enc ⟨r, k⟩
  | int _ | shapeOf _ | builtinRef _ | functionRef _ | equals _ _ => rfl

/-- An equality is translated as it is encoded if its sides are. -/
theorem run_fact_equals {a b : Value} (enc : Encoder)
    (ha : ∀ enc, (side a).run (filled enc) = ended (a.asSide, enc.reachAll a.reachedAsSide))
    (hb : ∀ enc, (side b).run (filled enc) = ended (b.asSide, enc.reachAll b.reachedAsSide)) :
    (fact (.equals a b)).run (filled enc) = ended (enc.fact (.equals a b)) := by
  unfold fact
  simp only [EStateM.run_bind, ha, Encoder.fact, Value.asFact, Value.asSide, Value.reachedAsFact,
    Value.reachedAsSide]
  cases a.asSide with
  | error e => simp [ended]
  | ok left =>
    simp only [ended, hb, Encoder.reachAll_append]
    cases b.asSide with
    | error e => rfl
    | ok right => cases left <;> cases right <;> rfl

/-- A side is translated to its encoding, and what was made before an error is what it reaches. -/
theorem run_side (v : Value) (enc : Encoder) :
    (side v).run (filled enc) = ended (v.asSide, enc.reachAll v.reachedAsSide) := by
  induction v generalizing enc with
  | equals a b iha ihb =>
    -- As a side, an equality is translated as a fact is, and its formula is wrapped.
    have hside : side (.equals a b) = fact (.equals a b) >>= fun f => pure (.formula f) := by
      simp [side, fact]
    rw [hside, EStateM.run_bind, run_fact_equals enc iha ihb, Encoder.fact,
      Value.asSide_equals_eq_map]
    cases (Value.equals a b).asFact <;> rfl
  | int _ | rankOf _ | dimOf _ _ | shapeOf _ | builtinRef _ | functionRef _ =>
    simp only [side, EStateM.run_bind, run_term]
    rfl

/-- Translating a fact in place ends as encoding it does. -/
theorem run_fact (enc : Encoder) (v : Value) : (fact v).run (filled enc) = ended (enc.fact v) := by
  cases v with
  | equals a b => exact run_fact_equals enc (run_side a) (run_side b)
  | int _ | rankOf _ | dimOf _ _ | shapeOf _ | builtinRef _ | functionRef _ => rfl

/-! ## Histories -/

/-- What is asked of a translator. -/
inductive Call where
  | fact (v : Value)
  | term (v : Value)
  | take

/-- What a call does, and the obligations that it hands out. -/
def Call.action : Call → Action (List Formula)
  | .fact v => do
    let _ ← Translator.fact v
    return []
  | .term v => do
    let _ ← Translator.term v
    return []
  | .take => takeObligations

/-- What a call reaches. -/
def Call.reached : Call → List Reached
  | .fact v => v.accepted.filterMap Value.reached?
  | .term v => v.reached?.toList
  | .take => []

/-- A translator in use, and the obligations that it has handed out so far. -/
structure InUse where
  translator : Translator
  handed : List Formula

namespace InUse

/-- Serve a call, which may fail. -/
def serve (u : InUse) (c : Call) : InUse :=
  match c.action.run u.translator with
  | .ok handed t => ⟨t, u.handed ++ handed⟩
  | .error _ t => ⟨t, u.handed⟩

/-- A new translator after some calls. -/
def after (shapeLaws : Bool) (calls : List Call) : InUse :=
  calls.foldl serve ⟨start shapeLaws, []⟩

/-- A call for a fact reaches what the fact reaches, whether it succeeds or not. -/
theorem serve_fact (enc : Encoder) (handed : List Formula) (v : Value) :
    serve ⟨filled enc, handed⟩ (.fact v) =
      ⟨filled (enc.reachAll (Call.fact v).reached), handed⟩ := by
  simp only [serve, Call.action, EStateM.run_bind, run_fact, Encoder.fact, Call.reached,
    ← Value.reachedAsFact_eq]
  cases v.asFact <;> simp [ended]

/-- A call for a term reaches what the term reaches, whether it succeeds or not. -/
theorem serve_term (enc : Encoder) (handed : List Formula) (v : Value) :
    serve ⟨filled enc, handed⟩ (.term v) =
      ⟨filled (enc.reachAll (Call.term v).reached), handed⟩ := by
  have hreached : (Call.term v).reached = v.reachedAsTerm := by cases v <;> rfl
  simp only [serve, Call.action, EStateM.run_bind, run_term, Encoder.term, hreached]
  cases v.asTerm <;> simp [ended]

theorem serve_take (enc : Encoder) (handed : List Formula) :
    serve ⟨filled enc, handed⟩ .take =
      ⟨filled enc.takeObligations.2, handed ++ enc.takeObligations.1⟩ := rfl

section Invariants

variable {P : Encoder → List Formula → List Reached → Prop}
  (reach : ∀ {enc handed l} (x : Reached), P enc handed l → P (enc.reach x) handed (l ++ [x]))
  (take : ∀ {enc handed l}, P enc handed l →
    P enc.takeObligations.2 (handed ++ enc.takeObligations.1) l)

include reach in
/-- What each reach keeps is kept by all of them. -/
theorem reachAll_invariant {enc : Encoder} {handed : List Formula} {l : List Reached}
    (h : P enc handed l) (l' : List Reached) : P (enc.reachAll l') handed (l ++ l') := by
  induction l' generalizing enc l with
  | nil => simpa using h
  | cons x l' ih =>
    have hrun := ih (reach x h)
    rwa [List.append_assoc] at hrun

include reach take in
/-- What one call keeps. -/
theorem serve_invariant {enc : Encoder} {handed : List Formula} {l : List Reached}
    (h : P enc handed l) (c : Call) :
    ∃ enc' handed', serve ⟨filled enc, handed⟩ c = ⟨filled enc', handed'⟩ ∧
      P enc' handed' (l ++ c.reached) := by
  cases c with
  | fact v => exact ⟨_, _, serve_fact enc handed v, reachAll_invariant reach h _⟩
  | term v => exact ⟨_, _, serve_term enc handed v, reachAll_invariant reach h _⟩
  | take => exact ⟨_, _, serve_take enc handed, by simpa [Call.reached] using take h⟩

include reach take in
/-- What every history keeps: a relation between an encoder, the obligations that were handed out
and what was reached holds if each thing reached keeps it, and taking the obligations does. -/
theorem after_invariant (shapeLaws : Bool) (calls : List Call)
    (start : P (.start shapeLaws) [] []) :
    ∃ enc handed, after shapeLaws calls = ⟨filled enc, handed⟩ ∧
      P enc handed (calls.flatMap Call.reached) := by
  -- The induction is on the calls, from any state that they may find.
  suffices hrun : ∀ enc handed l, P enc handed l →
      ∃ enc' handed', calls.foldl serve ⟨filled enc, handed⟩ = ⟨filled enc', handed'⟩ ∧
        P enc' handed' (l ++ calls.flatMap Call.reached) from hrun _ _ _ start
  induction calls with
  | nil => exact fun enc handed l h => ⟨enc, handed, rfl, by simpa using h⟩
  | cons c calls ih =>
    intro enc handed l h
    obtain ⟨enc', handed', hserve, h'⟩ := serve_invariant reach take h c
    rw [List.foldl_cons, hserve, List.flatMap_cons, ← List.append_assoc]
    exact ih enc' handed' _ h'

end Invariants

/-- After any calls the translator holds what some encoder has reached. -/
theorem exists_translator_eq_filled (shapeLaws : Bool) (calls : List Call) :
    ∃ enc, (after shapeLaws calls).translator = filled enc := by
  obtain ⟨enc, handed, hafter, -⟩ :=
    after_invariant (P := fun _ _ _ => True) (fun _ _ => trivial) (fun _ => trivial) shapeLaws calls
      trivial
  exact ⟨enc, by rw [hafter]⟩

end InUse

/-! ## Facts -/

theorem ended_eq_ok_iff {α : Type} (p : Except EncodingError α × Encoder) (a : α) :
    (∃ t, ended p = .ok a t) ↔ p.1 = .ok a := by
  obtain ⟨result, enc⟩ := p
  cases result <;> simp [ended]

theorem ended_eq_error_iff {α : Type} (p : Except EncodingError α × Encoder) (e : EncodingError) :
    (∃ t, ended p = .error e t) ↔ p.1 = .error e := by
  obtain ⟨result, enc⟩ := p
  cases result <;> simp [ended]

/-- Whatever was translated before: a translator accepts integer literals and well-kinded equalities,
and nothing else. The formula of a fact is true of an assignment of tensors, and in a model, if and
only if the fact is. An error names the first part of the fact, in post-order, that is refused. -/
theorem fact_exact (shapeLaws : Bool) (calls : List Call) (v : Value) :
    ((∃ f t, (fact v).run (InUse.after shapeLaws calls).translator = .ok f t) ↔
      (∃ k, v = .int k) ∨ v.WellKinded) ∧
    (∀ f t, (fact v).run (InUse.after shapeLaws calls).translator = .ok f t →
      (∀ τ : Tensors false, f.eval τ.model = v.truth τ.tensor) ∧
      ∀ m, f.eval m = v.truth (Tensors.ofModel false m).tensor) ∧
    ∀ e t, (fact v).run (InUse.after shapeLaws calls).translator = .error e t →
      ∃ before bad after position, v.postorder = before ++ bad :: after ∧
        (∀ part ∈ before, v.refusal? part = none) ∧
        v.refusal? bad = some position ∧ e = .unsupported bad position := by
  obtain ⟨enc, hafter⟩ := InUse.exists_translator_eq_filled shapeLaws calls
  simp only [hafter, run_fact, ended_eq_ok_iff]
  refine ⟨v.encodable_iff_wellKinded, fun f t hrun => ?_, fun e t hrun => ?_⟩
  · have hfact : v.asFact = .ok f := (ended_eq_ok_iff _ f).1 ⟨t, hrun⟩
    exact ⟨fun τ => Value.eval_eq_truth hfact fun x _ => τ.agree_model x,
      fun m => Value.eval_eq_truth hfact fun x _ => Tensors.agree_ofModel_false m x⟩
  · have hfact : v.asFact = .error e := (ended_eq_error_iff _ e).1 ⟨t, hrun⟩
    obtain ⟨before, bad, after, hparts, hbad, hbefore⟩ :=
      List.findSome?_eq_some_iff.1 ((v.asFact_eq_error_iff e).1 hfact)
    obtain ⟨position, hposition, he⟩ := Option.map_eq_some_iff.1 hbad
    exact ⟨before, bad, after, position, hparts, by simpa using hbefore, hposition, he.symm⟩

/-- A fact that fails halfway leaves an extent behind, which the next facts speak of. -/
theorem fact_exact_after_failure :
    let failing := Value.equals (.equals (.dimOf (-1) "%x") (.int 3)) (.shapeOf "%y")
    let fact := Value.equals (.equals (.dimOf (-1) "%x") (.int 3)) (.equals (.int 0) (.rankOf "%x"))
    let t := (InUse.after true [.fact failing, .take, .term (.rankOf "%x")]).translator
    (∃ f t', (Translator.fact fact).run t = .ok f t' ∧
      ∀ m, f.eval m = fact.truth (Tensors.ofModel false m).tensor) ∧
    ∃ e t', (Translator.fact failing).run t = .error e t' ∧
      ∃ before bad after position, failing.postorder = before ++ bad :: after ∧
        (∀ part ∈ before, failing.refusal? part = none) ∧
        failing.refusal? bad = some position ∧ e = .unsupported bad position := by
  intro failing fact t
  have hfact : fact.WellKinded := .equalities (.integers rfl rfl) (.integers rfl rfl)
  have hfailing : ¬((∃ k, failing = .int k) ∨ failing.WellKinded) := by
    rw [← failing.encodable_iff_wellKinded]
    rintro ⟨f, hf⟩
    have herror : failing.asFact = .error (.unsupported (.shapeOf "%y") "an integer") := rfl
    rw [herror] at hf
    cases hf
  constructor
  · obtain ⟨f, t', hrun⟩ := (fact_exact _ _ fact).1.2 (.inr hfact)
    exact ⟨f, t', hrun, ((fact_exact _ _ fact).2.1 f t' hrun).2⟩
  · cases hrun : (Translator.fact failing).run t with
    | ok f t' => exact absurd ((fact_exact _ _ failing).1.1 ⟨f, t', hrun⟩) hfailing
    | error e t' => exact ⟨e, t', rfl, (fact_exact _ _ failing).2.2 e t' hrun⟩

end Translator

end TensorShape
