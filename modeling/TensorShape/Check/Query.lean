import TensorShape.Check.Witness
import TensorShape.Report

/-!
# TensorShape.Check.Query

Questions about symbolic values, as formulas for a solver.

* `Query.entailment`: do the goals hold whenever the assumptions do? Dimensions that the assumptions
  speak of are taken to be there; those that only the goals speak of have to be there for the goals
  to hold.
* `Query.consistency`: can all facts hold at once?

A fact or assumption that cannot be encoded is dropped; what it reached before it failed stays
reached.
-/

namespace TensorShape

structure Query where
  /-- The encoded facts or assumptions, and their obligations. -/
  premises : List Formula
  /-- The encoded goals and their obligations, if the question has goals. -/
  goals : Option (List Formula)
  encoder : Encoder

/-- The facts that can be encoded. -/
def encodable (facts : List Value) : List Formula := facts.filterMap fun v => v.asFact.toOption

/-- What the log says of the facts that cannot. -/
def droppedEvents (facts : List Value) : List Event :=
  facts.filterMap fun v =>
    match v.asFact with
    | .ok _ => none
    | .error e => some (.factDropped v e.message)

/-- The formulas of goals, or the error of the first goal that cannot be encoded. -/
def encodeGoals (goals : List Value) : Except EncodingError (List Formula) := goals.mapM Value.asFact

namespace Query

/-- The premises of a question, and the encoder that reached them. -/
def assume (shapeLaws : Bool) (facts : List Value) : List Formula × Encoder :=
  let enc := (Encoder.start shapeLaws).reachAll (facts.flatMap Value.reachedAsFact)
  let (obligations, enc) := enc.takeObligations
  (encodable facts ++ obligations, enc)

def entailment (shapeLaws : Bool) (assumptions goals : List Value) : Except EncodingError Query := do
  let (premises, enc) := assume shapeLaws assumptions
  let formulas ← encodeGoals goals
  let (obligations, enc) := (enc.reachAll (goals.flatMap Value.reachedAsFact)).takeObligations
  return ⟨premises, some (formulas ++ obligations), enc⟩

def consistency (shapeLaws : Bool) (facts : List Value) : Query :=
  let (premises, enc) := assume shapeLaws facts
  ⟨premises, none, enc⟩

/-- The premises with all laws. -/
def background (q : Query) : List Formula := q.premises ++ q.encoder.laws

/-- What is put to the solver: the premises, all laws, and that some goal fails. -/
def assertions (q : Query) : List Formula :=
  q.background ++
    match q.goals with
    | none => []
    | some goals => [.not (.conj goals)]

/-! ## What the premises settle -/

/-- For each reached rank and dimension, the value that the premises and the laws force, or `none`
if they leave more than one. Those that no model gives a 64-bit word are left out. -/
structure Settled where
  ranks : List (Register × Option Int64)
  dims : List (Axis × Option Int64)

/-- The value of one term, `none` if it is never a word; `m` is a model of what is put to the
solver, and so of the premises. -/
def settledTerm (solver : Solver) (q : Query) (m : Model) (t : Term) : Option (Option Int64) :=
  if solver.canFit q.assertions m t then some ((solver.forced? q.background m t).bind word?)
  else none

/-- What is settled, if the solver gives a model of what is put to it. -/
def settled (solver : Solver) (q : Query) : Settled :=
  match solver q.assertions with
  | .sat (some m) =>
    { ranks := q.encoder.ranks.keys.filterMap fun r =>
        (q.settledTerm solver m (rankTerm r)).map (r, ·)
      dims := q.encoder.dims.keys.filterMap fun a =>
        (q.settledTerm solver m (dimTerm a)).map (a, ·) }
  | _ => ⟨[], []⟩

end Query

end TensorShape
