import TensorShape.CallGraph.Environment
import TensorShape.Report

/-!
# TensorShape.CallGraph.Inlining

The facts of a function with its calls filled in.

The registers of the function itself keep their names. At a call, a parameter of the called function
is the operand passed for it, the register it returns, if it returns a single one, is the result of
the call, and every other register is renamed to `callee#n::register`, with a fresh number `n` for
each call that is filled in. A call of a function without a summary, or of one that is being filled
in already, says nothing.
-/

namespace TensorShape

/-! ## Naming -/

/-- How the registers of a function are named where it is filled in. -/
structure Naming where
  /-- The registers that stand for a register of the caller. -/
  bound : Table Register Register
  /-- The text put before every other register. -/
  site : String
deriving DecidableEq

namespace Naming

/-- The naming of the function whose facts are asked for. -/
def root : Naming := ⟨∅, ""⟩

def name (n : Naming) (r : Register) : Register :=
  match n.bound.get? r with
  | some r' => r'
  | none => n.site ++ r

/-- The function itself keeps its names. -/
@[simp] theorem name_root (r : Register) : root.name r = r := by
  simp [root, name]

/-- The naming of `callee` at a call with the given result and operands, in a caller named by
`outer`. A register that is both a parameter and the one returned stands for the operand. -/
def atCall (outer : Naming) (callee : Summary) (site : String) (result : Register)
    (operands : List Register) : Naming :=
  let bound : Table Register Register := .ofList (callee.params.zip (operands.map outer.name))
  match callee.returns with
  | [r] => if bound.contains r then ⟨bound, site⟩ else ⟨bound.insert r (outer.name result), site⟩
  | _ => ⟨bound, site⟩

end Naming

/-! ## Expansion -/

namespace Environment

/-- The number of summarized functions that are not on the stack. -/
def unexpanded (env : Environment) (stack : List String) : Nat :=
  (env.functions.filter fun f => f ∉ stack).length

/-- Putting a summarized function on the stack leaves fewer to expand. -/
theorem unexpanded_lt {env : Environment} {stack : List String} {function : String}
    {callee : Summary} (h : env.summary? function = some callee) (hs : function ∉ stack) :
    env.unexpanded (stack ++ [function]) < env.unexpanded stack := by
  have hmem : function ∈ env.functions :=
    (Table.mem_keys_iff env.summaries function).2 (by simp [summary?] at h; simp [h])
  have hfilter : env.functions.filter (fun f => f ∉ stack ++ [function]) =
      (env.functions.filter fun f => f ∉ stack).filter (fun f => f ≠ function) := by
    rw [List.filter_filter]
    congr 1
    funext f
    by_cases h₁ : f ∈ stack <;> by_cases h₂ : f = function <;> simp [h₁, h₂]
  unfold unexpanded
  rw [hfilter]
  exact List.length_filter_lt_length_iff_exists.2
    ⟨function, List.mem_filter.2 ⟨hmem, by simpa using hs⟩, by simp⟩

/-- The facts of a list of constraints of the function `caller`, whose registers are named by
`naming`, and the next fresh number. The stack holds the functions being filled in. -/
def expand (env : Environment) (caller : String) (naming : Naming) (stack : List String)
    (fresh : Nat) (constraints : List Constraint) : Report CallError (List Value × Nat) :=
  match constraints with
  | [] => pure ([], fresh)
  | .holds v :: rest => do
    let (facts, fresh) ← expand env caller naming stack fresh rest
    return (v.mapRegisters naming.name :: facts, fresh)
  | .call function result operands :: rest =>
    match h : env.summary? function with
    | none => do
      Report.log (.unknownCallee caller function)
      expand env caller naming stack fresh rest
    | some callee =>
      if hs : function ∈ stack then do
        Report.log (.recursiveCall caller function)
        expand env caller naming stack fresh rest
      else if callee.params.length ≠ operands.length then
        Report.fail (.arityMismatch function callee.params.length operands.length)
      else do
        have := unexpanded_lt h hs
        if callee.returns.length ≠ 1 then
          Report.log (.resultUnconstrained function callee.returns.length)
        let site := function ++ "#" ++ toString fresh ++ "::"
        let (inner, fresh) ← expand env callee.name (naming.atCall callee site result operands)
          (stack ++ [function]) (fresh + 1) callee.constraints
        let (facts, fresh) ← expand env caller naming stack fresh rest
        return (inner ++ facts, fresh)
termination_by (env.unexpanded stack, constraints.length)

/-- Every fact that holds inside a function, with its calls filled in. -/
def instantiate (env : Environment) (function : String) : Report CallError (List Value) :=
  match env.summary? function with
  | none => Report.fail (.unknownFunction function)
  | some s => do
    let (facts, _) ← env.expand s.name .root [function] 0 s.constraints
    return facts

end Environment

end TensorShape
