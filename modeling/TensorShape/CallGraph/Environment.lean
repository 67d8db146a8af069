import TensorShape.CallGraph.Summary

/-!
# TensorShape.CallGraph.Environment

The summaries of a program and the calls recorded between its functions, also of functions that
have no summary.

When a function changes, its summary and those of all functions that rely on it are dropped:
`Environment.invalidate` follows the recorded calls backwards, as long as it meets summaries.
-/

namespace TensorShape

structure Environment where
  summaries : Table String Summary
  /-- The functions each function calls. -/
  dependencies : Table String NameSet
deriving DecidableEq, Inhabited

namespace Environment

def empty : Environment := ⟨∅, ∅⟩

def summary? (env : Environment) (function : String) : Option Summary :=
  env.summaries.get? function

/-- The functions that have a summary, in order. -/
def functions (env : Environment) : List String := env.summaries.keys

/-- The functions that `function` is recorded to call. -/
def calleesOf (env : Environment) (function : String) : NameSet :=
  (env.dependencies.get? function).getD ∅

/-- The functions recorded to call `function`, in order. -/
def callersOf (env : Environment) (function : String) : List String :=
  (env.dependencies.entries.filter fun p => p.2.contains function).map Prod.fst

/-- Record that `caller` calls `callee`. -/
def addDependency (env : Environment) (caller callee : String) : Environment :=
  { env with dependencies :=
      env.dependencies.insert caller ((env.calleesOf caller).insert callee ()) }

/-- Add a summary, over one of the same name, and record its calls. Calls recorded before stay. -/
def addSummary (env : Environment) (s : Summary) : Environment :=
  let env := s.callees.keys.foldl (fun env callee => env.addDependency s.name callee) env
  { env with summaries := env.summaries.insert s.name s }

/-- Drop a function's summary and the calls recorded for it. -/
def drop (env : Environment) (function : String) : Environment :=
  ⟨env.summaries.erase function, env.dependencies.erase function⟩

/-! ## Invalidation -/

/-- Dropping a summary that is there leaves fewer. -/
theorem size_drop_lt {env : Environment} {function : String}
    (h : (env.summary? function).isSome = true) :
    (env.drop function).summaries.size < env.summaries.size := by
  have hmem := (Table.mem_keys_iff env.summaries function).2 h
  obtain ⟨p, hp, rfl⟩ := List.mem_map.1 hmem
  simp only [drop, Table.erase, Table.size]
  exact List.length_filter_lt_length_iff_exists.2 ⟨p, hp, by simp⟩

/-- Drop the pending functions, the first one first, each followed by its callers, the last one
first. A function without a summary is passed over. Gives the dropped functions in order. -/
def invalidateAll (env : Environment) (pending : List String) : List String × Environment :=
  match pending with
  | [] => ([], env)
  | function :: rest =>
    if h : (env.summary? function).isSome = true then
      have := size_drop_lt h
      let env' := env.drop function
      let (dropped, env'') := invalidateAll env' ((env'.callersOf function).reverse ++ rest)
      (function :: dropped, env'')
    else invalidateAll env rest
termination_by (env.summaries.size, pending.length)

/-- Drop the summary of a function and of its callers, theirs, and so on. -/
def invalidate (env : Environment) (function : String) : List String × Environment :=
  env.invalidateAll [function]

end Environment

end TensorShape
