import TensorShape.Logic.Session
import TensorShape.Proofs.Entailment

/-!
# TensorShape.Proofs.SessionHistory

A session answers for the assertions that its history leaves, and for nothing else.

A history is a list of operations. What it leaves is said without a stack: an assertion is **live**
if the number of open scopes never falls below what it was when the assertion was made (`live`,
`lowest`). Of the engine it is assumed that it keeps an assertion stack and answers for it
(`Engine.Exact`); what the session adds is to hand the operations on, and to know when a result is
still one of the assertions as they are.

* `AssertionStack.scopeAt` is what a stack holds for a number of open scopes. `scopeAt_push`,
  `scopeAt_pop` and their neighbours say what one operation does to it, and
  `exists_assertions_stackAfter` what a history comes to: the assertions of the deepest scope that
  was not closed, and then the live ones.
* `stackAfter_scope`: operations that close the scopes they open, and no others, leave the scopes
  around them alone.
* `stack_run`, `replies_run`: a session has the stack of its history, and its replies depend on
  nothing else.
* `Current`: a result is kept exactly as long as nothing came after it.
-/

namespace TensorShape

/-! ## Stacks -/

namespace AssertionStack

variable {a : AssertionStack}

/-- The assertions now, then those that each open scope would bring back, innermost first. -/
def layers (a : AssertionStack) : List (List Formula) := a.assertions :: a.saved

theorem depth_eq (a : AssertionStack) : a.depth = a.layers.length - 1 := rfl

/-- Closing scopes drops them from the stack. -/
theorem layers_pop {n : Nat} (h : n ≤ a.depth) : (a.pop n).layers = a.layers.drop n := by
  cases n with
  | zero => rfl
  | succ k =>
    have hk : k < a.saved.length := h
    simp only [pop, List.getElem?_eq_getElem hk, layers, List.drop_succ_cons]
    exact (List.drop_eq_getElem_cons hk).symm

/-- If there are not as many scopes, nothing is closed. -/
theorem pop_of_depth_lt {n : Nat} (h : a.depth < n) : a.pop n = a := by
  cases n with
  | zero => omega
  | succ k =>
    have hk : a.saved.length ≤ k := Nat.le_of_lt_succ h
    simp only [pop, List.getElem?_eq_none hk]

/-- Closing scopes leaves as many fewer. -/
theorem depth_pop {n : Nat} (h : n ≤ a.depth) : (a.pop n).depth = a.depth - n := by
  rw [depth_eq, layers_pop h, List.length_drop, depth_eq]
  omega

/-! ### Scopes by their depth -/

/-- The assertions of the scope at depth `d`, as they were when a scope was opened in it, or as they
are now if none is open in it. -/
def scopeAt (a : AssertionStack) (d : Nat) : Option (List Formula) := a.layers[a.depth - d]?

/-- The innermost scope has the assertions as they are. -/
theorem scopeAt_of_depth_le {d : Nat} (h : a.depth ≤ d) : a.scopeAt d = some a.assertions := by
  simp [scopeAt, layers, Nat.sub_eq_zero_of_le h]

/-- The other scopes have what is saved for them. -/
theorem scopeAt_of_lt_depth {d : Nat} (h : d < a.depth) :
    a.scopeAt d = a.saved[a.depth - d - 1]? := by
  have hsucc : a.depth - d = a.depth - d - 1 + 1 := by omega
  rw [scopeAt, hsucc, layers, List.getElem?_cons_succ, Nat.add_sub_cancel]

/-- A scope that is opened begins with the assertions around it. -/
theorem scopeAt_push {d : Nat} (h : d ≤ a.depth + 1) :
    a.push.scopeAt d = a.scopeAt (min a.depth d) := by
  by_cases hd : d = a.depth + 1
  · subst hd
    have hdepth : a.push.depth ≤ a.depth + 1 := Nat.le_refl _
    rw [scopeAt_of_depth_le hdepth, scopeAt_of_depth_le (by omega)]
    rfl
  · have hsub : a.depth + 1 - d - 1 = a.depth - d := by omega
    have hmin : min a.depth d = d := by omega
    rw [scopeAt_of_lt_depth (a := a.push) (Nat.lt_of_le_of_ne h hd), hmin]
    simp only [push, depth, List.length_cons] at hsub ⊢
    rw [hsub]
    rfl

/-- What is closed does not change what is around it. -/
theorem scopeAt_pop {n d : Nat} (h : d ≤ (a.pop n).depth) : (a.pop n).scopeAt d = a.scopeAt d := by
  by_cases hn : n ≤ a.depth
  · rw [depth_pop hn] at h
    have hindex : n + (a.depth - n - d) = a.depth - d := by omega
    rw [scopeAt, depth_pop hn, layers_pop hn, List.getElem?_drop, hindex, scopeAt]
  · rw [pop_of_depth_lt (Nat.lt_of_not_le hn)]

end AssertionStack

namespace Session

/-! ## Histories -/

inductive Operation where
  | assert (f : Owned Formula)
  | push
  | pop (n : Nat)
  | check

inductive Reply where
  /-- The assertion is of another context. -/
  | refused
  | done
  | answer (r : CheckResult)
deriving DecidableEq

variable {e : Engine}

/-- One operation. An assertion that is refused has no effect. -/
def perform (s : Session e) : Operation → Reply × Session e
  | .assert f =>
    match s.assert f with
    | .ok s' => (.done, s')
    | .error _ => (.refused, s)
  | .push => (.done, s.push)
  | .pop n => (.done, s.pop n)
  | .check => (.answer s.check.1, s.check.2)

/-- One operation after the other, with the reply to each. -/
def run (s : Session e) : List Operation → List Reply × Session e
  | [] => ([], s)
  | op :: ops =>
    let (reply, s') := s.perform op
    let (replies, s'') := s'.run ops
    (reply :: replies, s'')

/-- The reply to the last operation that was not refused. -/
def lastReply (replies : List Reply) : Option Reply := (replies.filter (· ≠ .refused)).getLast?

/-! ## What a history leaves -/

/-- The number of open scopes after an operation, from that before it. -/
def Operation.depth (d : Nat) : Operation → Nat
  | .assert _ => d
  | .push => d + 1
  | .pop n => if n ≤ d then d - n else d
  | .check => d

/-- The number of open scopes after a history. -/
def depthAfter (d : Nat) (ops : List Operation) : Nat := ops.foldl Operation.depth d

/-- The least number of open scopes along a history. -/
def lowest (d : Nat) : List Operation → Nat
  | [] => d
  | op :: ops => min d (lowest (op.depth d) ops)

/-- The live assertions of a history in the context `home` that begins with `d` open scopes: those
made in the context whose scope stays open to the end. -/
def live (home d : Nat) : List Operation → List Formula
  | [] => []
  | .assert f :: ops =>
    if f.home = home ∧ d ≤ lowest d ops then f.node :: live home d ops else live home d ops
  | .push :: ops => live home (Operation.push.depth d) ops
  | .pop n :: ops => live home ((Operation.pop n).depth d) ops
  | .check :: ops => live home d ops

/-- With `opened` scopes opened before, the operations close only what was opened, and all of it. -/
def Balanced (opened : Nat) : List Operation → Prop
  | [] => opened = 0
  | .assert _ :: ops => Balanced opened ops
  | .push :: ops => Balanced (opened + 1) ops
  | .pop n :: ops => n ≤ opened ∧ Balanced (opened - n) ops
  | .check :: ops => Balanced opened ops

theorem lowest_le (d : Nat) (ops : List Operation) : lowest d ops ≤ d := by
  cases ops with
  | nil => exact Nat.le_refl d
  | cons op ops => exact Nat.min_le_left _ _

/-! ## Histories of a stack -/

/-- What an operation in the context `home` does to the stack. -/
def Operation.apply (home : Nat) (a : AssertionStack) : Operation → AssertionStack
  | .assert f => if f.home = home then a.assert f.node else a
  | .push => a.push
  | .pop n => a.pop n
  | .check => a

def stackAfter (home : Nat) (a : AssertionStack) (ops : List Operation) : AssertionStack :=
  ops.foldl (Operation.apply home) a

variable {home : Nat} {a : AssertionStack}

theorem stackAfter_cons (op : Operation) (ops : List Operation) :
    stackAfter home a (op :: ops) = stackAfter home (op.apply home a) ops := rfl

theorem stackAfter_append (ops ops' : List Operation) :
    stackAfter home a (ops ++ ops') = stackAfter home (stackAfter home a ops) ops' :=
  List.foldl_append

/-- The number of open scopes follows the operations. -/
theorem depth_apply (home : Nat) (op : Operation) :
    (op.apply home a).depth = op.depth a.depth := by
  cases op with
  | assert f =>
    simp only [Operation.apply, Operation.depth]
    split <;> rfl
  | push => rfl
  | pop n =>
    simp only [Operation.apply, Operation.depth]
    split
    · next h => exact AssertionStack.depth_pop h
    · next h => rw [AssertionStack.pop_of_depth_lt (Nat.lt_of_not_le h)]
  | check => rfl

theorem depth_stackAfter (ops : List Operation) :
    (stackAfter home a ops).depth = depthAfter a.depth ops := by
  induction ops generalizing a with
  | nil => rfl
  | cons op ops ih =>
    rw [stackAfter_cons, ih, depth_apply]
    rfl

/-- After a history the stack has the assertions of the deepest scope that was not closed, and then
the live ones of the history. -/
theorem exists_assertions_stackAfter (home : Nat) (a : AssertionStack) (ops : List Operation) :
    ∃ base, a.scopeAt (lowest a.depth ops) = some base ∧
      (stackAfter home a ops).assertions = base ++ live home a.depth ops := by
  induction ops generalizing a with
  | nil =>
    exact ⟨a.assertions, AssertionStack.scopeAt_of_depth_le (Nat.le_refl _),
      (List.append_nil _).symm⟩
  | cons op ops ih =>
    obtain ⟨base, hbase, hrun⟩ := ih (op.apply home a)
    rw [depth_apply] at hrun hbase
    have hle := lowest_le (op.depth a.depth) ops
    rw [stackAfter_cons, hrun]
    cases op with
    | assert f =>
      simp only [Operation.depth] at hbase hle
      have hmin : lowest a.depth (.assert f :: ops) = lowest a.depth ops := Nat.min_eq_right hle
      rw [hmin]
      by_cases hhome : f.home = home
      · simp only [Operation.apply, if_pos hhome] at hbase
        by_cases hopen : a.depth ≤ lowest a.depth ops
        · -- The scope stays open: its assertions are those of the stack, with this one behind.
          rw [AssertionStack.scopeAt_of_depth_le (by exact hopen)] at hbase
          cases hbase
          refine ⟨a.assertions, AssertionStack.scopeAt_of_depth_le hopen, ?_⟩
          simp [live, Operation.depth, hhome, hopen, AssertionStack.assert]
        · have hclosed : lowest a.depth ops < a.depth := Nat.lt_of_not_le hopen
          rw [AssertionStack.scopeAt_of_lt_depth (by exact hclosed)] at hbase
          refine ⟨base, (AssertionStack.scopeAt_of_lt_depth hclosed).trans hbase, ?_⟩
          simp [live, Operation.depth, hopen]
      · simp only [Operation.apply, if_neg hhome] at hbase
        exact ⟨base, hbase, by simp [live, Operation.depth, hhome]⟩
    | push => exact ⟨base, (AssertionStack.scopeAt_push hle).symm.trans hbase, rfl⟩
    | pop n =>
      have hdepth : (Operation.pop n).depth a.depth ≤ a.depth := by
        simp only [Operation.depth]
        split <;> omega
      have hmin : lowest a.depth (.pop n :: ops) = lowest ((Operation.pop n).depth a.depth) ops :=
        Nat.min_eq_right (Nat.le_trans hle hdepth)
      have hscope : lowest ((Operation.pop n).depth a.depth) ops ≤ (a.pop n).depth :=
        Nat.le_trans hle (Nat.le_of_eq (depth_apply home (.pop n)).symm)
      rw [hmin]
      exact ⟨base, (AssertionStack.scopeAt_pop hscope).symm.trans hbase, rfl⟩
    | check =>
      have hmin : lowest a.depth (.check :: ops) = lowest a.depth ops := Nat.min_eq_right hle
      rw [hmin]
      exact ⟨base, hbase, rfl⟩

/-- From its start a history leaves just the live assertions. -/
theorem assertions_stackAfter_empty (home : Nat) (ops : List Operation) :
    (stackAfter home .empty ops).assertions = live home 0 ops := by
  obtain ⟨base, hbase, hrun⟩ := exists_assertions_stackAfter home .empty ops
  rw [AssertionStack.scopeAt_of_depth_le (Nat.zero_le _)] at hbase
  cases hbase
  exact hrun

/-! ### Nested scopes -/

/-- Balanced operations close the scopes that were opened before them, as many as are `opened`, and
leave those around alone. -/
theorem saved_stackAfter_of_balanced {ops : List Operation} (inner : List (List Formula))
    {outer : List (List Formula)} (h : Balanced inner.length ops) (ha : a.saved = inner ++ outer) :
    (stackAfter home a ops).saved = outer := by
  induction ops generalizing a inner with
  | nil =>
    have hnil : inner = [] := List.length_eq_zero_iff.1 h
    rw [hnil, List.nil_append] at ha
    exact ha
  | cons op ops ih =>
    rw [stackAfter_cons]
    cases op with
    | assert f =>
      refine ih inner h ?_
      simp only [Operation.apply]
      split <;> exact ha
    | push =>
      refine ih (a.assertions :: inner) h ?_
      simp [Operation.apply, AssertionStack.push, ha]
    | pop n =>
      obtain ⟨hn, hrest⟩ := h
      have hdepth : n ≤ a.depth := by
        rw [AssertionStack.depth, ha, List.length_append]
        omega
      have hsaved : (a.pop n).saved = a.saved.drop n := by
        have htail := congrArg List.tail (AssertionStack.layers_pop hdepth)
        rwa [List.tail_drop] at htail
      refine ih (inner.drop n) (by rwa [List.length_drop]) ?_
      rw [Operation.apply, hsaved, ha, List.drop_append_of_le_length hn]
    | check => exact ih inner h ha

/-- Opening a scope, balanced operations and closing the scope bring the stack back. -/
theorem stackAfter_scope {ops : List Operation} (h : Balanced 0 ops) :
    stackAfter home a (.push :: (ops ++ [.pop 1])) = a := by
  have hsaved : (stackAfter home a.push ops).saved = a.assertions :: a.saved :=
    saved_stackAfter_of_balanced [] h rfl
  rw [stackAfter_cons, stackAfter_append]
  simp only [stackAfter, Operation.apply, List.foldl_cons, List.foldl_nil] at hsaved ⊢
  simp only [AssertionStack.pop, hsaved, List.getElem?_cons_zero, List.drop_succ_cons,
    List.drop_zero]

/-! ## One operation -/

variable {s : Session e}

/-- An assertion of the session's context is handed to the engine, and the result is forgotten. -/
theorem perform_assert_of_native {f : Owned Formula} (h : f.home = s.context.id) :
    s.perform (.assert f) =
      (.done, { s with state := e.assert s.state f.node, last := none }) := by
  have hassert : s.assert f = .ok { s with state := e.assert s.state f.node, last := none } := by
    simp only [assert, Owned.usedIn, if_pos h]
    rfl
  simp only [perform, hassert]

/-- An assertion of another context is refused and changes nothing. -/
theorem perform_assert_of_foreign {f : Owned Formula} (h : f.home ≠ s.context.id) :
    s.perform (.assert f) = (.refused, s) := by
  have hassert : s.assert f = .error ⟨⟩ := by
    simp only [assert, Owned.usedIn, if_neg h]
    rfl
  simp only [perform, hassert]

theorem context_perform (op : Operation) : (s.perform op).2.context = s.context := by
  cases op with
  | assert f =>
    by_cases h : f.home = s.context.id
    · rw [perform_assert_of_native h]
    · rw [perform_assert_of_foreign h]
  | push => rfl
  | pop n => rfl
  | check => rfl

open Classical in
/-- The reply to an operation, by the assertions that are live. -/
noncomputable def Operation.reply (home : Nat) (a : AssertionStack) : Operation → Reply
  | .assert f => if f.home = home then .done else .refused
  | .push => .done
  | .pop _ => .done
  | .check => .answer (if ∃ m : Model, m.Satisfies a.assertions then .sat else .unsat)

/-- The replies to a history, by the assertions that are live at the time of each operation. -/
noncomputable def repliesAfter (home : Nat) (a : AssertionStack) : List Operation → List Reply
  | [] => []
  | op :: ops => op.reply home a :: repliesAfter home (op.apply home a) ops

section Exact

variable {proofs : Bool} {stack : e.State → AssertionStack}

/-- The engine's stack goes along with the operations. -/
theorem stack_perform (hengine : e.Exact proofs stack) (op : Operation) :
    stack (s.perform op).2.state = op.apply s.context.id (stack s.state) := by
  cases op with
  | assert f =>
    by_cases h : f.home = s.context.id
    · rw [perform_assert_of_native h, Operation.apply, if_pos h]
      exact hengine.assert _ _
    · rw [perform_assert_of_foreign h, Operation.apply, if_neg h]
  | push => exact hengine.push _
  | pop n => exact hengine.pop _ n
  | check => exact hengine.check _

/-- A check is answered by whether the live assertions have a model. -/
theorem reply_perform (hengine : e.Exact proofs stack) (op : Operation) :
    (s.perform op).1 = op.reply s.context.id (stack s.state) := by
  cases op with
  | assert f =>
    by_cases h : f.home = s.context.id
    · rw [perform_assert_of_native h, Operation.reply, if_pos h]
    · rw [perform_assert_of_foreign h, Operation.reply, if_neg h]
  | push => rfl
  | pop n => rfl
  | check =>
    have hcheck : (s.perform .check).1 = .answer (e.check s.state).1 := rfl
    rw [hcheck, Operation.reply]
    split
    · next h => rw [(hengine.sat_iff s.state).2 h]
    · next h => rw [(hengine.unsat_iff s.state).2 h]

/-! ## Runs -/

theorem run_cons (op : Operation) (ops : List Operation) :
    s.run (op :: ops) =
      ((s.perform op).1 :: ((s.perform op).2.run ops).1, ((s.perform op).2.run ops).2) := rfl

theorem context_run (ops : List Operation) : (s.run ops).2.context = s.context := by
  induction ops generalizing s with
  | nil => rfl
  | cons op ops ih => rw [run_cons, ih, context_perform]

/-- The engine's stack goes along with the history. -/
theorem stack_run (hengine : e.Exact proofs stack) (ops : List Operation) :
    stack (s.run ops).2.state = stackAfter s.context.id (stack s.state) ops := by
  induction ops generalizing s with
  | nil => rfl
  | cons op ops ih => rw [run_cons, ih, context_perform, stack_perform hengine, stackAfter_cons]

/-- The replies depend on the stack of the engine and on nothing else. -/
theorem replies_run (hengine : e.Exact proofs stack) (ops : List Operation) :
    (s.run ops).1 = repliesAfter s.context.id (stack s.state) ops := by
  induction ops generalizing s with
  | nil => rfl
  | cons op ops ih =>
    rw [run_cons, ih, context_perform, stack_perform hengine, reply_perform hengine]
    rfl

theorem stack_run_start (hengine : e.Exact proofs stack) (context : Context)
    (ops : List Operation) :
    stack ((start e context).run ops).2.state = stackAfter context.id .empty ops := by
  rw [stack_run hengine, ← hengine.start]
  rfl

theorem replies_run_start (hengine : e.Exact proofs stack) (context : Context)
    (ops : List Operation) :
    ((start e context).run ops).1 = repliesAfter context.id .empty ops := by
  rw [replies_run hengine, ← hengine.start]
  rfl

end Exact

theorem length_repliesAfter (home : Nat) (a : AssertionStack) (ops : List Operation) :
    (repliesAfter home a ops).length = ops.length := by
  induction ops generalizing a with
  | nil => rfl
  | cons op ops ih => simp [repliesAfter, ih]

/-- The replies to a history in two parts: the second part starts with the stack that the first one
leaves. -/
theorem repliesAfter_append (ops ops' : List Operation) :
    repliesAfter home a (ops ++ ops') =
      repliesAfter home a ops ++ repliesAfter home (stackAfter home a ops) ops' := by
  induction ops generalizing a with
  | nil => rfl
  | cons op ops ih => simp [repliesAfter, ih, stackAfter_cons]

/-- The replies after a part of the history are those to the rest, with what the part leaves. -/
theorem drop_repliesAfter (home : Nat) (a : AssertionStack) (ops ops' : List Operation) :
    (repliesAfter home a (ops ++ ops')).drop ops.length =
      repliesAfter home (stackAfter home a ops) ops' := by
  rw [repliesAfter_append, ← length_repliesAfter home a ops, List.drop_left]

/-- The reply to a check in a history says whether the assertions live at its time have a model. -/
theorem exists_answer (home : Nat) (a : AssertionStack) (before after : List Operation) :
    ∃ r, (repliesAfter home a (before ++ .check :: after))[before.length]? = some (.answer r) ∧
      (r = .sat ↔ ∃ m : Model, m.Satisfies (stackAfter home a before).assertions) ∧
      (r = .unsat ↔ ¬∃ m : Model, m.Satisfies (stackAfter home a before).assertions) := by
  have hindex := drop_repliesAfter home a before (.check :: after)
  replace hindex := congrArg (·[0]?) hindex
  rw [List.getElem?_drop, Nat.add_zero] at hindex
  refine ⟨_, hindex, ?_⟩
  split <;> simp_all

/-- A scope put into a history changes no reply after it. -/
theorem drop_repliesAfter_insert_scope {before inner after : List Operation}
    (h : Balanced 0 inner) :
    (repliesAfter home a (before ++ .push :: (inner ++ .pop 1 :: after))).drop
        (before.length + inner.length + 2) =
      (repliesAfter home a (before ++ after)).drop before.length := by
  have hsplit : before ++ .push :: (inner ++ .pop 1 :: after) =
      (before ++ .push :: (inner ++ [.pop 1])) ++ after := by simp
  have hlength : before.length + inner.length + 2 =
      (before ++ .push :: (inner ++ [Operation.pop 1])).length := by
    simp only [List.length_append, List.length_cons, List.length_nil]
    omega
  rw [hsplit, hlength, drop_repliesAfter, stackAfter_append, stackAfter_scope h, drop_repliesAfter]

/-! ## Results -/

/-- The session has the result of the check that was replied to last, and its engine is as that
check left it, if that reply was the last one; and else it has no result. -/
structure Current (replies : List Reply) (s : Session e) : Prop where
  held : ∀ r, lastReply replies = some (.answer r) →
    s.last = some r ∧ ∃ st, e.check st = (r, s.state)
  dropped : (∀ r, lastReply replies ≠ some (.answer r)) → s.last = none

/-- A reply that is no refusal is the last one. -/
theorem lastReply_append (replies : List Reply) {reply : Reply} (h : reply ≠ .refused) :
    lastReply (replies ++ [reply]) = some reply := by
  simp [lastReply, List.filter_append, h]

/-- A refusal does not count. -/
theorem lastReply_append_refused (replies : List Reply) :
    lastReply (replies ++ [.refused]) = lastReply replies := by
  simp [lastReply, List.filter_append]

theorem current_start (e : Engine) (context : Context) : Current [] (start e context) where
  held r h := by simp [lastReply] at h
  dropped _ := rfl

/-- What may change the assertions drops the result. -/
theorem current_of_done {replies : List Reply} (h : s.last = none) :
    Current (replies ++ [.done]) s where
  held r hr := by simp [lastReply_append] at hr
  dropped _ := h

/-- Each operation keeps the session's result up to date. -/
theorem Current.perform {replies : List Reply} (h : Current replies s) (op : Operation) :
    Current (replies ++ [(s.perform op).1]) (s.perform op).2 := by
  cases op with
  | assert f =>
    by_cases hhome : f.home = s.context.id
    · rw [perform_assert_of_native hhome]
      exact current_of_done rfl
    · rw [perform_assert_of_foreign hhome]
      exact ⟨by simpa only [lastReply_append_refused] using h.held,
        by simpa only [lastReply_append_refused] using h.dropped⟩
  | push => exact current_of_done rfl
  | pop n => exact current_of_done rfl
  | check =>
    have hreply : lastReply (replies ++ [(s.perform .check).1]) =
        some (.answer (e.check s.state).1) := lastReply_append replies (by simp [Session.perform])
    constructor
    · intro r hr
      rw [hreply] at hr
      cases hr
      exact ⟨rfl, s.state, rfl⟩
    · intro hnone
      exact absurd hreply (hnone _)

/-- The session's result is up to date after every history. -/
theorem Current.run {replies : List Reply} (h : Current replies s) (ops : List Operation) :
    Current (replies ++ (s.run ops).1) (s.run ops).2 := by
  induction ops generalizing s replies with
  | nil => simpa [Session.run] using h
  | cons op ops ih => simpa [run_cons] using ih (h.perform op)

theorem current_run_start (e : Engine) (context : Context) (ops : List Operation) :
    Current ((start e context).run ops).1 ((start e context).run ops).2 := by
  simpa using (current_start e context).run ops

namespace Current

variable {replies : List Reply} {stack : e.State → AssertionStack}

/-- The session knows the last result if and only if it was the last reply. -/
theorem last_eq_iff (h : Current replies s) (r : CheckResult) :
    s.last = some r ↔ lastReply replies = some (.answer r) := by
  constructor
  · intro hlast
    by_cases hanswer : ∃ r', lastReply replies = some (.answer r')
    · obtain ⟨r', hr'⟩ := hanswer
      have hheld := (h.held r' hr').1
      rw [hlast, Option.some.injEq] at hheld
      rw [hr', hheld]
    · have hnone := h.dropped fun r' hr' => hanswer ⟨r', hr'⟩
      rw [hlast] at hnone
      cases hnone
  · intro hr
    exact (h.held r hr).1

/-- Right after a check that found a model, there is one of the assertions as they are. -/
theorem exists_model? (h : Current replies s) (hengine : e.Exact s.context.proofs stack)
    (hsat : lastReply replies = some (.answer .sat)) :
    ∃ m, s.model? = some m ∧ m.Satisfies (stack s.state).assertions := by
  obtain ⟨hlast, st, hst⟩ := h.held .sat hsat
  obtain ⟨m, hm, hsatisfies⟩ := hengine.model st (by rw [hst])
  have hstack := hengine.check st
  rw [hst] at hm hstack
  rw [← hstack] at hsatisfies
  refine ⟨m, ?_, hsatisfies⟩
  rw [model?, if_pos hlast, hm]

/-- Right after a check that found none, the assertions as they are have been refuted. -/
theorem refuted?_eq (h : Current replies s) (hengine : e.Exact s.context.proofs stack)
    (hunsat : lastReply replies = some (.answer .unsat)) (hproofs : s.context.proofs = true) :
    s.refuted? = some (stack s.state).assertions := by
  obtain ⟨hlast, st, hst⟩ := h.held .unsat hunsat
  have hrefuted := hengine.refuted st (by rw [hst]) hproofs
  have hstack := hengine.check st
  rw [hst] at hrefuted hstack
  rw [refuted?, if_pos ⟨hlast, hproofs⟩, hrefuted, hstack]

/-- A model can be had just after a check that found one, and it is one of the assertions as they
are. -/
theorem model?_exact (h : Current replies s) (hengine : e.Exact s.context.proofs stack) :
    (s.model?.isSome = true ↔ lastReply replies = some (.answer .sat)) ∧
      ∀ m, s.model? = some m → m.Satisfies (stack s.state).assertions := by
  by_cases hlast : s.last = some .sat
  · have hsat := (h.last_eq_iff .sat).1 hlast
    obtain ⟨m, hm, hsatisfies⟩ := h.exists_model? hengine hsat
    simp [hm, hsat, hsatisfies]
  · have hsat := mt (h.last_eq_iff .sat).2 hlast
    simp [model?, hlast, hsat]

/-- A refutation can be had just after a check that found no model, if proofs are kept, and it is
one of the assertions as they are. -/
theorem refuted?_exact (h : Current replies s) (hengine : e.Exact s.context.proofs stack) :
    (s.refuted?.isSome = true ↔
        lastReply replies = some (.answer .unsat) ∧ s.context.proofs = true) ∧
      ∀ fs, s.refuted? = some fs → fs = (stack s.state).assertions := by
  by_cases hlast : s.last = some .unsat ∧ s.context.proofs = true
  · have hunsat := (h.last_eq_iff .unsat).1 hlast.1
    have hrefuted := h.refuted?_eq hengine hunsat hlast.2
    simp [hrefuted, hunsat, hlast.2, eq_comm]
  · have hunsat := mt (And.imp_left (h.last_eq_iff .unsat).2) hlast
    simp only [refuted?, if_neg hlast]
    simpa using hunsat

end Current

/-! ## Main result -/

/-- **A session is exact and never stale.** Whatever was asserted, opened, closed and checked: the
engine has the live assertions, and each check is answered by whether those live at its time have a
model; a model can be had if and only if the last operation, apart from assertions that were
refused, was a check that found one, and a refutation if and only if it was a check that found none
and proofs are kept, and both are of the assertions that are live; and opening a scope, balanced
operations and closing it, put anywhere, change no later reply. -/
theorem run_exact {stack : e.State → AssertionStack} (context : Context)
    (hengine : e.Exact context.proofs stack) (ops : List Operation) :
    (stack ((start e context).run ops).2.state).assertions = live context.id 0 ops ∧
    (stack ((start e context).run ops).2.state).depth = depthAfter 0 ops ∧
    (∀ before after, ops = before ++ .check :: after →
      ∃ r, ((start e context).run ops).1[before.length]? = some (.answer r) ∧
        (r = .sat ↔ ∃ m : Model, m.Satisfies (live context.id 0 before)) ∧
        (r = .unsat ↔ ¬∃ m : Model, m.Satisfies (live context.id 0 before))) ∧
    (((start e context).run ops).2.model?.isSome = true ↔
      lastReply ((start e context).run ops).1 = some (.answer .sat)) ∧
    (∀ m, ((start e context).run ops).2.model? = some m → m.Satisfies (live context.id 0 ops)) ∧
    (((start e context).run ops).2.refuted?.isSome = true ↔
      lastReply ((start e context).run ops).1 = some (.answer .unsat) ∧ context.proofs = true) ∧
    (∀ fs, ((start e context).run ops).2.refuted? = some fs → fs = live context.id 0 ops) ∧
    ∀ before inner after, ops = before ++ after → Balanced 0 inner →
      ((start e context).run (before ++ .push :: (inner ++ .pop 1 :: after))).1.drop
          (before.length + inner.length + 2) =
        ((start e context).run ops).1.drop before.length := by
  have hcontext : ((start e context).run ops).2.context = context := context_run ops
  have hlive : (stack ((start e context).run ops).2.state).assertions = live context.id 0 ops := by
    rw [stack_run_start hengine, assertions_stackAfter_empty]
  have hcurrent := current_run_start e context ops
  obtain ⟨hmodel, hsatisfies⟩ := hcurrent.model?_exact (by rwa [hcontext])
  obtain ⟨hrefuted, hassertions⟩ := hcurrent.refuted?_exact (by rwa [hcontext])
  rw [hlive] at hsatisfies hassertions
  rw [hcontext] at hrefuted
  refine ⟨hlive, ?_, ?_, hmodel, hsatisfies, hrefuted, hassertions, ?_⟩
  · rw [stack_run_start hengine, depth_stackAfter]
    rfl
  · intro before after hops
    rw [replies_run_start hengine, hops, ← assertions_stackAfter_empty]
    exact exists_answer context.id .empty before after
  · intro before inner after hops hbalanced
    rw [replies_run_start hengine, replies_run_start hengine, hops]
    exact drop_repliesAfter_insert_scope hbalanced

/-! ### A solver as the engine -/

/-- An engine that asks a solver about its stack is exact if the solver is. -/
theorem exact_ofSolver {solver : Solver} (hsolver : solver.Decides) (hmodels : solver.GivesModels)
    (proofs : Bool) : (Engine.ofSolver solver).Exact proofs Engine.Held.stack where
  start := rfl
  assert _ _ := rfl
  push _ := rfl
  pop _ _ := rfl
  check _ := rfl
  sat_iff st := by
    rw [← hsolver.sat_iff]
    simp only [Engine.ofSolver]
    cases solver st.stack.assertions <;> simp [Answer.result]
  unsat_iff st := by
    rw [← hsolver.unsat_iff]
    simp only [Engine.ofSolver]
    cases solver st.stack.assertions <;> simp [Answer.result]
  model st h := by
    simp only [Engine.ofSolver] at h ⊢
    cases hanswer : solver st.stack.assertions with
    | sat model? => exact hmodels hanswer
    | unsat => simp [hanswer, Answer.result] at h
    | unknown reason? => simp [hanswer, Answer.result] at h
  refuted st h _ := by
    simp only [Engine.ofSolver] at h ⊢
    cases hanswer : solver st.stack.assertions with
    | sat model? => simp [hanswer, Answer.result] at h
    | unsat => rfl
    | unknown reason? => simp [hanswer, Answer.result] at h

/-- The unknown `x` has the given value. -/
def xIs (n : Int) : Owned Formula := ⟨0, .eq (.var (Symbol.ofName "x")) (.lit n)⟩

/-- In a scope `x` gets a second value; the scope is closed before the last check, in which the
first value counts alone. -/
theorem run_exact_second_value :
    (Engine.ofSolver Solver.ideal).Exact true Engine.Held.stack ∧
    live 0 0 [.assert (xIs 2), .push, .assert (xIs 3)] = [(xIs 2).node, (xIs 3).node] ∧
    live 0 0 [.assert (xIs 2), .push, .assert (xIs 3), .check, .pop 1] = [(xIs 2).node] ∧
    ((start (.ofSolver Solver.ideal) ⟨0, true⟩).run
      [.assert (xIs 2), .push, .assert (xIs 3), .check, .pop 1, .check]).1[3]? =
        some (.answer .unsat) ∧
    ((start (.ofSolver Solver.ideal) ⟨0, true⟩).run
      [.assert (xIs 2), .push, .assert (xIs 3), .check, .pop 1, .check]).1[5]? =
        some (.answer .sat) := by
  have hengine := exact_ofSolver Solver.ideal_decides Solver.ideal_givesModels true
  obtain ⟨-, -, hchecks, -⟩ := run_exact ⟨0, true⟩ hengine
    [.assert (xIs 2), .push, .assert (xIs 3), .check, .pop 1, .check]
  obtain ⟨r, hr, -, hunsat⟩ := hchecks [.assert (xIs 2), .push, .assert (xIs 3)] _ rfl
  obtain ⟨r', hr', hsat, -⟩ :=
    hchecks [.assert (xIs 2), .push, .assert (xIs 3), .check, .pop 1] _ rfl
  have hnone : ¬∃ m : Model, m.Satisfies [(xIs 2).node, (xIs 3).node] := by
    rintro ⟨m, hm⟩
    have htwo := (Formula.eval_eq_iff ..).1 (hm (xIs 2).node (by simp))
    have hthree := (Formula.eval_eq_iff ..).1 (hm (xIs 3).node (by simp))
    rw [htwo] at hthree
    exact absurd hthree (show (2 : Int) ≠ 3 by decide)
  have hsome : ∃ m : Model, m.Satisfies [(xIs 2).node] := by
    refine ⟨⟨fun _ => 2, fun _ _ => 0, fun _ => 0⟩, fun f hf => ?_⟩
    rw [List.mem_singleton.1 hf]
    rfl
  rw [hunsat.2 hnone] at hr
  rw [hsat.2 hsome] at hr'
  exact ⟨hengine, rfl, rfl, hr, hr'⟩

end Session

end TensorShape
