import TensorShape.Proofs.CallRecords
import TensorShape.Proofs.Flaws
import TensorShape.Proofs.Paths

/-!
# TensorShape.Proofs.Analysis

What the analysis of a module does to an environment.

An analyzer is changed in place, and an error may come up anywhere. Still the environment only ever
gains whole summaries: a flaw is found before anything is done, and of a function whose blocks cannot
all be interpreted nothing is stored.

* `Function.summarize_cases`: the summary of a function, or the first of its blocks that fails;
* `Environment.addSummaries`: what several summaries do to an environment, also a second time;
* `Analyzer.analyzeFunctions_cases`: the run over a list of functions, up to the first that fails;
* `Analyzer.analyzeModule_exact`: what is left by the analysis of a module, whichever way it ends.
-/

namespace TensorShape

/-! ## Summaries of functions -/

def Block.Interpretable (b : Block) : Prop := ∃ cs, b.constraints.outcome = .ok cs

namespace Function

variable {f : Function} {e : StepError}

def Interpretable (f : Function) : Prop := ∀ b ∈ f.blocks, b.Interpretable

/-- The first block that cannot be interpreted fails with the error. -/
def FailsWith (f : Function) (e : StepError) : Prop :=
  ∃ front b back, f.blocks = front ++ b :: back ∧ (∀ c ∈ front, c.Interpretable) ∧
    b.constraints.outcome = .error e

/-- The summary that the blocks of a function make. -/
def ownSummary (f : Function) : Summary := f.summaryOn f.places

/-- A function with a block that fails cannot be interpreted. -/
theorem FailsWith.not_interpretable (h : f.FailsWith e) : ¬f.Interpretable := by
  intro hall
  obtain ⟨front, b, back, hblocks, -, herror⟩ := h
  obtain ⟨cs, hcs⟩ := hall b (hblocks ▸ List.mem_append_right front List.mem_cons_self)
  rw [herror] at hcs
  cases hcs

/-- If the summary of a function can be made, all its blocks can be interpreted. -/
theorem interpretable_of_summarize {s : Summary} (h : f.summarize.outcome = .ok s) :
    f.Interpretable := by
  intro b hb
  obtain ⟨i, hi⟩ := List.mem_iff_getElem?.1 hb
  rw [summarize, Report.outcome_bind_eq_ok] at h
  obtain ⟨parts, hparts, -⟩ := h
  obtain ⟨part, hpart⟩ :=
    Report.exists_of_outcome_mapM_eq_ok hparts (List.mk_mem_zipIdx_iff_getElem?.2 hi)
  obtain ⟨cs, hcs, -⟩ := Report.outcome_bind_eq_ok.1 hpart
  exact ⟨cs, hcs⟩

/-- If it cannot, the error is that of the first block that fails. -/
theorem failsWith_of_summarize (h : f.summarize.outcome = .error e) : f.FailsWith e := by
  rw [summarize, Report.outcome_bind_eq_error] at h
  rcases h with hparts | ⟨parts, -, hlast⟩
  · obtain ⟨front, p, back, hzip, hfront, hp⟩ := Report.exists_of_outcome_mapM_eq_error hparts
    have hblocks : f.blocks = front.map Prod.fst ++ p.1 :: back.map Prod.fst := by
      rw [← List.zipIdx_map_fst 0 f.blocks, hzip, List.map_append, List.map_cons]
    refine ⟨_, _, _, hblocks, fun c hc => ?_, ?_⟩
    · obtain ⟨q, hq, rfl⟩ := List.mem_map.1 hc
      obtain ⟨part, hpart⟩ := hfront q hq
      obtain ⟨cs, hcs, -⟩ := Report.outcome_bind_eq_ok.1 hpart
      exact ⟨cs, hcs⟩
    · rcases Report.outcome_bind_eq_error.1 hp with hp | ⟨cs, -, hpure⟩
      · exact hp
      · cases hpure
  · cases hlast

/-- A function has the summary that its own blocks make, unless one of them fails. -/
theorem summarize_cases (f : Function) :
    (f.Interpretable ∧ f.summarize.outcome = .ok f.ownSummary) ∨
    ∃ e, f.FailsWith e ∧ f.summarize.outcome = .error e := by
  cases h : f.summarize.outcome with
  | ok s => exact .inl ⟨interpretable_of_summarize h, by rw [eq_summaryOn_of_summarize h]; rfl⟩
  | error e => exact .inr ⟨e, failsWith_of_summarize h, rfl⟩

end Function

/-! ## Several summaries -/

namespace Environment

variable {env : Environment} {s : Summary} {ss : List Summary} {name f g : String}

/-- To record a call that is on record changes nothing. -/
theorem addDependency_of_records (h : env.Records f g) : env.addDependency f g = env := by
  obtain ⟨callees, hcallees⟩ : ∃ callees, env.dependencies.get? f = some callees := by
    cases hget : env.dependencies.get? f with
    | none => simp [Records, calleesOf, hget, Table.contains] at h
    | some callees => exact ⟨callees, rfl⟩
  have hof : env.calleesOf f = callees := by simp [calleesOf, hcallees]
  have hknown : callees.get? g = some () := by
    rw [Records, hof] at h
    exact Option.isSome_iff_exists.1 h |>.elim fun _ hg => hg
  rw [addDependency, hof, Table.insert_of_get? hknown, Table.insert_of_get? hcallees]

/-- To add a summary that is there, with its calls, changes nothing. -/
theorem addSummary_of_summary? (h : env.summary? s.name = some s)
    (hcalls : ∀ g ∈ s.callees.keys, env.Records s.name g) : env.addSummary s = env := by
  have hfold : ∀ names : List String, (∀ g ∈ names, env.Records s.name g) →
      names.foldl (fun env callee => env.addDependency s.name callee) env = env := by
    intro names hnames
    induction names with
    | nil => rfl
    | cons g names ih =>
      rw [List.foldl_cons, addDependency_of_records (hnames g List.mem_cons_self)]
      exact ih fun g' hg' => hnames g' (List.mem_cons_of_mem g hg')
  rw [addSummary, hfold _ hcalls, Table.insert_of_get? h]

/-- Add summaries one after the other. -/
def addSummaries (env : Environment) (ss : List Summary) : Environment := ss.foldl addSummary env

@[simp] theorem addSummaries_nil (env : Environment) : env.addSummaries [] = env := rfl

@[simp] theorem addSummaries_cons (env : Environment) (s : Summary) (ss : List Summary) :
    env.addSummaries (s :: ss) = (env.addSummary s).addSummaries ss := rfl

/-- Functions that are not among the new summaries keep what they have. -/
theorem summary?_addSummaries_of_not_mem (h : name ∉ ss.map Summary.name) :
    (env.addSummaries ss).summary? name = env.summary? name := by
  induction ss generalizing env with
  | nil => rfl
  | cons s ss ih =>
    rw [List.map_cons, List.mem_cons, not_or] at h
    rw [addSummaries_cons, ih h.2, summary?_addSummary, if_neg (Ne.symm h.1)]

/-- Summaries under different names are all there afterwards. -/
theorem summary?_addSummaries_of_mem (hnames : (ss.map Summary.name).Nodup) (hs : s ∈ ss) :
    (env.addSummaries ss).summary? s.name = some s := by
  induction ss generalizing env with
  | nil => exact absurd hs List.not_mem_nil
  | cons t ss ih =>
    rw [List.map_cons, List.nodup_cons] at hnames
    rw [addSummaries_cons]
    rcases List.mem_cons.1 hs with rfl | hs
    · rw [summary?_addSummaries_of_not_mem hnames.1, summary?_addSummary, if_pos rfl]
    · exact ih hnames.2 hs

/-- A call is recorded if it was before, or if one of the new summaries makes it. -/
theorem records_addSummaries : (env.addSummaries ss).Records f g ↔
    env.Records f g ∨ ∃ s ∈ ss, s.name = f ∧ g ∈ s.callees.keys := by
  induction ss generalizing env with
  | nil => simp
  | cons s ss ih =>
    rw [addSummaries_cons, ih, records_addSummary, List.exists_mem_cons_iff, @eq_comm _ f s.name,
      or_comm (b := env.Records f g), or_assoc]

/-- To add the same summaries again changes nothing. -/
theorem addSummaries_addSummaries (hnames : (ss.map Summary.name).Nodup) :
    (env.addSummaries ss).addSummaries ss = env.addSummaries ss := by
  have hagain : ∀ ts, ts ⊆ ss → (env.addSummaries ss).addSummaries ts = env.addSummaries ss := by
    intro ts hts
    induction ts with
    | nil => rfl
    | cons t ts ih =>
      have ht : t ∈ ss := hts List.mem_cons_self
      rw [addSummaries_cons, addSummary_of_summary? (summary?_addSummaries_of_mem hnames ht)
        fun g hg => records_addSummaries.2 (.inr ⟨t, ht, rfl, hg⟩)]
      exact ih fun t' ht' => hts (List.mem_cons_of_mem t ht')
  exact hagain ss fun _ h => h

end Environment

/-! ## Runs -/

namespace Analyzer

variable {a a' : Analyzer} {f : Function} {fs : List Function} {m : Module} {e : StepError}

/-- A function that can be interpreted leaves its summary in the environment. -/
theorem run_analyzeFunction_of_ok {s : Summary} (h : f.summarize.outcome = .ok s) (a : Analyzer) :
    (analyzeFunction f).run a =
      .ok () ⟨a.environment.addSummary s, a.log ++ f.summarize.events⟩ := by
  simp only [analyzeFunction, follow, h]
  rfl

/-- An error comes up before anything is stored. -/
theorem run_analyzeFunction_of_error (h : f.summarize.outcome = .error e) (a : Analyzer) :
    (analyzeFunction f).run a = .error e ⟨a.environment, a.log ++ f.summarize.events⟩ := by
  simp only [analyzeFunction, follow, h]
  rfl

theorem analyzeFunctions_cons (f : Function) (fs : List Function) :
    analyzeFunctions (f :: fs) =
      ((analyzeFunction f).adaptExcept .step >>= fun _ => analyzeFunctions fs) := rfl

/-- Either all functions can be interpreted, and the environment has gained their summaries, or it
has gained those of the functions before the first that cannot. -/
theorem analyzeFunctions_cases (fs : List Function) (a : Analyzer) :
    (∃ log, (∀ f ∈ fs, f.Interpretable) ∧ (analyzeFunctions fs).run a =
      .ok () ⟨a.environment.addSummaries (fs.map Function.ownSummary), log⟩) ∨
    ∃ front f back e log, fs = front ++ f :: back ∧ (∀ g ∈ front, g.Interpretable) ∧
      f.FailsWith e ∧ (analyzeFunctions fs).run a =
        .error (.step e) ⟨a.environment.addSummaries (front.map Function.ownSummary), log⟩ := by
  induction fs generalizing a with
  | nil => exact .inl ⟨a.log, fun f hf => absurd hf List.not_mem_nil, rfl⟩
  | cons f fs ih =>
    rcases f.summarize_cases with ⟨hf, hsummary⟩ | ⟨e, hfails, herror⟩
    · have hrun := run_analyzeFunction_of_ok hsummary a
      have hcons : (analyzeFunctions (f :: fs)).run a = (analyzeFunctions fs).run
          ⟨a.environment.addSummary f.ownSummary, a.log ++ f.summarize.events⟩ := by
        rw [analyzeFunctions_cons, EStateM.run_bind, EStateM.run_adaptExcept, hrun]
      rw [hcons]
      rcases ih ⟨a.environment.addSummary f.ownSummary, a.log ++ f.summarize.events⟩ with
        ⟨log, hall, hrest⟩ | ⟨front, g, back, e, log, rfl, hfront, hfails, hrest⟩
      · exact .inl ⟨log, List.forall_mem_cons.2 ⟨hf, hall⟩, hrest⟩
      · exact .inr ⟨f :: front, g, back, e, log, rfl, List.forall_mem_cons.2 ⟨hf, hfront⟩, hfails,
          hrest⟩
    · have hrun := run_analyzeFunction_of_error herror a
      refine .inr ⟨[], f, fs, e, a.log ++ f.summarize.events, rfl,
        fun g hg => absurd hg List.not_mem_nil, hfails, ?_⟩
      rw [analyzeFunctions_cons, EStateM.run_bind, EStateM.run_adaptExcept, hrun]
      rfl

/-- If all functions can be interpreted, all of them leave their summaries. -/
theorem run_analyzeFunctions_of_interpretable (h : ∀ f ∈ fs, f.Interpretable) (a : Analyzer) :
    ∃ log, (analyzeFunctions fs).run a =
      .ok () ⟨a.environment.addSummaries (fs.map Function.ownSummary), log⟩ := by
  rcases analyzeFunctions_cases fs a with
    ⟨log, -, hrun⟩ | ⟨front, f, back, e, log, rfl, -, hfails, -⟩
  · exact ⟨log, hrun⟩
  · have hf := h f (List.mem_append_right front List.mem_cons_self)
    exact absurd hf hfails.not_interpretable

/-- A module with a flaw changes nothing, neither the environment nor the log. -/
theorem run_analyzeModule_of_flaw {flaw : Flaw} (h : m.flaw? = some flaw) (a : Analyzer) :
    (analyzeModule m).run a = .error (.flaw flaw) a := by
  rw [analyzeModule, validate, h]
  rfl

/-- A module without a flaw is analysed function by function, in the order of the keys. -/
theorem run_analyzeModule_of_no_flaw (h : m.flaw? = none) (a : Analyzer) :
    (analyzeModule m).run a = (analyzeFunctions m.functions.values).run a := by
  rw [analyzeModule, validate, h]
  rfl

end Analyzer

/-! ## Modules -/

namespace Module

variable {m : Module} {key : String} {f : Function}

/-- The functions of a module whose keys come before a key. -/
def before (m : Module) (key : String) : Module where
  functions := ⟨m.functions.entries.filter fun p => KeyOrder.before p.1 key,
    m.functions.ascending.filter _⟩

/-- The part of a module before a key has the functions whose keys stand before it. -/
theorem get?_before (m : Module) (key name : String) :
    (m.before key).functions.get? name = some f ↔
      m.functions.get? name = some f ∧ KeyOrder.before name key = true := by
  rw [← Table.mem_entries_iff (p := (name, f)), ← Table.mem_entries_iff (p := (name, f))]
  exact List.mem_filter

theorem get?_before_self (m : Module) (key : String) :
    (m.before key).functions.get? key = none := by
  refine Option.eq_none_iff_forall_ne_some.2 fun f hf => ?_
  have hbefore := ((get?_before m key key).1 hf).2
  rw [KeyOrder.before_irrefl] at hbefore
  cases hbefore

/-- In a module without a flaw a function stands under its name. -/
theorem name_eq_of_get? (h : m.flaw? = none) (hf : m.functions.get? key = some f) : f.name = key :=
  (wellFormed_iff.1 (flaw?_eq_none_iff.1 h) key f hf).1

/-- A part of a module without a flaw has none. -/
theorem flaw?_before (h : m.flaw? = none) (key : String) : (m.before key).flaw? = none :=
  flaw?_eq_none_iff.2 (wellFormed_iff.2 fun name f hf =>
    wellFormed_iff.1 (flaw?_eq_none_iff.1 h) name f ((get?_before m key name).1 hf).1)

/-- In a module without a flaw the functions have the keys as names. -/
theorem names_eq_keys (h : m.flaw? = none) :
    m.functions.values.map Function.name = m.functions.keys := by
  rw [Table.values, Table.keys, List.map_map]
  refine List.map_congr_left fun p hp => ?_
  exact name_eq_of_get? h (Table.mem_entries_iff.1 hp)

/-- The functions of a module without a flaw stand under their names. -/
theorem mem_values_iff (h : m.flaw? = none) :
    f ∈ m.functions.values ↔ m.functions.get? f.name = some f := by
  rw [Table.values, List.mem_map]
  constructor
  · rintro ⟨p, hp, rfl⟩
    have hget := Table.mem_entries_iff.1 hp
    rwa [name_eq_of_get? h hget]
  · exact fun hget => ⟨(f.name, f), Table.mem_entries_iff.2 hget, rfl⟩

/-- A function in the list of all functions stands behind those with smaller keys. -/
theorem exists_key_of_values {front back : List Function}
    (h : m.functions.values = front ++ f :: back) :
    ∃ key, m.functions.get? key = some f ∧ (m.before key).functions.values = front := by
  obtain ⟨frontEntries, rest, hentries, hfront, hrest⟩ := List.map_eq_append_iff.1 h
  obtain ⟨p, backEntries, rfl, hp, -⟩ := List.map_eq_cons_iff.1 hrest
  obtain ⟨key, g⟩ := p
  cases hp
  refine ⟨key, Table.get?_of_mem_entries ?_, ?_⟩
  · exact hentries ▸ List.mem_append_right frontEntries List.mem_cons_self
  · rw [← hfront, ← Table.filter_before hentries]
    rfl

end Module

namespace Environment

/-- The environment `after` is `env` with the summaries of the functions of a module and their calls.
Each summary is made of the blocks of its function alone. -/
structure Gains (env after : Environment) (m : Module) : Prop where
  summary : ∀ key f, m.functions.get? key = some f → after.summary? key = some f.ownSummary
  other : ∀ name, m.functions.get? name = none → after.summary? name = env.summary? name
  records : ∀ f g, after.Records f g ↔ env.Records f g ∨
    ∃ function, m.functions.get? f = some function ∧ g ∈ function.ownSummary.callees.keys

variable {env after : Environment} {m : Module}

/-- What is gained by adding the summaries of a module is what the module contributes. -/
theorem gains_addSummaries (h : m.flaw? = none) (env : Environment) :
    env.Gains (env.addSummaries (m.functions.values.map Function.ownSummary)) m := by
  have hnames : (m.functions.values.map Function.ownSummary).map Summary.name =
      m.functions.keys := by
    rw [List.map_map, ← Module.names_eq_keys h]
    rfl
  refine ⟨fun key f hf => ?_, fun name hname => ?_, fun f g => ?_⟩
  · have hkey : f.name = key := Module.name_eq_of_get? h hf
    rw [← hkey] at hf ⊢
    exact summary?_addSummaries_of_mem (hnames ▸ m.functions.nodup_keys)
      (List.mem_map_of_mem ((Module.mem_values_iff h).2 hf))
  · refine summary?_addSummaries_of_not_mem ?_
    rw [hnames, Table.mem_keys_iff, hname]
    simp
  · rw [records_addSummaries]
    refine or_congr_right ⟨?_, ?_⟩
    · rintro ⟨s, hs, rfl, hg⟩
      obtain ⟨function, hfunction, rfl⟩ := List.mem_map.1 hs
      exact ⟨function, (Module.mem_values_iff h).1 hfunction, hg⟩
    · rintro ⟨function, hfunction, hg⟩
      have hname : function.name = f := Module.name_eq_of_get? h hfunction
      rw [← hname] at hfunction
      exact ⟨function.ownSummary, List.mem_map_of_mem ((Module.mem_values_iff h).2 hfunction),
        hname, hg⟩

/-- What is recorded of a function that is not in the module stays as it is. -/
theorem Gains.calleesOf_eq (h : env.Gains after m) {name : String}
    (hname : m.functions.get? name = none) : after.calleesOf name = env.calleesOf name := by
  refine NameSet.ext_keys fun g => ?_
  rw [← records_iff_mem_keys, ← records_iff_mem_keys, h.records, hname]
  simp

end Environment

namespace Analyzer

variable {m : Module}

/-- A module is refused, analyzed to its end, or analyzed up to the first function that fails. -/
theorem analyzeModule_cases (m : Module) (a : Analyzer) :
    (∃ flaw, m.flaw? = some flaw ∧ (analyzeModule m).run a = .error (.flaw flaw) a) ∨
    (m.flaw? = none ∧ (∀ key f, m.functions.get? key = some f → f.Interpretable) ∧
      ∃ log, (analyzeModule m).run a =
        .ok () ⟨a.environment.addSummaries (m.functions.values.map Function.ownSummary), log⟩) ∨
    (m.flaw? = none ∧ ∃ key f e log, m.functions.get? key = some f ∧ f.FailsWith e ∧
      (∀ g ∈ (m.before key).functions.values, g.Interpretable) ∧
      (analyzeModule m).run a = .error (.step e) ⟨a.environment.addSummaries
        ((m.before key).functions.values.map Function.ownSummary), log⟩) := by
  cases hflaw : m.flaw? with
  | some flaw => exact .inl ⟨flaw, rfl, run_analyzeModule_of_flaw hflaw a⟩
  | none =>
    rw [run_analyzeModule_of_no_flaw hflaw]
    rcases analyzeFunctions_cases m.functions.values a with
      ⟨log, hall, hrun⟩ | ⟨front, f, back, e, log, hvalues, hfront, hfails, hrun⟩
    · exact .inr (.inl ⟨rfl, fun key f hf => hall f (Table.mem_values_of_get? hf), log, hrun⟩)
    · obtain ⟨key, hkey, rfl⟩ := Module.exists_key_of_values hvalues
      exact .inr (.inr ⟨rfl, key, f, e, log, hkey, hfails, hfront, hrun⟩)

/-- Analysis ends with a flaw just if the module has it, and has then changed nothing. -/
theorem run_analyzeModule_eq_flaw_iff {a a' : Analyzer} {flaw : Flaw} :
    (analyzeModule m).run a = .error (.flaw flaw) a' ↔ m.flaw? = some flaw ∧ a' = a := by
  constructor
  · intro h
    rcases analyzeModule_cases m a with
      ⟨flaw', hflaw, hrun⟩ | ⟨-, -, log, hrun⟩ | ⟨-, key, f, e, log, -, -, -, hrun⟩
    all_goals
      rw [hrun] at h
      cases h
    exact ⟨hflaw, rfl⟩
  · rintro ⟨hflaw, rfl⟩
    exact run_analyzeModule_of_flaw hflaw a'

/-- Analysis can end with a flaw of the module or an error of a step, and with no other error. -/
theorem flaw_or_step_of_error {a a' : Analyzer} {e : Error}
    (h : (analyzeModule m).run a = .error e a') :
    (∃ flaw, e = .flaw flaw) ∨ ∃ stepError, e = .step stepError := by
  rcases analyzeModule_cases m a with
    ⟨flaw, -, hrun⟩ | ⟨-, -, log, hrun⟩ | ⟨-, key, f, e', log, -, -, -, hrun⟩
  all_goals
    rw [hrun] at h
    cases h
  · exact .inl ⟨flaw, rfl⟩
  · exact .inr ⟨e', rfl⟩

/-- If a function fails, the environment is the one that the functions before it lead to. -/
theorem exists_before_of_step {a a' : Analyzer} {e : StepError}
    (h : (analyzeModule m).run a = .error (.step e) a') :
    ∃ key f before, m.functions.get? key = some f ∧ f.FailsWith e ∧
      (analyzeModule (m.before key)).run a = .ok () before ∧
      a'.environment = before.environment ∧ a.environment.Gains a'.environment (m.before key) := by
  rcases analyzeModule_cases m a with
    ⟨flaw, -, hrun⟩ | ⟨-, -, log, hrun⟩ | ⟨hflaw, key, f, e', log, hkey, hfails, hfront, hrun⟩
  all_goals
    rw [hrun] at h
    cases h
  have hpass := Module.flaw?_before hflaw key
  obtain ⟨log', hbefore⟩ := run_analyzeFunctions_of_interpretable hfront a
  refine ⟨key, f, _, hkey, hfails, (run_analyzeModule_of_no_flaw hpass a).trans hbefore, rfl, ?_⟩
  exact Environment.gains_addSummaries hpass a.environment

/-- Analysis that succeeds has added the summary of each function and nothing else. -/
theorem eq_addSummaries_of_ok {a a' : Analyzer} {u : Unit} (h : (analyzeModule m).run a = .ok u a') :
    m.flaw? = none ∧ (∀ key f, m.functions.get? key = some f → f.Interpretable) ∧
      a'.environment =
        a.environment.addSummaries (m.functions.values.map Function.ownSummary) := by
  rcases analyzeModule_cases m a with
    ⟨flaw, -, hrun⟩ | ⟨hflaw, hall, log, hrun⟩ | ⟨-, key, f, e, log, -, -, -, hrun⟩
  all_goals
    rw [hrun] at h
    cases h
  exact ⟨hflaw, hall, rfl⟩

/-- Analysis succeeds on modules without a flaw whose functions can all be interpreted. -/
theorem exists_run_of_interpretable (hflaw : m.flaw? = none)
    (hall : ∀ key f, m.functions.get? key = some f → f.Interpretable) (a : Analyzer) :
    ∃ log, (analyzeModule m).run a =
      .ok () ⟨a.environment.addSummaries (m.functions.values.map Function.ownSummary), log⟩ := by
  rw [run_analyzeModule_of_no_flaw hflaw]
  refine run_analyzeFunctions_of_interpretable (fun f hf => ?_) a
  exact hall f.name f ((Module.mem_values_iff hflaw).1 hf)

/-- To analyze a module again changes nothing. -/
theorem exists_again_of_ok {a a' : Analyzer} {u : Unit} (h : (analyzeModule m).run a = .ok u a') :
    ∃ again, (analyzeModule m).run a' = .ok () again ∧ again.environment = a'.environment := by
  obtain ⟨hflaw, hall, henv⟩ := eq_addSummaries_of_ok h
  obtain ⟨log, hagain⟩ := exists_run_of_interpretable hflaw hall a'
  refine ⟨_, hagain, ?_⟩
  rw [henv]
  refine Environment.addSummaries_addSummaries ?_
  rw [List.map_map]
  exact Module.names_eq_keys hflaw ▸ m.functions.nodup_keys

/-- **Analysis adds whole summaries only.** A module with a flaw changes nothing. If a function
fails, because one of its blocks does, the environment is the one that the successful analysis of the
functions with smaller keys leads to, and nothing of the function itself is in it. Otherwise every
function of the module has the summary that its own blocks make, all else is as before, and to analyze
the module again changes nothing. -/
theorem analyzeModule_exact (m : Module) (a : Analyzer) :
    (∀ flaw a', (analyzeModule m).run a = .error (.flaw flaw) a' ↔
      m.flaw? = some flaw ∧ a' = a) ∧
    (∀ e a', (analyzeModule m).run a = .error (.step e) a' →
      ∃ key f before, m.functions.get? key = some f ∧ f.FailsWith e ∧
        (analyzeModule (m.before key)).run a = .ok () before ∧
        a'.environment = before.environment ∧
        a'.environment.summary? key = a.environment.summary? key ∧
        a'.environment.calleesOf key = a.environment.calleesOf key) ∧
    (∀ a', (analyzeModule m).run a = .ok () a' →
      a.environment.Gains a'.environment m ∧
      ∃ again, (analyzeModule m).run a' = .ok () again ∧ again.environment = a'.environment) ∧
    ((∃ a', (analyzeModule m).run a = .ok () a') ↔
      m.flaw? = none ∧ ∀ key f, m.functions.get? key = some f → f.Interpretable) ∧
    ∀ e a', (analyzeModule m).run a = .error e a' →
      (∃ flaw, e = .flaw flaw) ∨ ∃ stepError, e = .step stepError := by
  refine ⟨fun flaw a' => run_analyzeModule_eq_flaw_iff, fun e a' h => ?_, fun a' h => ?_, ⟨?_, ?_⟩,
    fun e a' => flaw_or_step_of_error⟩
  · obtain ⟨key, f, before, hkey, hfails, hbefore, henv, hgains⟩ := exists_before_of_step h
    have hnone : (m.before key).functions.get? key = none := m.get?_before_self key
    exact ⟨key, f, before, hkey, hfails, hbefore, henv, hgains.other key hnone,
      hgains.calleesOf_eq hnone⟩
  · obtain ⟨hflaw, -, henv⟩ := eq_addSummaries_of_ok h
    exact ⟨henv ▸ Environment.gains_addSummaries hflaw a.environment, exists_again_of_ok h⟩
  · rintro ⟨a', h⟩
    obtain ⟨hflaw, hall, -⟩ := eq_addSummaries_of_ok h
    exact ⟨hflaw, hall⟩
  · rintro ⟨hflaw, hall⟩
    obtain ⟨log, hrun⟩ := exists_run_of_interpretable hflaw hall a
    exact ⟨_, hrun⟩

/-- `a` calls `g`. The first block of `b` calls `h`, and the second one calls a number. -/
def secondFails : Module where
  functions := .ofList
    [("a", ⟨"a", [⟨"entry", [], [⟨["%0"], .functionRef "g" (.named "G")⟩, ⟨["%1"], .apply "%0" []⟩],
        .unreachable⟩]⟩),
      ("b", ⟨"b", [⟨"entry", [], [⟨["%0"], .functionRef "h" (.named "H")⟩, ⟨["%1"], .apply "%0" []⟩],
          .branch "exit" []⟩,
        ⟨"exit", [], [⟨["%0"], .integerLiteral (.select (.named "Builtin") "Int64") 1⟩,
          ⟨["%1"], .apply "%0" []⟩], .unreachable⟩]⟩),
      ("c", ⟨"c", [⟨"entry", [], [], .unreachable⟩]⟩)]

/-- An older summary of `b`, which calls `k`. -/
def olderB : Analyzer := ⟨Environment.empty.addSummary ⟨"b", [], [], [.call "k" "%r" []]⟩, []⟩

/-- The older summary of `b` stays, with its call, and `c` is not reached. -/
theorem analyzeModule_secondFails :
    ∃ a', (analyzeModule secondFails).run olderB =
        .error (.step (.nonFunctionCallee "%0" (.int 1))) a' ∧
      a'.environment.functions = ["a", "b"] ∧
      (a'.environment.calleesOf "a").keys = ["g"] ∧ (a'.environment.calleesOf "b").keys = ["k"] ∧
      ∃ key f before, secondFails.functions.get? key = some f ∧
        f.FailsWith (.nonFunctionCallee "%0" (.int 1)) ∧
        (analyzeModule (secondFails.before key)).run olderB = .ok () before ∧
        a'.environment = before.environment := by
  have hrun : (analyzeModule secondFails).run olderB =
      .error (.step (.nonFunctionCallee "%0" (.int 1))) _ := rfl
  obtain ⟨key, f, before, hkey, hfails, hbefore, henv, -, -⟩ :=
    (analyzeModule_exact secondFails olderB).2.1 _ _ hrun
  exact ⟨_, hrun, by decide, by decide, by decide, key, f, before, hkey, hfails, hbefore, henv⟩

end Analyzer

end TensorShape
