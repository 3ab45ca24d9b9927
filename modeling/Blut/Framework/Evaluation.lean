/-
  What a plan means when its stages are functions.

  `fates` says for every node, without any schedule, whether it completes and with which output,
  is skipped, fails with a warning or fails the plan. It is the one solution of `fateRule`
  (`fates_eq`). `Confluence` shows that this is what the coordinator computes, `Sequential` what
  the sequential executor makes of it.
-/
import Blut.Lib.Dataflow
import Blut.Framework.Coordinator

namespace Blut.Framework

open Blut.Lib

variable {V Key : Type}

/-! ## Stages and the cache -/

variable {runtime : Runtime V Key} {s' : Coordinator V Key} {setup : Setup V Key}

/-- What the stages compute: an output, or the text of a failure. -/
abbrev Behaviour (V : Type) := PlanNode → V → Except String V

/-- What the nodes answer in one run, where each runs at most once. -/
abbrev Answer (V : Type) := Nat → V → Except String V

/-- What `run_node` may answer: what the stage computes, or what the cache holds under the key of
    the invocation, which an invocation with this key has produced. -/
def Answers (runtime : Runtime V Key) (stages : Behaviour V) (node : PlanNode) (input : V)
    (answer : Except String V) : Prop :=
  answer = stages node input ∨
    ∃ node' input' output, runtime.nodeCacheKey node' input' = runtime.nodeCacheKey node input ∧
      stages node' input' = .ok output ∧ answer = .ok output

/-- Invocations with one key have one output. -/
def KeysSound (runtime : Runtime V Key) (stages : Behaviour V) : Prop :=
  ∀ node node' input input' output,
    runtime.nodeCacheKey node' input' = runtime.nodeCacheKey node input →
      stages node' input' = .ok output → stages node input = .ok output

variable {input : V} {n : Nat} {s : Coordinator V Key}

theorem Answers.eq {stages : Behaviour V} (hkeys : KeysSound runtime stages) {node : PlanNode}
    {answer : Except String V} (h : Answers runtime stages node input answer) :
    answer = stages node input := by
  rcases h with h | ⟨node', input', output, hkey, hrun, rfl⟩
  · exact h
  · exact (hkeys node node' input input' output hkey hrun).symm

/-- The answers of a run with these stages and a cache; which of them come from the cache is left
    open. -/
def Consults (runtime : Runtime V Key) (stages : Behaviour V) (nodes : List PlanNode)
    (answer : Answer V) : Prop :=
  ∀ n node, nodes[n]? = some node → ∀ input, Answers runtime stages node input (answer n input)

/-- `run_fused_group`: the task of a member after the first is built from the output of the
    member before it. -/
def runMembers (answer : Answer V) : V → List Nat → Except (Nat × String) (List V)
  | _, [] => .ok []
  | input, n :: rest =>
    match answer n input with
    | .error reason => .error (n, reason)
    | .ok output => (runMembers answer output rest).map (output :: ·)

variable {answer : Answer V}

theorem runMembers_ok {output : V} (h : answer n input = .ok output) (rest : List Nat) :
    runMembers answer input (n :: rest) = (runMembers answer output rest).map (output :: ·) := by
  rw [runMembers, h]

theorem runMembers_error {reason : String} (h : answer n input = .error reason) (rest : List Nat) :
    runMembers answer input (n :: rest) = .error (n, reason) := by
  rw [runMembers, h]

def TaskResult.ofMembers : Except (Nat × String) (List V) → TaskResult V
  | .ok outputs => .finished outputs
  | .error (n, reason) => .stage n reason

/-- The moves of a run with these answers. After an error the other tasks may be cancelled. -/
def Given (answer : Answer V) (s : Coordinator V Key) : Move V → Prop
  | .finish index result => ∀ task, s.join[index]? = some task →
      (s.firstError ≠ none ∧ result = .cancelled) ∨
        result = TaskResult.ofMembers (runMembers answer task.input task.members)
  | _ => True

/-- What a scheduler chooses: a ready node, or the task that finishes next. -/
inductive Choice where
  | take (node : Nat)
  | await (index : Nat)

def Answer.moveOf (answer : Answer V) (s : Coordinator V Key) : Choice → Option (Move V)
  | .take node => some (.dispatch node)
  | .await index => s.join[index]?.map fun task =>
      .finish index (TaskResult.ofMembers (runMembers answer task.input task.members))

/-- The run with these answers and choices. -/
def Setup.play [DecidableEq Key] (setup : Setup V Key) (answer : Answer V) :
    List Choice → Coordinator V Key → Option (Coordinator V Key)
  | [], s => some s
  | choice :: choices, s =>
    (answer.moveOf s choice).bind fun move => (setup.step s move).bind (setup.play answer choices)

theorem Answer.given_moveOf {choice : Choice} {move : Move V}
    (h : answer.moveOf s choice = some move) : Given answer s move := by
  cases choice with
  | take node =>
    cases h
    trivial
  | await index =>
    obtain ⟨task, htask, rfl⟩ := Option.map_eq_some_iff.mp h
    intro task' htask'
    cases htask.symm.trans htask'
    exact Or.inr rfl

variable {choices : List Choice}

/-- A played run is a run of the moves that the answers lead to. -/
theorem Reachable.played [DecidableEq Key] {allowed : Coordinator V Key → Move V → Prop}
    (hallowed : ∀ s choice move, answer.moveOf s choice = some move → allowed s move)
    (h : Reachable setup allowed s) (hplay : setup.play answer choices s = some s') :
    Reachable setup allowed s' := by
  induction choices generalizing s with
  | nil =>
    cases hplay
    exact h
  | cons choice choices ih =>
    obtain ⟨move, hmove, hrest⟩ := Option.bind_eq_some_iff.mp hplay
    obtain ⟨next, hstep, hrest⟩ := Option.bind_eq_some_iff.mp hrest
    exact ih (h.step (hallowed s choice move hmove) hstep) hrest

theorem Reachable.play [DecidableEq Key] (h : Reachable setup (Given answer) s)
    (hplay : setup.play answer choices s = some s') : Reachable setup (Given answer) s' :=
  h.played (fun _ _ _ => Answer.given_moveOf) hplay

/-! ## Fates -/

inductive Fate (V : Type) where
  | done (output : V)
  | skipped
  | warned (reason : String)
  | fatal

def Fate.output : Fate V → Option V
  | .done output => some output
  | _ => none

/-- The outputs of the nodes that complete. -/
def valueOf (env : Nat → Option (Fate V)) (n : Nat) : Option V := (env n).bind Fate.output

variable {env : Nat → Option (Fate V)}

theorem valueOf_eq_some {v : V} :
    valueOf env n = some v ↔ env n = some (.done v) := by
  unfold valueOf
  rcases env n with _ | (_ | _ | _ | _) <;> simp [Fate.output]

variable {fate : Fate V}

theorem valueOf_eq (h : env n = some fate) :
    valueOf env n = fate.output := by
  unfold valueOf
  rw [h]
  rfl

/-- The inputs of the node are there and its gates let it through. -/
def Admitted (plan : CompiledPlan V) (runtime : Runtime V Key) (env : Nat → Option (Fate V))
    (n : Nat) : Prop :=
  (∀ p ∈ predecessors plan.edges n, (valueOf env p).isSome = true) ∧
    ∀ g ∈ plan.conditionGates, g.target = n →
      (valueOf env g.condition).bind runtime.decision = some g.when

instance (plan : CompiledPlan V) (runtime : Runtime V Key) (env : Nat → Option (Fate V)) (n : Nat) :
    Decidable (Admitted plan runtime env n) := by
  unfold Admitted
  infer_instance

/-- The outputs a node can read: its predecessors', and the seed under its own id. -/
def inputsFor (plan : CompiledPlan V) (env : Nat → Option (Fate V)) (n : Nat) : Nat → Option V :=
  Function.update (valueOf env) n (plan.initial n)

/-- The fate of a node whose stage answers. A selector has to decide. -/
def answered (plan : CompiledPlan V) (runtime : Runtime V Key) (strict : Bool) (n : Nat)
    (stage : Stage) : Except String V → Fate V
  | .ok output =>
    if gatesOf plan.conditionGates n ≠ [] ∧ runtime.decision output = none then .fatal
    else .done output
  | .error reason => if stage.isAdvisory = true ∧ strict = false then .warned reason else .fatal

def fateRule (plan : CompiledPlan V) (runtime : Runtime V Key) (strict : Bool)
    (answer : Answer V) (n : Nat) (env : Nat → Option (Fate V)) : Fate V :=
  if Admitted plan runtime env n then
    match plan.nodes[n]?, gatherInput runtime plan.edges (inputsFor plan env n) n with
    | some node, .ok input => answered plan runtime strict n node.stage (answer n input)
    | _, _ => .fatal
  else .skipped

def Setup.fates (setup : Setup V Key) (answer : Answer V) : Nat → Option (Fate V) :=
  evalAlong (fateRule setup.plan setup.runtime setup.ctx.strictAdvisory answer) setup.order

/-! ## The rule reads what comes before -/

variable {outputs' outputs : Nat → Option V} {plan : CompiledPlan V} {edges : List PlanEdge}

/-- A node reads the outputs of its predecessors, or the one under its own id. -/
theorem gatherInput_congr (runtime : Runtime V Key)
    (hpreds : ∀ p ∈ predecessors edges n, outputs p = outputs' p)
    (hroot : predecessors edges n = [] → outputs n = outputs' n) :
    gatherInput runtime edges outputs n = gatherInput runtime edges outputs' n := by
  have hfetch : ∀ p ∈ predecessors edges n, fetchOutput outputs n p = fetchOutput outputs' n p := by
    intro p hp
    unfold fetchOutput
    rw [hpreds p hp]
  unfold gatherInput
  split
  · rename_i hnil
    rw [hroot hnil]
  · rename_i single hsingle
    exact hfetch single (by simp [hsingle])
  · rw [mapM_congr hfetch]

theorem gatherInput_update (runtime : Runtime V Key) {seed : Option V}
    (hpreds : ∀ p ∈ predecessors edges n, outputs p = outputs' p) :
    gatherInput runtime edges (Function.update outputs n seed) n =
      gatherInput runtime edges (Function.update outputs' n seed) n := by
  refine gatherInput_congr runtime (fun p hp => ?_) fun _ => ?_
  · rw [Function.update_apply, Function.update_apply, hpreds p hp]
  · rw [Function.update_self, Function.update_self]

theorem admitted_congr {env' : Nat → Option (Fate V)}
    (h : ∀ src, (src, n) ∈ plan.arcs → env src = env' src)
    (hadmitted : Admitted plan runtime env n) : Admitted plan runtime env' n := by
  refine ⟨fun p hp => ?_, fun g hg ht => ?_⟩
  · have hsame := h p (mem_arcsOf.mpr (Or.inl (mem_predecessors.mp hp)))
    unfold valueOf
    rw [← hsame]
    exact hadmitted.1 p hp
  · have hsame := h g.condition (mem_arcsOf.mpr (Or.inr ⟨g, hg, rfl, ht⟩))
    unfold valueOf
    rw [← hsame]
    exact hadmitted.2 g hg ht

theorem reads_fateRule (plan : CompiledPlan V) (runtime : Runtime V Key) (strict : Bool)
    (answer : Answer V) : Reads (fateRule plan runtime strict answer) plan.arcs := by
  intro n env env' h
  have hadmitted : Admitted plan runtime env n ↔ Admitted plan runtime env' n :=
    ⟨admitted_congr h, admitted_congr fun src hsrc => (h src hsrc).symm⟩
  have hinput : gatherInput runtime plan.edges (inputsFor plan env n) n =
      gatherInput runtime plan.edges (inputsFor plan env' n) n :=
    gatherInput_update runtime fun p hp => by
      rw [valueOf, h p (mem_arcsOf.mpr (Or.inl (mem_predecessors.mp hp))), valueOf]
  unfold fateRule
  rw [hinput]
  simp only [hadmitted]

/-- The fates depend on the answers of the nodes of the plan. -/
theorem fateRule_congr (runtime : Runtime V Key) (strict : Bool) {answer' : Answer V}
    (h : ∀ n < plan.nodes.length, answer n = answer' n) :
    fateRule plan runtime strict answer = fateRule plan runtime strict answer' := by
  funext n env
  unfold fateRule
  split
  · split
    · rename_i node input hnode _
      rw [h n (List.getElem?_eq_some_iff.mp hnode).1]
    · rfl
  · rfl

theorem Setup.mem_order (setup : Setup V Key) (n : Nat) :
    n ∈ setup.order ↔ n < setup.plan.nodes.length :=
  (topoOrder_eq_ok setup.ordered).mem n

/-- The fates solve the rule. -/
theorem Setup.fates_eq (setup : Setup V Key) (answer : Answer V) (hn : n ∈ setup.order) :
    setup.fates answer n = some (fateRule setup.plan setup.runtime setup.ctx.strictAdvisory answer n
      (setup.fates answer)) := by
  have hordered := topoOrder_eq_ok setup.ordered
  exact evalAlong_fix hordered.nodup hordered.topological (reads_fateRule _ _ _ _) hn

theorem Setup.mem_of_fates (h : setup.fates answer n = some fate) :
    n ∈ setup.order := by
  by_contra hno
  exact Option.some_ne_none _ (h.symm.trans (evalAlong_of_not_mem _ hno))

theorem Setup.value_of_not_mem (setup : Setup V Key) (answer : Answer V) (hn : n ∉ setup.order) :
    valueOf (setup.fates answer) n = none := by
  unfold valueOf Setup.fates
  rw [evalAlong_of_not_mem _ hn]
  rfl

/-- What a fate says of its node. -/
theorem Setup.fates_cases (h : setup.fates answer n = some fate) :
    (fate = .skipped ∧ ¬ Admitted setup.plan setup.runtime (setup.fates answer) n) ∨
      fate = .fatal ∨ ∃ node input, setup.plan.nodes[n]? = some node ∧
        gatherInput setup.runtime setup.plan.edges (inputsFor setup.plan (setup.fates answer) n) n =
          .ok input ∧
        fate = answered setup.plan setup.runtime setup.ctx.strictAdvisory n node.stage
          (answer n input) := by
  rw [setup.fates_eq answer (setup.mem_of_fates h), Option.some_inj] at h
  subst h
  unfold fateRule
  split
  · refine Or.inr ?_
    split
    · rename_i node input hnode hinput
      exact Or.inr ⟨node, input, hnode, hinput, rfl⟩
    · exact Or.inl rfl
  · rename_i hnot
    exact Or.inl ⟨rfl, hnot⟩

/-- A node that is not admitted is skipped. -/
theorem Setup.fates_skipped (hn : n ∈ setup.order)
    (hnot : ¬ Admitted setup.plan setup.runtime (setup.fates answer) n) :
    setup.fates answer n = some .skipped := by
  rw [setup.fates_eq answer hn]
  unfold fateRule
  rw [if_neg hnot]

/-- And no other. -/
theorem Setup.not_admitted (h : setup.fates answer n = some .skipped) :
    ¬ Admitted setup.plan setup.runtime (setup.fates answer) n := by
  rcases setup.fates_cases h with ⟨-, hnot⟩ | hfatal | ⟨node, input, -, -, hfate⟩
  · exact hnot
  · cases hfatal
  · unfold answered at hfate
    split at hfate <;> split at hfate <;> cases hfate

/-- The fate of an admitted node with an input. -/
theorem Setup.fates_answered {node : PlanNode}
    (hadmitted : Admitted setup.plan setup.runtime (setup.fates answer) n)
    (hnode : setup.plan.nodes[n]? = some node)
    (hinput : gatherInput setup.runtime setup.plan.edges
      (inputsFor setup.plan (setup.fates answer) n) n = .ok input) :
    setup.fates answer n =
      some (answered setup.plan setup.runtime setup.ctx.strictAdvisory n node.stage
        (answer n input)) := by
  have hn : n ∈ setup.order := by
    rw [setup.mem_order]
    exact (List.getElem?_eq_some_iff.mp hnode).1
  rw [setup.fates_eq answer hn]
  unfold fateRule
  rw [if_pos hadmitted, hnode, hinput]

/-- An admitted node without an input fails the plan. -/
theorem Setup.fates_stuck {fault : Fault PlanError} (hn : n ∈ setup.order)
    (hadmitted : Admitted setup.plan setup.runtime (setup.fates answer) n)
    (hinput : gatherInput setup.runtime setup.plan.edges
      (inputsFor setup.plan (setup.fates answer) n) n = .error fault) :
    setup.fates answer n = some .fatal := by
  rw [setup.fates_eq answer hn]
  unfold fateRule
  rw [if_pos hadmitted, hinput]
  split <;> simp_all

/-- Only an advisory stage leaves a warning, and only where that is allowed. -/
theorem Setup.fates_warned {reason : String} (h : setup.fates answer n = some (.warned reason)) :
    ∃ node, setup.plan.nodes[n]? = some node ∧ node.stage.isAdvisory = true ∧
      setup.ctx.strictAdvisory = false ∧ ∃ input, gatherInput setup.runtime setup.plan.edges
        (inputsFor setup.plan (setup.fates answer) n) n = .ok input := by
  rcases setup.fates_cases h with ⟨hskip, -⟩ | hfatal | ⟨node, input, hnode, hinput, hfate⟩
  · cases hskip
  · cases hfatal
  · unfold answered at hfate
    split at hfate <;> split at hfate <;> cases hfate
    rename_i hcond _
    exact ⟨node, hnode, hcond.1, hcond.2, input, hinput⟩

/-- An output is what the node answered. -/
theorem Setup.fates_done {v : V} (h : setup.fates answer n = some (.done v)) :
    ∃ input, answer n input = .ok v := by
  rcases setup.fates_cases h with ⟨hskip, -⟩ | hfatal | ⟨node, input, -, -, hfate⟩
  · cases hskip
  · cases hfatal
  · refine ⟨input, ?_⟩
    unfold answered at hfate
    split at hfate <;> split at hfate <;> cases hfate
    assumption

end Blut.Framework
