/-
  The coordinator of `ParallelExecutor` (`framework/executor.rs`), with speculation and the
  pipeline lane off.

  The state holds what the loop keeps between two awaits. A move is what the loop does between
  two points where another thing could have happened: inject the pending sub-plans (`drain`),
  take one ready node (`dispatch`), process the result of one task (`finish`), or accept a
  sub-plan from the control policy (`suggest`). The loop drains, then dispatches until it is full
  or nothing is ready, then waits for a task; the moves here may come in any order, so that what
  holds of every run holds of the loop whatever finishes first and whichever node `next_ready`
  prefers. Deadline and cancellation are left out: they only set the error.
-/
import Blut.Lib.Reachability
import Blut.Framework.Fusion

namespace Blut.Framework

open Blut.Lib

/-- The code the coordinator calls: artifacts with their logical hashes are `V`. -/
structure Runtime (V Key : Type) where
  /-- the `tuple<N>` envelope of several inputs -/
  tuple : List V → V
  /-- `into_typed::<BranchDecision>` -/
  decision : V → Option Bool
  /-- what is said of an artifact that is no `BranchDecision` -/
  decisionError : V → String
  /-- `decode_list_children`, with `map_element_logical` -/
  children : V → Option (List V)
  /-- what is said of an artifact that is no list -/
  childrenError : V → String
  /-- `node_cache_key` -/
  nodeCacheKey : PlanNode → V → Key

/-- The part of `ExecCtx` that the coordinator reads. -/
structure ExecCtx (V : Type) where
  maxInFlight : Nat
  /-- a control policy is set -/
  control : Bool
  /-- `strict_advisory()` -/
  strictAdvisory : Bool
  memoryBudgetGib : Nat
  /-- `resolve_injected_plan` and `install_training_io_profiles` -/
  resolveInjectedPlan : CompiledPlan V → Outcome PlanError Unit

/-- What is fixed before the loop starts. Groups are only formed without a control policy. -/
structure Setup (V Key : Type) where
  plan : CompiledPlan V
  ctx : ExecCtx V
  runtime : Runtime V Key
  order : List Nat
  groups : List (List Nat)
  ordered : plan.topoOrder = .ok order
  grouped : Grouped plan groups
  uncontrolled : groups ≠ [] → ctx.control = false

/-- A task in the `JoinSet`: one node, or the members of a fusion group. -/
structure Task (V Key : Type) where
  head : Nat
  tail : List Nat
  input : V
  key : Key

def Task.members {V Key : Type} (task : Task V Key) : List Nat := task.head :: task.tail

/-- How a task ends. `finished` has one output for each member. -/
inductive TaskResult (V : Type) where
  | finished (outputs : List V)
  | killed
  | stage (node : Nat) (source : String)
  | cancelled
  | other (error : PlanError)

structure SpawnDelta (V : Type) where
  subplan : CompiledPlan V
  rootSeeds : List (Nat × V)
  provenanceParent : Option Nat

structure StageWarning where
  idx : Nat
  stage : String
  reason : String
  deriving DecidableEq

/-- The state of the loop. `nodes` and `edges` are the plan's followed by the injected ones;
    `outcomes` and `started` keep as lists what the source counts and does not keep. -/
structure Coordinator (V Key : Type) where
  nodes : List PlanNode
  edges : List PlanEdge
  order : List Nat
  indeg : Nat → Nat
  ready : Finset Nat
  pruned : Finset Nat
  enabledConditionTargets : Finset Nat
  inflightKeys : Finset Key
  nodeKeyOf : Nat → Option Key
  deferred : Key → List Nat
  outputs : Nat → Option V
  join : List (Task V Key)
  pendingSpawns : List (SpawnDelta V)
  spawnsTotal : Nat
  outcomes : List (Nat × V)
  warnings : List StageWarning
  firstError : Option (Fault PlanError)
  started : List Nat

variable {V Key : Type} [DecidableEq Key]

/-- The nodes that completed. -/
def Coordinator.completed (s : Coordinator V Key) : List Nat := s.outcomes.map Prod.fst

/-! ## The setup -/

def Setup.isTarget (setup : Setup V Key) (node : Nat) : Bool :=
  setup.plan.conditionGates.any fun g => g.target = node

/-- `fused_internal_nodes`. -/
def Setup.fusedInternal (setup : Setup V Key) : List Nat := setup.groups.flatMap List.tail

/-- The members after the first of the group that starts at a node. -/
def Setup.tailOf (setup : Setup V Key) (node : Nat) : List Nat :=
  match setup.groups.find? fun g => g.head? = some node with
  | some g => g.tail
  | none => []

def Setup.start (setup : Setup V Key) : Coordinator V Key where
  nodes := setup.plan.nodes
  edges := setup.plan.edges
  order := setup.order
  indeg := fun node => (predecessors setup.plan.edges node).length
  ready := (Finset.range setup.plan.nodes.length).filter fun node =>
    predecessors setup.plan.edges node = [] ∧ setup.isTarget node = false
  pruned := ∅
  enabledConditionTargets := ∅
  inflightKeys := ∅
  nodeKeyOf := fun _ => none
  deferred := fun _ => []
  outputs := setup.plan.initial
  join := []
  pendingSpawns := []
  spawnsTotal := 0
  outcomes := []
  warnings := []
  firstError := none
  started := []

/-! ## Building a task -/

/-- The output of a predecessor. -/
def fetchOutput (outputs : Nat → Option V) (node predecessor : Nat) : Outcome PlanError V :=
  okOr (outputs predecessor) (.other s!"node {node} predecessor {predecessor} produced no output")

def gatherInput (runtime : Runtime V Key) (edges : List PlanEdge) (outputs : Nat → Option V)
    (node : Nat) : Outcome PlanError V :=
  match predecessors edges node with
  | [] => okOr (outputs node) (.other s!"node {node} has no predecessors and no initial input")
  | [single] => fetchOutput outputs node single
  | multi => do
    let children ← multi.mapM (fetchOutput outputs node)
    return runtime.tuple children

/-- A pure failure of the coordinator: the first error wins. -/
def Coordinator.failWith (s : Coordinator V Key) (fault : Fault PlanError) : Coordinator V Key :=
  { s with firstError := some (s.firstError.getD fault) }

/-- The ready node goes behind the running task with its key. -/
def Coordinator.defer (s : Coordinator V Key) (node : Nat) (key : Key) : Coordinator V Key :=
  { s with
    ready := s.ready.erase node
    deferred := Function.update s.deferred key (s.deferred key ++ [node]) }

/-- The ready node and the rest of its group start as one task. -/
def Coordinator.spawn (s : Coordinator V Key) (task : Task V Key) : Coordinator V Key :=
  { s with
    ready := s.ready.erase task.head
    inflightKeys := insert task.key s.inflightKeys
    nodeKeyOf := Function.update s.nodeKeyOf task.head (some task.key)
    join := s.join ++ [task]
    started := s.started ++ task.members }

/-- `build_task` of a ready node, then single-flight. -/
def Setup.admit (setup : Setup V Key) (s : Coordinator V Key) (node : Nat) : Coordinator V Key :=
  match expect s.nodes[node]?, gatherInput setup.runtime s.edges s.outputs node with
  | .error fault, _ => { s with ready := s.ready.erase node }.failWith fault
  | .ok _, .error fault => { s with ready := s.ready.erase node }.failWith fault
  | .ok planNode, .ok input =>
    let key := setup.runtime.nodeCacheKey planNode input
    if key ∈ s.inflightKeys then s.defer node key
    else s.spawn { head := node, tail := setup.tailOf node, input := input, key := key }

/-- One round of the spawn loop. -/
def Setup.dispatch (setup : Setup V Key) (s : Coordinator V Key) (node : Nat) : Coordinator V Key :=
  if node ∈ s.pruned then { s with ready := s.ready.erase node } else setup.admit s node

/-! ## Completion -/

/-- The key of a node that ended is free; the nodes behind it are ready again. -/
def Coordinator.freeKey (s : Coordinator V Key) (node : Nat) (wanted : Nat → Bool) :
    Coordinator V Key :=
  match s.nodeKeyOf node with
  | none => s
  | some key => { s with
      nodeKeyOf := Function.update s.nodeKeyOf node none
      inflightKeys := s.inflightKeys.erase key
      deferred := Function.update s.deferred key []
      ready := s.ready ∪ ((s.deferred key).filter wanted).toFinset }

def Setup.conditionAllows (setup : Setup V Key) (s : Coordinator V Key) (node : Nat) : Bool :=
  !setup.isTarget node || node ∈ s.enabledConditionTargets

/-- One input of a successor is there. -/
def Setup.lower (setup : Setup V Key) (s : Coordinator V Key) (target : Nat) : Coordinator V Key :=
  let degree := s.indeg target - 1
  { s with
    indeg := Function.update s.indeg target degree
    ready :=
      if degree = 0 ∧ setup.conditionAllows s target = true ∧ target ∉ setup.fusedInternal then
        insert target s.ready
      else s.ready }

/-- Prune a node and everything that follows it. Their seeds go. -/
def Coordinator.prune (s : Coordinator V Key) (next : Nat → List Nat) (node : Nat) :
    Coordinator V Key :=
  let pruned := reach next (Finset.range s.nodes.length) [node] s.pruned
  { s with
    pruned := pruned
    ready := s.ready \ (pruned \ s.pruned)
    outputs := fun id => if id ∈ pruned \ s.pruned then none else s.outputs id }

/-- The target of a gate is let through; it is ready when its inputs are there. -/
def Coordinator.enable (s : Coordinator V Key) (target : Nat) : Coordinator V Key :=
  { s with
    enabledConditionTargets := insert target s.enabledConditionTargets
    ready := if s.indeg target = 0 ∧ target ∉ s.pruned then insert target s.ready else s.ready }

/-- A gate whose selector has decided: the target is enabled or its branch pruned. -/
def Coordinator.resolveGate (value : Bool) (s : Coordinator V Key) (gate : CompiledConditionGate) :
    Coordinator V Key :=
  if value = gate.when then s.enable gate.target else s.prune (successors s.edges) gate.target

def Setup.resolveGates (setup : Setup V Key) (s : Coordinator V Key) (node : Nat) (output : V) :
    Coordinator V Key :=
  match gatesOf setup.plan.conditionGates node with
  | [] => s
  | gates =>
    match setup.runtime.decision output with
    | some value => gates.foldl (Coordinator.resolveGate value) s
    | none => s.failWith (.err (.other (s!"condition node {node} produced an invalid " ++
        s!"BranchDecision: {setup.runtime.decisionError output}")))

/-- One template instance for each element of a fan-out. -/
def elementDelta (expansion : MapExpansion) (parent : Nat) (element : V) : SpawnDelta V where
  subplan := expansion.template.instantiate
  rootSeeds := [(expansion.template.root, element)]
  provenanceParent := some parent

def Setup.queueExpansions (setup : Setup V Key) (node : Nat) (output : V) :
    List MapExpansion → Coordinator V Key → Coordinator V Key
  | [], s => s
  | expansion :: rest, s =>
    if expansion.parent ≠ node then setup.queueExpansions node output rest s
    else
      match setup.runtime.children output with
      | some elements =>
        setup.queueExpansions node output rest
          { s with pendingSpawns := s.pendingSpawns ++ elements.map (elementDelta expansion node) }
      | none => s.failWith (.err (.other (s!"map over node {node}: parent output is not a valid " ++
          s!"list: {setup.runtime.childrenError output}")))

/-- Run a part of the completion only while no error was recorded. -/
def Coordinator.unlessFailed (s : Coordinator V Key) (f : Coordinator V Key → Coordinator V Key) :
    Coordinator V Key :=
  if s.firstError.isNone then f s else s

/-- The outcome of one node. -/
def Coordinator.record (s : Coordinator V Key) (node : Nat) (output : V) : Coordinator V Key :=
  { s with
    outcomes := s.outcomes ++ [(node, output)]
    outputs := Function.update s.outputs node (some output) }

/-- The successors of a node that completed. -/
def Setup.lowerAll (setup : Setup V Key) (s : Coordinator V Key) (node : Nat) : Coordinator V Key :=
  (successors s.edges node).foldl setup.lower s

def Setup.complete (setup : Setup V Key) (s : Coordinator V Key) (outcome : Nat × V) :
    Coordinator V Key :=
  ((((s.record outcome.1 outcome.2).freeKey outcome.1 fun _ => true).unlessFailed
    (setup.lowerAll · outcome.1)).unlessFailed
      (setup.resolveGates · outcome.1 outcome.2)).unlessFailed
        (setup.queueExpansions outcome.1 outcome.2 setup.plan.expansions)

/-- The nodes a killed or failed node takes along. -/
def Setup.killNext (setup : Setup V Key) (s : Coordinator V Key) (node : Nat) : List Nat :=
  successors s.edges node ++ (gatesOf setup.plan.conditionGates node).map
    CompiledConditionGate.target

/-- A node was killed, or its advisory stage failed. -/
def Setup.abandon (setup : Setup V Key) (s : Coordinator V Key) (node : Nat) : Coordinator V Key :=
  (s.freeKey node fun waiter => waiter ∉ s.pruned).prune (setup.killNext s) node

def Coordinator.stageOf (s : Coordinator V Key) (node : Nat) : Option Stage :=
  s.nodes[node]?.map PlanNode.stage

def Coordinator.warn (s : Coordinator V Key) (warning : StageWarning) : Coordinator V Key :=
  { s with warnings := s.warnings ++ [warning] }

/-- A stage failed. Only the first member of a task is looked up in `node_stages`. -/
def Setup.failStage (setup : Setup V Key) (s : Coordinator V Key) (head node : Nat)
    (source : String) : Coordinator V Key :=
  match s.stageOf node with
  | none => s.failWith .panic
  | some stage =>
    let idx := s.order.idxOf node
    if node = head ∧ stage.isAdvisory = true ∧ setup.ctx.strictAdvisory = false then
      setup.abandon (s.warn { idx := idx, stage := stage.name, reason := source }) node
    else s.failWith (.err (.stageFailed idx stage.name source))

/-- The completion half of the loop, after the task left the `JoinSet`. -/
def Setup.process (setup : Setup V Key) (s : Coordinator V Key) (task : Task V Key) :
    TaskResult V → Coordinator V Key
  | .finished outputs => (task.members.zip outputs).foldl setup.complete s
  | .killed => setup.abandon s task.head
  | .stage node source => setup.failStage s task.head node source
  | .cancelled => s.failWith (.err .cancelled)
  | .other error => s.failWith (.err error)

/-! ## Injection -/

def maxRuntimeSpawns : Nat := 4096

inductive SpawnInjectionError where
  | trainingIo (fault : Fault PlanError)
  | structural (fault : Fault PlanError)

/-- `declared_footprint`, in GiB. -/
def CompiledPlan.declaredRamGib (plan : CompiledPlan V) : Nat :=
  ((plan.nodes ++ plan.expansions.flatMap fun e => e.template.nodes).map PlanNode.memoryGib).foldl
    max 2

def Coordinator.inheritedPartition (s : Coordinator V Key) (delta : SpawnDelta V) : Option String :=
  (delta.provenanceParent.bind fun parent => s.nodes[parent]?.bind PlanNode.partition).or
    (s.nodes.findSome? PlanNode.partition)

def PlanNode.withPartition (node : PlanNode) (partition : Option String) : PlanNode :=
  match partition with
  | some p => { node with partition := some p }
  | none => node

/-- The running graph with the nodes of a sub-plan after its own. -/
def Coordinator.extend (s : Coordinator V Key) (delta : SpawnDelta V) (localOrder : List Nat) :
    Coordinator V Key :=
  let base := s.nodes.length
  let subplan := delta.subplan
  let partition := s.inheritedPartition delta
  let seeded : Nat → Option V := fun id =>
    if base ≤ id then (subplan.initial (id - base)).or (s.outputs id) else s.outputs id
  { s with
    nodes := s.nodes ++ subplan.nodes.map fun node => node.withPartition partition
    edges := s.edges ++ subplan.edges.map (PlanEdge.shift base)
    order := s.order ++ localOrder.map (· + base)
    indeg := fun id =>
      if base ≤ id then (predecessors subplan.edges (id - base)).length else s.indeg id
    ready := s.ready ∪
      (((List.range subplan.nodes.length).filter fun id => predecessors subplan.edges id = []).map
        (· + base)).toFinset
    outputs := delta.rootSeeds.foldl
      (fun outputs (id, artifact) => Function.update outputs (id + base) (some artifact)) seeded
    spawnsTotal := s.spawnsTotal + subplan.nodes.length }

def Setup.injectSpawn (setup : Setup V Key) (s : Coordinator V Key) (delta : SpawnDelta V) :
    Except SpawnInjectionError (Coordinator V Key) :=
  let subplan := delta.subplan
  if subplan.declaredRamGib > setup.ctx.memoryBudgetGib then
    let need := subplan.declaredRamGib
    let have_ := setup.ctx.memoryBudgetGib
    .error (.structural (.err (.other
      s!"runtime spawn requires {need} GiB but this job reserved only {have_} GiB")))
  else
    match subplan.topoOrder with
    | .error fault => .error (.structural fault)
    | .ok localOrder =>
      match setup.ctx.resolveInjectedPlan subplan with
      | .error fault => .error (.trainingIo fault)
      | .ok () =>
        if subplan.conditionGates.isEmpty then .ok (s.extend delta localOrder)
        else .error (.structural (.err (.other
          "runtime Spawn injection does not support conditional sub-plans")))

/-- The loop over the pending sub-plans. -/
def Setup.drainLoop (setup : Setup V Key) : List (SpawnDelta V) → Coordinator V Key →
    Coordinator V Key
  | [], s => s
  | delta :: rest, s =>
    if s.spawnsTotal ≥ maxRuntimeSpawns then
      if delta.provenanceParent.isSome then
        s.failWith (.err (.other (s!"map fan-out exceeded the runtime spawn cap " ++
          s!"({maxRuntimeSpawns} nodes); a dropped shard would be a wrong answer")))
      else s
    else
      match setup.injectSpawn s delta with
      | .ok s' => setup.drainLoop rest s'
      | .error (.trainingIo fault) => s.failWith fault
      | .error (.structural fault) =>
        if delta.provenanceParent.isSome then s.failWith fault else setup.drainLoop rest s

/-- Map shards go first. -/
def Setup.drain (setup : Setup V Key) (s : Coordinator V Key) : Coordinator V Key :=
  setup.drainLoop
    (s.pendingSpawns.filter (fun delta => delta.provenanceParent.isSome)
      ++ s.pendingSpawns.filter fun delta => delta.provenanceParent.isNone)
    { s with pendingSpawns := [] }

/-! ## Moves and runs -/

inductive Move (V : Type) where
  | drain
  | dispatch (node : Nat)
  | finish (index : Nat) (result : TaskResult V)
  | suggest (subplan : CompiledPlan V)

/-- The results a task can end with: one output for each member, a kill only from a control
    policy, a failure of one of its members. -/
def Setup.possible (setup : Setup V Key) (task : Task V Key) : TaskResult V → Prop
  | .finished outputs => outputs.length = task.members.length
  | .killed => setup.ctx.control = true
  | .stage node _ => node ∈ task.members
  | .cancelled => True
  | .other _ => True

instance (setup : Setup V Key) (task : Task V Key) (result : TaskResult V) :
    Decidable (setup.possible task result) := by
  cases result <;> unfold Setup.possible <;> infer_instance

def Setup.step (setup : Setup V Key) (s : Coordinator V Key) : Move V → Option (Coordinator V Key)
  | .drain => if s.firstError.isNone then some (setup.drain s) else none
  | .dispatch node =>
    if s.firstError.isNone ∧ s.join.length < setup.ctx.maxInFlight ∧ node ∈ s.ready then
      some (setup.dispatch s node)
    else none
  | .finish index result =>
    match s.join[index]? with
    | some task =>
      if setup.possible task result then
        some (setup.process { s with join := s.join.eraseIdx index } task result)
      else none
    | none => none
  | .suggest subplan =>
    if setup.ctx.control = true ∧ s.join ≠ [] then
      some { s with pendingSpawns := s.pendingSpawns ++ [⟨subplan, [], none⟩] }
    else none

/-- The states of the loop. `allowed` restricts the moves. -/
inductive Reachable (setup : Setup V Key) (allowed : Coordinator V Key → Move V → Prop) :
    Coordinator V Key → Prop where
  | start : Reachable setup allowed setup.start
  | step {s s' : Coordinator V Key} {move : Move V} :
      Reachable setup allowed s → allowed s move → setup.step s move = some s' →
      Reachable setup allowed s'

/-- A run, move by move. -/
def Setup.run (setup : Setup V Key) : List (Move V) → Coordinator V Key → Option (Coordinator V Key)
  | [], s => some s
  | move :: moves, s => (setup.step s move).bind (setup.run moves)

theorem Reachable.run {setup : Setup V Key} {moves : List (Move V)} {s s' : Coordinator V Key}
    (h : Reachable setup (fun _ _ => True) s) (hrun : setup.run moves s = some s') :
    Reachable setup (fun _ _ => True) s' := by
  induction moves generalizing s with
  | nil =>
    cases hrun
    exact h
  | cons move moves ih =>
    obtain ⟨next, hstep, hrest⟩ := Option.bind_eq_some_iff.mp hrun
    exact ih (h.step trivial hstep) hrest

/-- The loop has ended: nothing runs, and there is an error or nothing left to start. -/
def Coordinator.Done (s : Coordinator V Key) : Prop :=
  s.join = [] ∧ (s.firstError ≠ none ∨ (s.pendingSpawns = [] ∧ s.ready = ∅))

/-! ## The result -/

/-- The plan's own last node, which is the result of a conditional plan. -/
def Setup.conditionalTerminal (setup : Setup V Key) : Option Nat :=
  if setup.plan.conditionGates.isEmpty then none else setup.order.getLast?

/-- The nodes a conditional result may come from. -/
def Setup.outputCandidates (setup : Setup V Key) (terminal : Nat) : Finset Nat :=
  reach (predecessors setup.plan.edges) (Finset.range setup.plan.nodes.length) [terminal] ∅

/-- An output with the node it stands under. -/
def Coordinator.outputAt (s : Coordinator V Key) (id : Nat) : Option (Nat × V) :=
  (s.outputs id).map fun artifact => (id, artifact)

/-- `final_output`, with its node. -/
def Setup.finalOutput (setup : Setup V Key) (s : Coordinator V Key) : Option (Nat × V) :=
  match s.warnings, setup.conditionalTerminal with
  | [], some terminal => s.outputAt terminal
  | [], none => s.order.getLast?.bind s.outputAt
  | _ :: _, some terminal =>
    (s.order.reverse.filter fun id => id ∈ setup.outputCandidates terminal).findSome? s.outputAt
  | _ :: _, none => s.order.reverse.findSome? s.outputAt

end Blut.Framework
