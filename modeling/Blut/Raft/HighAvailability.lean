/-
  The replicated scheduler (`raft/ha.rs`), and clusters of it.

  A scheduler is a Raft node with the state its committed entries stand for. Every call ends by
  applying what is newly committed (`pump`), which panics where `committed_entries` does; `none` is
  a panic. A cluster's step is a tick, a delivery or a call on one member; its Raft nodes take the
  steps of the Raft cluster, one for each proposal (`HaCluster.raft`, `call_raft`).
-/
import Blut.Raft.Cluster
import Blut.Raft.Scheduler

namespace Blut.Raft

open Blut.Lib

/-- What a scheduler may do about a stage. Only `committed` lets it send the task. -/
inductive DispatchDecision where
  | committed (stage peer : String) (index : LogIndex)
  | awaitingQuorum (stage : String) (index : LogIndex)
  | notLeader (leaderHint : Option String)
  | noQuorum
  | alreadyDispatched (stage peer : String)
  deriving DecidableEq, Repr

inductive PeerStageState where
  | complete (contentHash : String)
  | running
  | absent
  deriving DecidableEq, Repr

structure PeerReport where
  stage : String
  peer : String
  state : PeerStageState
  deriving DecidableEq, Repr

inductive ReconcileAction where
  | adopt (stage contentHash : String)
  | keepRunning (stage peer : String)
  | redispatch (stage : String)
  | rejectedMismatch (stage expected reported : String)
  deriving DecidableEq, Repr

/-- What is replicated of an action. -/
def ReconcileAction.command : ReconcileAction → Option SchedulerCommand
  | .adopt stage contentHash => some (.complete stage contentHash)
  | .redispatch stage => some (.voidDispatch stage "no live owner and no committed result")
  | .keepRunning _ _ => none
  | .rejectedMismatch _ _ _ => none

structure HaScheduler where
  raft : RaftNode SchedulerCommand
  state : SchedulerState
  reachable : List MemberId
  members : List MemberId

namespace HaScheduler

def new (id : MemberId) (members : List MemberId) (electionTimeout : Nat) : Option HaScheduler := do
  let raft ← RaftNode.new id members electionTimeout
  return { raft := raft, state := SchedulerState.new, reachable := members, members := members }

def quorum (n : HaScheduler) : Nat := n.members.length / 2 + 1

/-- A majority of the declared members is reachable. -/
def hasQuorum (n : HaScheduler) : Bool :=
  n.quorum ≤ (n.members.filter fun m => n.reachable.contains m).length

/-- Fold the newly committed entries into the state. -/
def pump (n : HaScheduler) : Option HaScheduler := do
  let committed ← n.raft.committedEntries
  return { n with state := n.state.applyPrefix committed }

def tick (n : HaScheduler) : Option (HaScheduler × List (Outbound SchedulerCommand)) := do
  let (raft, out) ← n.raft.tick
  let n ← { n with raft := raft }.pump
  return (n, out)

def handle (n : HaScheduler) (message : RaftMessage SchedulerCommand) :
    Option (HaScheduler × List (Outbound SchedulerCommand)) := do
  let (raft, out) ← n.raft.handle message
  let n ← { n with raft := raft }.pump
  return (n, out)

/-- A proposal and the pump after it: `enqueue` and the `record_*` calls, with their commands. -/
def propose (n : HaScheduler) (command : SchedulerCommand) :
    Option (HaScheduler × Option LogIndex) := do
  let n' ← { n with raft := (n.raft.propose command).1 }.pump
  return (n', (n.raft.propose command).2)

def enqueue (n : HaScheduler) (stage : String) : Option (HaScheduler × Option LogIndex) :=
  n.propose (.enqueue stage)

def recordRunning (n : HaScheduler) (stage peer : String) :
    Option (HaScheduler × Option LogIndex) :=
  n.propose (.running stage peer)

def recordComplete (n : HaScheduler) (stage contentHash : String) :
    Option (HaScheduler × Option LogIndex) :=
  n.propose (.complete stage contentHash)

def recordCloudJob (n : HaScheduler) (stage jobId : String) :
    Option (HaScheduler × Option LogIndex) :=
  n.propose (.cloudJob stage jobId)

/-- A dispatched, running or done stage is not dispatched again. The state is the applied one:
    entries of the log that are not committed yet are not looked at. -/
def requestDispatch (n : HaScheduler) (stage peer : String) (expected : Option String) :
    Option (HaScheduler × DispatchDecision) :=
  if n.raft.role ≠ .leader then some (n, .notLeader n.raft.leaderHint)
  else if n.hasQuorum = false then some (n, .noQuorum)
  else if (n.state.get stage).any StageRecord.isTaken then
    some (n, .alreadyDispatched stage ((n.state.record stage).peer.getD ""))
  else
    match n.raft.propose (.dispatch stage peer expected) with
    | (raft, none) => some ({ n with raft := raft }, .notLeader raft.leaderHint)
    | (raft, some index) => do
      let n ← { n with raft := raft }.pump
      return (n, if index ≤ n.raft.commitIndex then .committed stage peer index
        else .awaitingQuorum stage index)

/-- The answer reads the commit index and the stage's present peer, not the entry at the index. -/
def pollDispatch (n : HaScheduler) (stage : String) (index : LogIndex) :
    Option (HaScheduler × DispatchDecision) := do
  let n ← n.pump
  let peer := if index ≤ n.raft.commitIndex then (n.state.get stage).bind StageRecord.peer else none
  return (n, match peer with
    | some peer => .committed stage peer index
    | none => .awaitingQuorum stage index)

/-! ## Reconciliation -/

/-- What to do about an unresolved stage, from the first report on it. -/
def reconcileAction (record : StageRecord) (stage : String) : Option PeerReport → ReconcileAction
  | some { peer := peer, state := state, .. } =>
    match state with
    | .complete contentHash =>
      match record.expected with
      | some expected =>
        if expected ≠ contentHash then .rejectedMismatch stage expected contentHash
        else .adopt stage contentHash
      | none => .adopt stage contentHash
    | .running => .keepRunning stage peer
    | .absent => .redispatch stage
  | none => .redispatch stage

def reconcileActions (state : SchedulerState) (reports : List PeerReport) : List ReconcileAction :=
  state.unresolved.map fun stage =>
    reconcileAction (state.record stage) stage (reports.find? fun report => report.stage = stage)

def reconcile (n : HaScheduler) (reports : List PeerReport) :
    Option (HaScheduler × List ReconcileAction) := do
  let n ← n.pump
  return (n, reconcileActions n.state reports)

def commitReconcile (n : HaScheduler) (actions : List ReconcileAction) : Option HaScheduler :=
  { n with
    raft := (actions.filterMap ReconcileAction.command).foldl
      (fun raft command => (raft.propose command).1) n.raft }.pump

def setReachable (n : HaScheduler) (reachable : List MemberId) : HaScheduler :=
  { n with reachable := reachable }

end HaScheduler

/-! ## Clusters -/

/-- The calls of the scheduler's interface, besides ticks and messages. -/
inductive HaCall where
  | enqueue (stage : String)
  | requestDispatch (stage peer : String) (expected : Option String)
  | pollDispatch (stage : String) (index : LogIndex)
  | recordRunning (stage peer : String)
  | recordComplete (stage contentHash : String)
  | recordCloudJob (stage jobId : String)
  | reconcile (reports : List PeerReport)
  | commitReconcile (actions : List ReconcileAction)
  | setReachable (reachable : List MemberId)
  deriving DecidableEq, Repr

def HaScheduler.call (n : HaScheduler) : HaCall → Option HaScheduler
  | .enqueue stage => (n.enqueue stage).map Prod.fst
  | .requestDispatch stage peer expected => (n.requestDispatch stage peer expected).map Prod.fst
  | .pollDispatch stage index => (n.pollDispatch stage index).map Prod.fst
  | .recordRunning stage peer => (n.recordRunning stage peer).map Prod.fst
  | .recordComplete stage contentHash => (n.recordComplete stage contentHash).map Prod.fst
  | .recordCloudJob stage jobId => (n.recordCloudJob stage jobId).map Prod.fst
  | .reconcile reports => (n.reconcile reports).map Prod.fst
  | .commitReconcile actions => n.commitReconcile actions
  | .setReachable reachable => some (n.setReachable reachable)

structure HaCluster where
  nodes : MemberId → HaScheduler
  network : List (Outbound SchedulerCommand)

inductive HaEvent where
  | tick (id : MemberId)
  | deliver (outbound : Outbound SchedulerCommand)
  | call (id : MemberId) (call : HaCall)
  deriving DecidableEq, Repr

def HaCluster.put (cluster : HaCluster) (id : MemberId)
    (result : HaScheduler × List (Outbound SchedulerCommand)) : HaCluster :=
  { nodes := Function.update cluster.nodes id result.1
    network := cluster.network ++ result.2 }

def HaCluster.step (members : List MemberId) (cluster : HaCluster) : HaEvent → Option HaCluster
  | .tick id =>
    if id ∈ members then (cluster.nodes id).tick.map (cluster.put id) else none
  | .deliver outbound =>
    if outbound.dst ∈ members ∧ outbound ∈ cluster.network then
      ((cluster.nodes outbound.dst).handle outbound.message).map (cluster.put outbound.dst)
    else none
  | .call id call =>
    if id ∈ members then
      ((cluster.nodes id).call call).map fun n => cluster.put id (n, [])
    else none

structure HaCluster.Starts (members : List MemberId) (cluster : HaCluster) : Prop where
  fresh : ∀ id ∈ members, ∃ timeout, HaScheduler.new id members timeout = some (cluster.nodes id)
  silent : cluster.network = []

/-- The runs whose steps all meet a condition on the state before the step and the event. -/
inductive HaRun (members : List MemberId) (allowed : HaCluster → HaEvent → Prop) :
    List HaCluster → Prop
  | start {cluster : HaCluster} (h : cluster.Starts members) : HaRun members allowed [cluster]
  | step {cluster next : HaCluster} {past : List HaCluster} (event : HaEvent)
      (hrun : HaRun members allowed (cluster :: past)) (hallowed : allowed cluster event)
      (hstep : cluster.step members event = some next) :
    HaRun members allowed (next :: cluster :: past)

/-- The Raft cluster under a cluster of schedulers. -/
def HaCluster.raft (cluster : HaCluster) : Cluster SchedulerCommand where
  nodes := fun id => (cluster.nodes id).raft
  network := cluster.network

/-- No append is accepted over a stale tail. -/
def HaCluster.NoStaleTail (cluster : HaCluster) : HaEvent → Prop
  | .deliver outbound => cluster.raft.NoStaleTail (.deliver outbound)
  | _ => True

instance (cluster : HaCluster) (event : HaEvent) : Decidable (cluster.NoStaleTail event) := by
  unfold HaCluster.NoStaleTail
  split <;> infer_instance

/-- A dispatch is asked for only where the log past the applied entries holds none of the stage. -/
def HaCluster.NoPendingDispatch (cluster : HaCluster) : HaEvent → Prop
  | .call id (.requestDispatch stage _ _) =>
    (cluster.nodes id).raft.role = .leader →
      ∀ entry ∈ (cluster.nodes id).raft.log.drop (cluster.nodes id).state.applied,
        entry.command.isDispatch stage = false
  | _ => True

instance (cluster : HaCluster) (event : HaEvent) : Decidable (cluster.NoPendingDispatch event) := by
  unfold HaCluster.NoPendingDispatch
  split <;> infer_instance

theorem HaRun.mono {members : List MemberId} {allowed allowed' : HaCluster → HaEvent → Prop}
    (himp : ∀ cluster event, allowed cluster event → allowed' cluster event) {run : List HaCluster}
    (h : HaRun members allowed run) : HaRun members allowed' run := by
  induction h with
  | start h => exact HaRun.start h
  | step event _ hallowed hstep ih => exact HaRun.step event ih (himp _ _ hallowed) hstep

/-- Fresh schedulers, all with one timeout. -/
def HaCluster.fresh (members : List MemberId) (timeout : Nat) : HaCluster where
  nodes id := {
    raft := (Cluster.fresh members timeout).nodes id
    state := SchedulerState.new
    reachable := members
    members := members }
  network := []

theorem HaCluster.fresh_starts (members : List MemberId) {timeout : Nat} (h : 0 < timeout) :
    (HaCluster.fresh members timeout).Starts members where
  fresh := by
    intro id hid
    refine ⟨timeout, ?_⟩
    unfold HaScheduler.new
    simp [HaCluster.fresh, Cluster.fresh, RaftNode.new, hid, h]
  silent := rfl

/-! ## What a step does to the Raft node and to the state -/

variable {raft : RaftNode SchedulerCommand} {expected : Option String}

def proposeAll (raft : RaftNode SchedulerCommand) (commands : List SchedulerCommand) :
    RaftNode SchedulerCommand :=
  commands.foldl (fun raft command => (raft.propose command).1) raft

/-- The state is as it was, or brought up to the committed entries. -/
def HaScheduler.Pumped (n n' : HaScheduler) : Prop :=
  (n'.raft = n.raft ∧ n'.state = n.state) ∨
    ∃ committed, n'.raft.committedEntries = some committed
      ∧ n'.state = n.state.applyPrefix committed

/-- The guards of `request_dispatch` pass. -/
def HaScheduler.mayDispatch (n : HaScheduler) (stage : String) : Bool :=
  n.raft.role = .leader && n.hasQuorum && !(n.state.get stage).any StageRecord.isTaken

/-- The commands a call proposes. -/
def HaCall.proposals (n : HaScheduler) : HaCall → List SchedulerCommand
  | .enqueue stage => [.enqueue stage]
  | .requestDispatch stage peer expected =>
    if n.mayDispatch stage then [.dispatch stage peer expected] else []
  | .pollDispatch _ _ => []
  | .recordRunning stage peer => [.running stage peer]
  | .recordComplete stage contentHash => [.complete stage contentHash]
  | .recordCloudJob stage jobId => [.cloudJob stage jobId]
  | .reconcile _ => []
  | .commitReconcile actions => actions.filterMap ReconcileAction.command
  | .setReachable _ => []

variable {n n' : HaScheduler}

theorem pump_eq_some (h : n.pump = some n') : ∃ committed, n.raft.committedEntries = some committed
      ∧ n' = { n with state := n.state.applyPrefix committed } := by
  obtain ⟨committed, hcommitted, h⟩ := Option.bind_eq_some_iff.mp h
  exact ⟨committed, hcommitted, (Option.some.inj h).symm⟩

/-- The pump after a change of the Raft node. -/
theorem pump_pumped (h : { n with raft := raft }.pump = some n') :
    n'.raft = raft ∧ n.Pumped n' := by
  obtain ⟨committed, hcommitted, rfl⟩ := pump_eq_some h
  exact ⟨rfl, Or.inr ⟨committed, hcommitted, rfl⟩⟩

/-- The pump before an answer. -/
theorem answer_pumped {α : Type} {answer : HaScheduler → α}
    (h : ({ n with raft := raft }.pump.bind fun n' => some (n', answer n')).map Prod.fst =
      some n') :
    n'.raft = raft ∧ n.Pumped n' := by
  obtain ⟨result, hresult, rfl⟩ := Option.map_eq_some_iff.mp h
  obtain ⟨n', hpump, hresult⟩ := Option.bind_eq_some_iff.mp hresult
  obtain rfl := Option.some.inj hresult
  exact pump_pumped hpump

/-- The pump after a step of the Raft node. -/
theorem step_pumped
    {stepped : Option (RaftNode SchedulerCommand × List (Outbound SchedulerCommand))}
    {result : HaScheduler × List (Outbound SchedulerCommand)}
    (h : (stepped.bind fun step => { n with raft := step.1 }.pump.bind fun n' => some (n', step.2))
      = some result) : stepped = some (result.1.raft, result.2) ∧ n.Pumped result.1 := by
  obtain ⟨⟨raft, out⟩, hstep, h⟩ := Option.bind_eq_some_iff.mp h
  obtain ⟨n', hpump, h⟩ := Option.bind_eq_some_iff.mp h
  obtain rfl := Option.some.inj h
  obtain ⟨rfl, hpumped⟩ := pump_pumped hpump
  exact ⟨hstep, hpumped⟩

/-- Either a guard stops the call, or the dispatch is proposed at the end of the leader's log. -/
theorem requestDispatch_eq_some {stage peer : String} {decision : DispatchDecision}
    (h : n.requestDispatch stage peer expected = some (n', decision)) :
    (n.mayDispatch stage = false ∧ n' = n ∧
        ∀ s p i, decision ≠ .committed s p i ∧ decision ≠ .awaitingQuorum s i) ∨
      (n.mayDispatch stage = true
        ∧ { n with raft := (n.raft.propose (.dispatch stage peer expected)).1 }.pump = some n'
        ∧ decision = if n.raft.log.length + 1 ≤ n'.raft.commitIndex
            then .committed stage peer (n.raft.log.length + 1)
            else .awaitingQuorum stage (n.raft.log.length + 1)) := by
  unfold HaScheduler.requestDispatch at h
  unfold HaScheduler.mayDispatch
  split_ifs at h with hrole hquorum htaken
  · cases h
    exact Or.inl ⟨by simp [hrole], rfl, fun _ _ _ => ⟨by simp, by simp⟩⟩
  · cases h
    exact Or.inl ⟨by simp [hquorum], rfl, fun _ _ _ => ⟨by simp, by simp⟩⟩
  · cases h
    exact Or.inl ⟨by simp [htaken], rfl, fun _ _ _ => ⟨by simp, by simp⟩⟩
  refine Or.inr ⟨by simpa [htaken, hquorum] using hrole, ?_⟩
  have hpair : n.raft.propose (.dispatch stage peer expected) =
      ((n.raft.propose (.dispatch stage peer expected)).1, some (n.raft.log.length + 1)) :=
    Prod.ext rfl (by simp [RaftNode.propose, RaftNode.lastLogIndex, not_not.mp hrole])
  rw [hpair] at h
  obtain ⟨n'', hpump, h⟩ := Option.bind_eq_some_iff.mp h
  cases h
  exact ⟨hpump, rfl⟩

theorem requestDispatch_pumped {stage peer : String}
    (h : (n.requestDispatch stage peer expected).map Prod.fst = some n') :
    n'.raft = proposeAll n.raft ((HaCall.requestDispatch stage peer expected).proposals n)
      ∧ n.Pumped n' := by
  obtain ⟨⟨n', decision⟩, hresult, rfl⟩ := Option.map_eq_some_iff.mp h
  simp only [HaCall.proposals]
  rcases requestDispatch_eq_some hresult with ⟨hmay, rfl, -⟩ | ⟨hmay, hpump, -⟩
  · rw [hmay]
    exact ⟨rfl, Or.inl ⟨rfl, rfl⟩⟩
  · rw [hmay]
    exact pump_pumped hpump

/-- A call proposes its commands one after the other. -/
theorem call_raft {call : HaCall} (h : n.call call = some n') :
    n'.raft = proposeAll n.raft (call.proposals n) ∧ n.Pumped n' := by
  cases call with
  | enqueue | pollDispatch | recordRunning | recordComplete | recordCloudJob | reconcile =>
    exact answer_pumped h
  | requestDispatch stage peer expected => exact requestDispatch_pumped h
  | commitReconcile actions => exact pump_pumped h
  | setReachable reachable =>
    obtain rfl := Option.some.inj h
    exact ⟨rfl, Or.inl ⟨rfl, rfl⟩⟩

end Blut.Raft
