/-
  A cluster of Raft nodes and its network.

  The network keeps every message that was sent. Delivering one leaves it there, so messages may
  be lost, repeated, late and out of order, and only a message that was sent to a node reaches it.
  A run is the list of the cluster's states, the latest first. A node whose step panics takes no
  step.
-/
import Blut.Raft.Consensus

namespace Blut.Raft

variable {C : Type} {members : List MemberId}

structure Cluster (C : Type) where
  nodes : MemberId → RaftNode C
  network : List (Outbound C)

inductive Event (C : Type) where
  | tick (id : MemberId)
  | deliver (outbound : Outbound C)
  | propose (id : MemberId) (command : C)
  deriving DecidableEq, Repr

/-- The cluster after a node's step: the node as it is now, and its messages on the network. -/
def Cluster.put (cluster : Cluster C) (id : MemberId) (result : RaftNode C × List (Outbound C)) :
    Cluster C :=
  { nodes := Function.update cluster.nodes id result.1
    network := cluster.network ++ result.2 }

def Cluster.step [DecidableEq C] (members : List MemberId) (cluster : Cluster C) :
    Event C → Option (Cluster C)
  | .tick id =>
    if id ∈ members then (cluster.nodes id).tick.map (cluster.put id) else none
  | .deliver outbound =>
    if outbound.dst ∈ members ∧ outbound ∈ cluster.network then
      ((cluster.nodes outbound.dst).handle outbound.message).map (cluster.put outbound.dst)
    else none
  | .propose id command =>
    if id ∈ members then some (cluster.put id (((cluster.nodes id).propose command).1, []))
    else none

/-- Every member is fresh and nothing was sent. -/
structure Cluster.Starts (members : List MemberId) (cluster : Cluster C) : Prop where
  fresh : ∀ id ∈ members, ∃ timeout, RaftNode.new id members timeout = some (cluster.nodes id)
  silent : cluster.network = []

variable {cluster : Cluster C}

theorem Cluster.Starts.node {id : MemberId} (h : cluster.Starts members) (hid : id ∈ members) :
    (cluster.nodes id).log = [] ∧ (cluster.nodes id).role = .follower := by
  obtain ⟨timeout, hnew⟩ := h.fresh id hid
  unfold RaftNode.new at hnew
  split_ifs at hnew
  rw [← Option.some.inj hnew]
  exact ⟨rfl, rfl⟩

/-- One member steps, and the others are as they were. -/
theorem Cluster.forall_put {id : MemberId} {result : RaftNode C × List (Outbound C)}
    {P : MemberId → RaftNode C → Prop} (hresult : P id result.1)
    (hothers : ∀ w ∈ members, w ≠ id → P w (cluster.nodes w)) :
    ∀ w ∈ members, P w ((cluster.put id result).nodes w) := by
  intro w hw
  by_cases hwid : w = id
  · subst hwid
    simp only [Cluster.put, Function.update_self]
    exact hresult
  · simp only [Cluster.put, Function.update_of_ne hwid]
    exact hothers w hw hwid

/-- A member ticks, handles a message that was sent to it, or takes a proposal. -/
theorem Cluster.step_eq_some [DecidableEq C] {next : Cluster C} {event : Event C}
    (h : cluster.step members event = some next) :
    ∃ id ∈ members, ∃ result, next = cluster.put id result ∧
      ((event = .tick id ∧ (cluster.nodes id).tick = some result)
        ∨ (∃ o ∈ cluster.network, o.dst = id ∧ event = .deliver o
          ∧ (cluster.nodes id).handle o.message = some result)
        ∨ ∃ command, event = .propose id command
          ∧ result = (((cluster.nodes id).propose command).1, [])) := by
  cases event with
  | tick id =>
    simp only [Cluster.step] at h
    split_ifs at h with hid
    obtain ⟨result, hresult, rfl⟩ := Option.map_eq_some_iff.mp h
    exact ⟨id, hid, result, rfl, Or.inl ⟨rfl, hresult⟩⟩
  | deliver o =>
    simp only [Cluster.step] at h
    split_ifs at h with hsent
    obtain ⟨result, hresult, rfl⟩ := Option.map_eq_some_iff.mp h
    exact ⟨o.dst, hsent.1, result, rfl, Or.inr (Or.inl ⟨o, hsent.2, rfl, rfl, hresult⟩)⟩
  | propose id command =>
    simp only [Cluster.step] at h
    split_ifs at h with hid
    exact ⟨id, hid, _, (Option.some.inj h).symm, Or.inr (Or.inr ⟨command, rfl, rfl⟩)⟩

/-- The runs whose steps all meet a condition on the state before the step and the event. -/
inductive Run [DecidableEq C] (members : List MemberId) (allowed : Cluster C → Event C → Prop) :
    List (Cluster C) → Prop
  | start {cluster : Cluster C} (h : cluster.Starts members) : Run members allowed [cluster]
  | step {cluster next : Cluster C} {past : List (Cluster C)} (event : Event C)
      (hrun : Run members allowed (cluster :: past)) (hallowed : allowed cluster event)
      (hstep : cluster.step members event = some next) :
    Run members allowed (next :: cluster :: past)

/-- The node agrees with an append entry for entry, and past the append's last entry still holds
    an entry of another term than the append's. -/
def RaftNode.StaleTail (n : RaftNode C) (term : Term) (prevLogIndex : LogIndex)
    (entries : List (LogEntry C)) : Prop :=
  (∀ item ∈ entries.zipIdx,
      (n.log[prevLogIndex + item.2]?).map LogEntry.term = some item.1.term)
    ∧ ∃ held ∈ n.log.drop (prevLogIndex + entries.length), held.term ≠ term

instance (n : RaftNode C) (term : Term) (prevLogIndex : LogIndex) (entries : List (LogEntry C)) :
    Decidable (n.StaleTail term prevLogIndex entries) := by
  unfold RaftNode.StaleTail
  infer_instance

/-- No append is accepted by a node with such a tail. -/
def Cluster.NoStaleTail (cluster : Cluster C) : Event C → Prop
  | .deliver ⟨dst, .appendEntries term _ prevLogIndex prevLogTerm entries _⟩ =>
    (cluster.nodes dst).currentTerm ≤ term →
      (cluster.nodes dst).isConsistent prevLogIndex prevLogTerm →
      ¬ (cluster.nodes dst).StaleTail term prevLogIndex entries
  | _ => True

instance (cluster : Cluster C) (event : Event C) : Decidable (cluster.NoStaleTail event) := by
  unfold Cluster.NoStaleTail
  split <;> infer_instance

/-- Fresh nodes, all with one timeout. -/
def Cluster.fresh (members : List MemberId) (timeout : Nat) : Cluster C where
  nodes id := (RaftNode.new id members timeout).getD {
    id := id
    members := members
    currentTerm := 0
    votedFor := none
    log := []
    role := .follower
    commitIndex := 0
    leaderHint := none
    votesGranted := []
    nextIndex := .empty
    matchIndex := .empty
    electionTimeout := timeout
    ticksSinceHeard := 0 }
  network := []

theorem Cluster.fresh_starts (members : List MemberId) {timeout : Nat} (h : 0 < timeout) :
    (Cluster.fresh members timeout : Cluster C).Starts members where
  fresh := fun id hid => ⟨timeout, by simp [Cluster.fresh, RaftNode.new, hid, h]⟩
  silent := rfl

end Blut.Raft
