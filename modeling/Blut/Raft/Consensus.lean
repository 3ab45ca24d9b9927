/-
  The Raft core (`raft/consensus.rs`).

  A node is driven by ticks, proposals and messages and returns the messages to send. Terms,
  indices and ticks are naturals. `none` is a panic: an assertion of `RaftNode::new`, or a slice of
  the log past its end in `broadcast_append`. The scheduler commands in the log are a type
  variable, as in the source.
-/
import Mathlib.Data.String.Basic
import Blut.Lib.BTreeMap
import Blut.Lib.Replication.Protocol

namespace Blut.Raft

open Blut.Lib

abbrev Term := Nat

/-- Positions in the log count from 1; 0 is before the first entry. -/
abbrev LogIndex := Nat

abbrev MemberId := String

abbrev Role := Replication.Role

structure LogEntry (C : Type) where
  term : Term
  command : C
  deriving DecidableEq, Repr

inductive RaftMessage (C : Type) where
  | requestVote (term : Term) (candidate : MemberId) (lastLogIndex : LogIndex) (lastLogTerm : Term)
  | requestVoteResp (term : Term) (src : MemberId) (granted : Bool)
  | appendEntries (term : Term) (leader : MemberId) (prevLogIndex : LogIndex) (prevLogTerm : Term)
      (entries : List (LogEntry C)) (leaderCommit : LogIndex)
  | appendEntriesResp (term : Term) (src : MemberId) (matchIndex : LogIndex) (success : Bool)
  deriving DecidableEq, Repr

def RaftMessage.term {C : Type} : RaftMessage C → Term
  | .requestVote term _ _ _ => term
  | .requestVoteResp term _ _ => term
  | .appendEntries term _ _ _ _ _ => term
  | .appendEntriesResp term _ _ _ => term

structure Outbound (C : Type) where
  dst : MemberId
  message : RaftMessage C
  deriving DecidableEq, Repr

structure RaftNode (C : Type) where
  id : MemberId
  members : List MemberId
  currentTerm : Term
  votedFor : Option MemberId
  log : List (LogEntry C)
  role : Role
  commitIndex : LogIndex
  leaderHint : Option MemberId
  votesGranted : List MemberId
  nextIndex : BTreeMap MemberId LogIndex
  matchIndex : BTreeMap MemberId LogIndex
  electionTimeout : Nat
  ticksSinceHeard : Nat

namespace RaftNode

variable {C : Type}

/-- A follower in term 0 with an empty log. -/
def new (id : MemberId) (members : List MemberId) (electionTimeout : Nat) : Option (RaftNode C) :=
  if id ∈ members ∧ 0 < electionTimeout then
    some {
      id := id
      members := members
      currentTerm := 0
      votedFor := none
      log := []
      role := .follower
      commitIndex := 0
      leaderHint := none
      votesGranted := []
      nextIndex := BTreeMap.empty
      matchIndex := BTreeMap.empty
      electionTimeout := electionTimeout
      ticksSinceHeard := 0 }
  else none

def lastLogIndex (n : RaftNode C) : LogIndex := n.log.length

def lastLogTerm (n : RaftNode C) : Term := (n.log.getLast?.map LogEntry.term).getD 0

/-- `&self.log[..self.commit_index]`, which panics past the end of the log. -/
def committedEntries (n : RaftNode C) : Option (List (LogEntry C)) :=
  if n.commitIndex ≤ n.log.length then some (n.log.take n.commitIndex) else none

def quorum (n : RaftNode C) : Nat := n.members.length / 2 + 1

def peers (n : RaftNode C) : List MemberId := n.members.filter fun m => m ≠ n.id

/-! ## Elections -/

def stepDown (n : RaftNode C) (term : Term) : RaftNode C :=
  { n with
    currentTerm := term
    role := .follower
    votedFor := none
    votesGranted := []
    ticksSinceHeard := 0 }

def becomeLeader (n : RaftNode C) : RaftNode C :=
  let next := n.lastLogIndex + 1
  { n with
    role := .leader
    leaderHint := some n.id
    nextIndex := BTreeMap.ofList (n.peers.map fun peer => (peer, next))
    matchIndex := BTreeMap.ofList (n.peers.map fun peer => (peer, 0)) }

/-- The term of the entry before a position, 0 at the start. -/
def prevLogTerm (n : RaftNode C) (prevLogIndex : LogIndex) : Option Term :=
  if prevLogIndex = 0 then some 0 else (n.log[prevLogIndex - 1]?).map LogEntry.term

/-- The message of `broadcast_append` to one peer. -/
def appendTo (n : RaftNode C) (peer : MemberId) : Option (Outbound C) := do
  let next := (n.nextIndex.get? peer).getD 1
  let prevLogIndex := next - 1
  let prevLogTerm ← n.prevLogTerm prevLogIndex
  return {
    dst := peer
    message := .appendEntries n.currentTerm n.id prevLogIndex prevLogTerm
      (n.log.drop prevLogIndex) n.commitIndex }

def broadcastAppend (n : RaftNode C) : Option (List (Outbound C)) := n.peers.mapM n.appendTo

/-- The node as a new leader, and its first appends. -/
def takeOffice (n : RaftNode C) : Option (RaftNode C × List (Outbound C)) := do
  let out ← n.becomeLeader.broadcastAppend
  return (n.becomeLeader, out)

def requestVotes (n : RaftNode C) : List (Outbound C) :=
  n.peers.map fun dst =>
    { dst := dst, message := .requestVote n.currentTerm n.id n.lastLogIndex n.lastLogTerm }

/-- The node as a candidate of the next term, with its own vote. -/
def stand (n : RaftNode C) : RaftNode C :=
  { n with
    currentTerm := n.currentTerm + 1
    role := .candidate
    votedFor := some n.id
    votesGranted := [n.id]
    leaderHint := none
    ticksSinceHeard := 0 }

def beginElection (n : RaftNode C) : Option (RaftNode C × List (Outbound C)) :=
  if n.stand.quorum ≤ n.stand.votesGranted.length then n.stand.takeOffice
  else some (n.stand, n.stand.requestVotes)

def tick (n : RaftNode C) : Option (RaftNode C × List (Outbound C)) :=
  if n.role = .leader then do
    let out ← n.broadcastAppend
    return (n, out)
  else
    let n := { n with ticksSinceHeard := n.ticksSinceHeard + 1 }
    if n.electionTimeout ≤ n.ticksSinceHeard then n.beginElection else some (n, [])

def onRequestVote (n : RaftNode C) (term : Term) (candidate : MemberId) (lastLogIndex : LogIndex)
    (lastLogTerm : Term) : RaftNode C × List (Outbound C) :=
  let free := n.votedFor = none ∨ n.votedFor = some candidate
  let upToDate := toLex (n.lastLogTerm, n.lastLogIndex) ≤ toLex (lastLogTerm, lastLogIndex)
  let reply (granted : Bool) : List (Outbound C) :=
    [{ dst := candidate, message := .requestVoteResp n.currentTerm n.id granted }]
  if n.currentTerm ≤ term ∧ free ∧ upToDate then
    ({ n with votedFor := some candidate, ticksSinceHeard := 0 }, reply true)
  else (n, reply false)

def onVoteResponse (n : RaftNode C) (term : Term) (src : MemberId) (granted : Bool) :
    Option (RaftNode C × List (Outbound C)) :=
  if n.role ≠ .candidate ∨ term ≠ n.currentTerm ∨ granted = false then some (n, [])
  else
    let n := { n with
      votesGranted :=
        if n.votesGranted.contains src then n.votesGranted else n.votesGranted ++ [src] }
    if n.quorum ≤ n.votesGranted.length then n.takeOffice else some (n, [])

/-! ## Replication -/

/-- How many nodes the leader takes to hold the entry at `index`: itself and the peers that
    reported at least as much. -/
def replicas (n : RaftNode C) (index : LogIndex) : Nat :=
  1 + (n.matchIndex.values.filter fun m => index ≤ m).length

/-- One index of the loop of `advance_commit`. -/
def countIndex (n : RaftNode C) (candidate index : LogIndex) : LogIndex :=
  if (n.log[index - 1]?).map LogEntry.term ≠ some n.currentTerm then candidate
  else if n.quorum ≤ n.replicas index then index else candidate

def advanceCommit (n : RaftNode C) : RaftNode C :=
  let indices := List.range' (n.commitIndex + 1) (n.lastLogIndex - n.commitIndex)
  { n with commitIndex := indices.foldl n.countIndex n.commitIndex }

def propose (n : RaftNode C) (command : C) : RaftNode C × Option LogIndex :=
  if n.role ≠ .leader then (n, none)
  else
    let entry : LogEntry C := { term := n.currentTerm, command := command }
    let n := { n with log := n.log ++ [entry] }
    (n.advanceCommit, some n.lastLogIndex)

/-- One entry of an append: it replaces an entry of another term and all after it. -/
def putEntry (log : List (LogEntry C)) (slot : Nat) (entry : LogEntry C) : List (LogEntry C) :=
  match log[slot]? with
  | some held => if held.term ≠ entry.term then log.take slot ++ [entry] else log
  | none => log ++ [entry]

def putEntries (log : List (LogEntry C)) (prevLogIndex : LogIndex) (entries : List (LogEntry C)) :
    List (LogEntry C) :=
  entries.zipIdx.foldl (fun log (entry, offset) => putEntry log (prevLogIndex + offset) entry) log

/-- The node holds the leader's previous entry. -/
def isConsistent (n : RaftNode C) (prevLogIndex : LogIndex) (prevLogTerm : Term) : Prop :=
  prevLogIndex = 0 ∨ (n.log[prevLogIndex - 1]?).map LogEntry.term = some prevLogTerm

instance (n : RaftNode C) (prevLogIndex : LogIndex) (prevLogTerm : Term) :
    Decidable (n.isConsistent prevLogIndex prevLogTerm) := by
  unfold isConsistent
  infer_instance

def onAppendEntries (n : RaftNode C) (term : Term) (leader : MemberId) (prevLogIndex : LogIndex)
    (prevLogTerm : Term) (entries : List (LogEntry C)) (leaderCommit : LogIndex) :
    RaftNode C × List (Outbound C) :=
  let reply (matchIndex : LogIndex) (success : Bool) : List (Outbound C) :=
    [{ dst := leader, message := .appendEntriesResp n.currentTerm n.id matchIndex success }]
  if term < n.currentTerm then (n, reply 0 false)
  else
    let n := { n with role := .follower, leaderHint := some leader, ticksSinceHeard := 0 }
    if ¬ n.isConsistent prevLogIndex prevLogTerm then (n, reply 0 false)
    else
      let log := putEntries n.log prevLogIndex entries
      let commitIndex :=
        if n.commitIndex < leaderCommit then min leaderCommit log.length else n.commitIndex
      ({ n with log := log, commitIndex := commitIndex }, reply log.length true)

def onAppendResponse (n : RaftNode C) (term : Term) (src : MemberId) (matchIndex : LogIndex)
    (success : Bool) : RaftNode C × List (Outbound C) :=
  if n.role ≠ .leader ∨ term ≠ n.currentTerm then (n, [])
  else if success then
    let n := { n with
      matchIndex := n.matchIndex.insert src matchIndex
      nextIndex := n.nextIndex.insert src (matchIndex + 1) }
    (n.advanceCommit, [])
  else
    let next := (n.nextIndex.get? src).getD 1
    ({ n with nextIndex := n.nextIndex.insert src (max (next - 1) 1) }, [])

/-! ## Messages -/

/-- A message of a later term makes the node a follower of that term before anything else. -/
def observe (n : RaftNode C) (term : Term) : RaftNode C :=
  if n.currentTerm < term then n.stepDown term else n

def dispatch (n : RaftNode C) : RaftMessage C → Option (RaftNode C × List (Outbound C))
  | .requestVote term candidate lastLogIndex lastLogTerm =>
    some (n.onRequestVote term candidate lastLogIndex lastLogTerm)
  | .requestVoteResp term src granted => n.onVoteResponse term src granted
  | .appendEntries term leader prevLogIndex prevLogTerm entries leaderCommit =>
    some (n.onAppendEntries term leader prevLogIndex prevLogTerm entries leaderCommit)
  | .appendEntriesResp term src matchIndex success =>
    some (n.onAppendResponse term src matchIndex success)

def handle (n : RaftNode C) (message : RaftMessage C) :
    Option (RaftNode C × List (Outbound C)) :=
  (n.observe message.term).dispatch message

end RaftNode

end Blut.Raft
