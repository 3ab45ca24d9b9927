/-
  The indices a node keeps stay in its log.

  A leader's `next_index` comes from what a follower reports, and `on_append_entries` reports the
  length of the follower's whole log. While no append is accepted over a stale tail that length is
  one the leader has (`Mirrors.ack_le`), so the leader's positions stay in its log and neither a
  broadcast nor `committed_entries` slices past the end (`indices_in_range`). With a stale tail the
  leader's next tick panics (`broadcast_out_of_range`).
-/
import Blut.Raft.Agreement

namespace Blut.Raft

open Blut.Lib Blut.Lib.Replication

variable {C : Type} {members : List MemberId}

/-! ## Positions of a leader -/

/-- Where a leader is with one peer. -/
structure RaftNode.PositionOf (n : RaftNode C) (peer : MemberId) : Prop where
  next : ∃ i : Nat, n.nextIndex.get? peer = some i ∧ 1 ≤ i ∧ i ≤ n.log.length + 1
  held : ∃ i : Nat, n.matchIndex.get? peer = some i ∧ i ≤ n.log.length

def RaftNode.Positioned (n : RaftNode C) : Prop :=
  n.role = .leader → ∀ peer ∈ n.peers, n.PositionOf peer

variable {n : RaftNode C} {result : RaftNode C × List (Outbound C)}

/-- Longer logs keep positions. -/
theorem RaftNode.PositionOf.grow {n' : RaftNode C} {peer : MemberId} (h : n.PositionOf peer)
    (hnext : n'.nextIndex = n.nextIndex) (hmatch : n'.matchIndex = n.matchIndex)
    (hlog : n.log.length ≤ n'.log.length) : n'.PositionOf peer := by
  obtain ⟨i, hi, hpos, hle⟩ := h.next
  obtain ⟨m, hm, hle'⟩ := h.held
  constructor
  · exact ⟨i, by rw [hnext]; exact hi, hpos, by omega⟩
  · exact ⟨m, by rw [hmatch]; exact hm, hle'.trans hlog⟩

/-- A new leader takes every peer to hold nothing and starts at its own end. -/
theorem RaftNode.becomeLeader_positioned (n : RaftNode C) : n.becomeLeader.Positioned := by
  intro _ peer hpeer
  have hget : ∀ i : Nat, (BTreeMap.ofList (n.peers.map fun peer => (peer, i))).get? peer =
      some i := by
    intro i
    have hkey : peer ∈ (n.peers.map fun peer => (peer, i)).map Prod.fst := by
      rw [List.map_map]
      exact List.mem_map.mpr ⟨peer, hpeer, rfl⟩
    have hcontains := (BTreeMap.contains_ofList _ _).mpr hkey
    obtain ⟨v, hv⟩ := Option.isSome_iff_exists.mp hcontains
    obtain ⟨_, -, heq⟩ := List.mem_map.mp (BTreeMap.mem_of_get?_ofList hv)
    cases heq
    exact hv
  exact ⟨⟨_, hget _, Nat.succ_pos _, le_rfl⟩, ⟨_, hget 0, Nat.zero_le _⟩⟩

theorem RaftNode.appendTo_isSome {peer : MemberId} (h : n.PositionOf peer) :
    (n.appendTo peer).isSome = true := by
  obtain ⟨i, hi, hpos, hle⟩ := h.next
  have hprev : (n.prevLogTerm (i - 1)).isSome = true := by
    unfold RaftNode.prevLogTerm
    split_ifs with hzero
    · rfl
    · have hlt : i - 1 - 1 < n.log.length := by
        have hne : (i : Nat) - 1 ≠ 0 := hzero
        omega
      rw [Option.isSome_map, List.getElem?_eq_getElem hlt]
      rfl
  obtain ⟨t, ht⟩ := Option.isSome_iff_exists.mp hprev
  unfold RaftNode.appendTo
  rw [hi]
  show (Option.bind (n.prevLogTerm (i - 1)) _).isSome = true
  rw [ht]
  rfl

theorem RaftNode.broadcastAppend_isSome (h : ∀ peer ∈ n.peers, n.PositionOf peer) :
    n.broadcastAppend.isSome = true := by
  unfold RaftNode.broadcastAppend
  exact mapM_isSome fun peer hpeer => appendTo_isSome (h peer hpeer)

theorem RaftNode.takeOffice_isSome (n : RaftNode C) : n.takeOffice.isSome = true := by
  obtain ⟨out, hout⟩ := Option.isSome_iff_exists.mp
    (broadcastAppend_isSome (n.becomeLeader_positioned rfl))
  unfold RaftNode.takeOffice
  rw [hout]
  rfl

/-! ## Steps of one node -/

theorem RaftNode.takeOffice_positioned (h : n.takeOffice = some result) : result.1.Positioned := by
  obtain ⟨out, -, h⟩ := Option.bind_eq_some_iff.mp h
  obtain rfl := Option.some.inj h
  exact n.becomeLeader_positioned

section

variable (h : n.Positioned)
include h

theorem RaftNode.tick_isSome : n.tick.isSome = true := by
  unfold RaftNode.tick
  dsimp only
  split_ifs with hrole htimeout
  · obtain ⟨out, hout⟩ := Option.isSome_iff_exists.mp (broadcastAppend_isSome (h hrole))
    rw [hout]
    rfl
  · unfold RaftNode.beginElection
    split_ifs
    · exact takeOffice_isSome _
    · rfl
  · rfl

theorem RaftNode.tick_positioned (hresult : n.tick = some result) : result.1.Positioned := by
  unfold RaftNode.tick at hresult
  dsimp only at hresult
  split_ifs at hresult with hrole htimeout
  · obtain ⟨out, -, hresult⟩ := Option.bind_eq_some_iff.mp hresult
    obtain rfl := Option.some.inj hresult
    exact h
  · unfold RaftNode.beginElection at hresult
    split_ifs at hresult
    · exact takeOffice_positioned hresult
    · obtain rfl := Option.some.inj hresult
      exact fun hlead => absurd hlead (by simp [RaftNode.stand])
  · obtain rfl := Option.some.inj hresult
    exact fun hlead => absurd hlead hrole

theorem RaftNode.advanceCommit_positioned : n.advanceCommit.Positioned :=
  fun hlead peer hpeer => (h hlead peer hpeer).grow rfl rfl le_rfl

theorem RaftNode.propose_positioned (command : C) : (n.propose command).1.Positioned := by
  unfold RaftNode.propose
  split_ifs with hrole
  · exact h
  · refine advanceCommit_positioned fun hlead peer hpeer => ?_
    exact (h hlead peer hpeer).grow rfl rfl (by simp)

/-- A report is taken over as it is, so it has to be one the leader's log reaches. -/
theorem RaftNode.onAppendResponse_positioned {term : Term} {src : MemberId}
    {matchIndex : LogIndex} {success : Bool}
    (hreport : n.role = .leader → term = n.currentTerm → success = true →
      matchIndex ≤ n.log.length) :
    (n.onAppendResponse term src matchIndex success).1.Positioned := by
  unfold RaftNode.onAppendResponse
  by_cases hignore : n.role ≠ .leader ∨ term ≠ n.currentTerm
  · rw [if_pos hignore]
    exact h
  · rw [if_neg hignore]
    push Not at hignore
    obtain ⟨hrole, hterm⟩ := hignore
    cases success with
    | true =>
      have hle := hreport hrole hterm rfl
      refine advanceCommit_positioned fun _ peer hpeer => ?_
      obtain ⟨⟨i, hi, hpos, hnext⟩, m, hm, hheld⟩ := h hrole peer hpeer
      by_cases hsrc : peer = src
      · subst hsrc
        exact ⟨⟨_, BTreeMap.get?_insert_self .., Nat.succ_pos _, Nat.succ_le_succ hle⟩,
          _, BTreeMap.get?_insert_self .., hle⟩
      · refine ⟨⟨i, ?_, hpos, hnext⟩, m, ?_, hheld⟩
        · exact (BTreeMap.get?_insert_ne _ _ hsrc).trans hi
        · exact (BTreeMap.get?_insert_ne _ _ hsrc).trans hm
    | false =>
      intro _ peer hpeer
      obtain ⟨⟨i, hi, hpos, hnext⟩, m, hm, hheld⟩ := h hrole peer hpeer
      refine ⟨?_, m, hm, hheld⟩
      by_cases hsrc : peer = src
      · subst hsrc
        refine ⟨_, BTreeMap.get?_insert_self .., le_max_right _ _, ?_⟩
        rw [hi]
        show max (i - 1) 1 ≤ n.log.length + 1
        omega
      · exact ⟨i, (BTreeMap.get?_insert_ne _ _ hsrc).trans hi, hpos, hnext⟩

omit h in
theorem RaftNode.onVoteResponse_isSome (n : RaftNode C) (term : Term) (src : MemberId)
    (granted : Bool) : (n.onVoteResponse term src granted).isSome = true := by
  unfold RaftNode.onVoteResponse
  generalize (if n.votesGranted.contains src then n.votesGranted else n.votesGranted ++ [src]) =
    votes
  dsimp only
  split_ifs
  · rfl
  · exact takeOffice_isSome _
  · rfl

theorem RaftNode.onVoteResponse_positioned {term : Term} {src : MemberId}
    {granted : Bool} (hresult : n.onVoteResponse term src granted = some result) :
    result.1.Positioned := by
  unfold RaftNode.onVoteResponse at hresult
  generalize (if n.votesGranted.contains src then n.votesGranted else n.votesGranted ++ [src]) =
    votes
    at hresult
  dsimp only at hresult
  split_ifs at hresult
  · obtain rfl := Option.some.inj hresult
    exact h
  · exact takeOffice_positioned hresult
  · obtain rfl := Option.some.inj hresult
    exact fun hlead peer hpeer => (h hlead peer hpeer).grow rfl rfl le_rfl

theorem RaftNode.onRequestVote_positioned (term : Term) (candidate : MemberId)
    (lastLogIndex : LogIndex) (lastLogTerm : Term) :
    (n.onRequestVote term candidate lastLogIndex lastLogTerm).1.Positioned := by
  unfold RaftNode.onRequestVote
  dsimp only
  split_ifs
  · exact fun hlead peer hpeer => (h hlead peer hpeer).grow rfl rfl le_rfl
  · exact h

/-- Whoever accepts an append is no leader afterwards. -/
theorem RaftNode.onAppendEntries_positioned (term : Term) (leader : MemberId)
    (prevLogIndex : LogIndex) (prevLogTerm : Term) (entries : List (LogEntry C))
    (leaderCommit : LogIndex) :
    (n.onAppendEntries term leader prevLogIndex prevLogTerm entries leaderCommit).1.Positioned := by
  unfold RaftNode.onAppendEntries
  dsimp only
  split_ifs
  · exact h
  · exact fun hlead => absurd hlead (by simp)
  · exact fun hlead => absurd hlead (by simp)
  · exact fun hlead => absurd hlead (by simp)

theorem RaftNode.observe_positioned (term : Term) : (n.observe term).Positioned := by
  unfold RaftNode.observe
  split_ifs
  · exact fun hlead => absurd hlead (by simp [RaftNode.stepDown])
  · exact h

omit h in
theorem RaftNode.handle_isSome (n : RaftNode C) (message : RaftMessage C) :
    (n.handle message).isSome = true := by
  unfold RaftNode.handle
  cases message with
  | requestVote term candidate lastLogIndex lastLogTerm => rfl
  | requestVoteResp term src granted => exact onVoteResponse_isSome _ _ _ _
  | appendEntries term leader prevLogIndex prevLogTerm entries leaderCommit => rfl
  | appendEntriesResp term src matchIndex success => rfl

/-- What a node may take over from a response: no more than its log has. -/
def RaftNode.Reachable (n : RaftNode C) : RaftMessage C → Prop
  | .appendEntriesResp term _ matchIndex success =>
    n.role = .leader → term = n.currentTerm → success = true → matchIndex ≤ n.log.length
  | _ => True

theorem RaftNode.handle_positioned {message : RaftMessage C}
    (hreach : n.Reachable message) (hresult : n.handle message = some result) :
    result.1.Positioned := by
  have hobserved := observe_positioned h message.term
  unfold RaftNode.handle at hresult
  cases message with
  | requestVote term candidate lastLogIndex lastLogTerm =>
    obtain rfl := Option.some.inj hresult
    exact onRequestVote_positioned hobserved term candidate lastLogIndex lastLogTerm
  | requestVoteResp term src granted => exact onVoteResponse_positioned hobserved hresult
  | appendEntries term leader prevLogIndex prevLogTerm entries leaderCommit =>
    obtain rfl := Option.some.inj hresult
    exact onAppendEntries_positioned hobserved term leader prevLogIndex prevLogTerm entries
      leaderCommit
  | appendEntriesResp term src matchIndex success =>
    obtain rfl := Option.some.inj hresult
    refine onAppendResponse_positioned hobserved ?_
    unfold RaftNode.observe
    split_ifs
    · exact fun hlead => absurd hlead (by simp [RaftNode.stepDown])
    · exact hreach

end

/-! ## Runs -/

/-- What a follower reports to the leader of its term is in the leader's log. -/
theorem Mirrors.ack_le {cluster : Cluster C} {s : Protocol C} (h : Mirrors members cluster s)
    (hs : Safe LogEntry.term members s) {o : Outbound C} (hdst : o.dst ∈ members)
    (ho : o ∈ cluster.network) : (cluster.nodes o.dst).Reachable o.message := by
  have hsaid := h.said o ho
  obtain ⟨dst, message⟩ := o
  cases message with
  | appendEntriesResp term src matchIndex success =>
    intro hlead hterm hsuccess
    obtain ⟨-, -, hack⟩ := hsaid hsuccess
    obtain ⟨l, L, hL, hle⟩ := hs.safety.ack_led _ _ _ hack
    have hshown := h.shown dst hdst
    have hled := h.led hs.toElected hdst hlead
    rw [hterm] at hL
    obtain rfl := hs.voting.led_unique hL hled
    rw [← hshown.term] at hL
    have hpre := (hs.leading.led_now l L hL).2
    rw [hshown.log] at hpre
    exact hle.trans hpre.length_le
  | requestVote term candidate lastLogIndex lastLogTerm => trivial
  | requestVoteResp term src granted => trivial
  | appendEntries term leader prevLogIndex prevLogTerm entries leaderCommit => trivial

theorem positioned_step [DecidableEq C] {cluster next : Cluster C} {s : Protocol C}
    (h : Mirrors members cluster s) (hs : Safe LogEntry.term members s)
    (hpos : ∀ id ∈ members, (cluster.nodes id).Positioned) {event : Event C}
    (hstep : cluster.step members event = some next) :
    ∀ id ∈ members, (next.nodes id).Positioned := by
  obtain ⟨id, hid, result, rfl, hcases⟩ := Cluster.step_eq_some hstep
  refine Cluster.forall_put (P := fun _ => RaftNode.Positioned) ?_ fun w hw _ => hpos w hw
  rcases hcases with ⟨-, hresult⟩ | ⟨o, hmem, rfl, -, hresult⟩ | ⟨command, -, rfl⟩
  · exact RaftNode.tick_positioned (hpos id hid) hresult
  · exact RaftNode.handle_positioned (hpos _ hid) (h.ack_le hs hid hmem) hresult
  · exact RaftNode.propose_positioned (hpos id hid) command

theorem run_positioned [DecidableEq C] {run : List (Cluster C)}
    (hrun : Run members Cluster.NoStaleTail run) :
    ∀ c ∈ run, ∀ id ∈ members, (c.nodes id).Positioned := by
  induction hrun with
  | @start cluster h =>
    intro c hc id hid hlead
    rw [List.mem_singleton.mp hc] at hlead
    rw [(h.node hid).2] at hlead
    cases hlead
  | @step cluster next past event hprior hclean hstep ih =>
    obtain ⟨_, _, s, heq, hmirrors, hs, -, -⟩ := run_safe hprior
    cases heq
    exact List.forall_mem_cons.mpr
      ⟨positioned_step hmirrors hs (ih cluster List.mem_cons_self) hstep, ih⟩

/-- While no append is accepted over a stale tail, every index a node keeps is in range, and
    neither a tick nor a message nor reading the committed entries panics. -/
theorem indices_in_range [DecidableEq C] {run : List (Cluster C)}
    (hrun : Run members Cluster.NoStaleTail run) {c : Cluster C} (hc : c ∈ run) {id : MemberId}
    (hid : id ∈ members) :
    (c.nodes id).commitIndex ≤ (c.nodes id).log.length
      ∧ ((c.nodes id).role = .leader → ∀ peer ∈ (c.nodes id).peers,
        (∃ next : Nat, (c.nodes id).nextIndex.get? peer = some next ∧ 1 ≤ next
          ∧ next ≤ (c.nodes id).log.length + 1)
        ∧ ∃ held : Nat, (c.nodes id).matchIndex.get? peer = some held
          ∧ held ≤ (c.nodes id).log.length)
      ∧ (c.nodes id).committedEntries.isSome = true
      ∧ (c.nodes id).tick.isSome = true
      ∧ ∀ message, ((c.nodes id).handle message).isSome = true := by
  have hpos := run_positioned hrun c hc id hid
  obtain ⟨_, _, s, -, -, -, -, hpast⟩ := run_safe hrun
  obtain ⟨P, hP, -, -⟩ := hpast c hc id hid
  have hle : (c.nodes id).commitIndex ≤ (c.nodes id).log.length := by
    by_contra hgt
    unfold RaftNode.committedEntries at hP
    rw [if_neg hgt] at hP
    cases hP
  refine ⟨hle, fun hlead peer hpeer => ?_, by rw [hP]; rfl, RaftNode.tick_isSome hpos,
    RaftNode.handle_isSome _⟩
  obtain ⟨hnext, hheld⟩ := hpos hlead peer hpeer
  exact ⟨hnext, hheld⟩

/-- A leader with an entry that the second node holds too. -/
theorem indices_in_range_trio :
    ∃ run : List (Cluster Nat), Run ["a", "b", "c"] Cluster.NoStaleTail run
      ∧ ∃ c ∈ run, (c.nodes "a").role = .leader
        ∧ (c.nodes "a").nextIndex.get? "b" = some 2 ∧ (c.nodes "a").log = [⟨1, 7⟩]
        ∧ (c.nodes "a").tick.isSome = true := by
  obtain ⟨run, hrun, c, hmem, hlead, hnext, hlog⟩ :
    ∃ run, Run ["a", "b", "c"] Cluster.NoStaleTail run
      ∧ ∃ c ∈ run, (c.nodes "a").role = .leader ∧ (c.nodes "a").nextIndex.get? "b" = some 2
        ∧ (c.nodes "a").log = [⟨1, 7⟩] := last_of_events firstAppend (by decide +kernel)
  exact ⟨run, hrun, c, hmem, hlead, hnext, hlog,
    (indices_in_range hrun hmem (by decide)).2.2.2.1⟩

/-- The first node's entry of term 1 is one the second, which leads term 2 with an empty log, does
    not have. The report of length 1 sends the second past the end of its log. -/
theorem broadcast_out_of_range :
    ∃ run : List (Cluster Nat), Run ["a", "b", "c"] (fun _ _ => True) run
      ∧ ∃ c ∈ run, (c.nodes "b").role = .leader ∧ (c.nodes "b").log = []
        ∧ (c.nodes "b").nextIndex.get? "a" = some 2 ∧ (c.nodes "b").tick.isNone = true :=
  last_of_events (firstElection ++ [.propose "a" 1,
    .tick "b",
    .deliver ⟨"c", .requestVote 2 "b" 0 0⟩,
    .deliver ⟨"b", .requestVoteResp 2 "c" true⟩,
    .deliver ⟨"a", .appendEntries 2 "b" 0 0 [] 0⟩,
    .deliver ⟨"b", .appendEntriesResp 2 "a" 1 true⟩]) (by decide +kernel)

end Blut.Raft
