/-
  What a `Committed` decision stands for.

  `request_dispatch` returns it for the entry it has just appended. `poll_dispatch` returns it from
  the commit index and the stage's present peer. It is truthful for a dispatch that the polling
  node asked for, while it goes on leading and proposes nothing that ends the stage or gives it to
  another peer (`committed_is_truthful`): a leader's log only grows, so the entry stays where it
  was put. A proposal that another leader overwrote is authorised all the same
  (`overwritten_is_authorised`).
-/
import Blut.Raft.Dispatching

namespace Blut.Raft

open Blut.Lib

variable {members : List MemberId}

/-! ## The record of a dispatched stage -/

variable {command : SchedulerCommand}

/-- The command finishes or voids the stage. -/
def SchedulerCommand.ends (stage : String) : SchedulerCommand → Bool
  | .complete stage' _ => stage' = stage
  | .fail stage' _ => stage' = stage
  | .voidDispatch stage' _ => stage' = stage
  | _ => false

/-- The peer that the command gives the stage to. -/
def SchedulerCommand.assigns (stage : String) : SchedulerCommand → Option String
  | .dispatch stage' peer _ => if stage' = stage then some peer else none
  | .running stage' peer => if stage' = stage then some peer else none
  | _ => none

/-- The command neither ends the stage nor gives it to another peer. -/
def SchedulerCommand.keeps (stage peer : String) (command : SchedulerCommand) : Bool :=
  !command.ends stage && (command.assigns stage).all fun p => p = peer

/-- A stage that is with a peer. -/
def StageRecord.WithPeer (record : StageRecord) (peer : String) : Prop :=
  (record.status = some .dispatched ∨ record.status = some .running) ∧ record.peer = some peer

variable {peer stage : String} {index : LogIndex}

theorem WithPeer.update {record : StageRecord} (h : record.WithPeer peer)
    (hkeeps : command.keeps stage peer = true) (hstage : command.stage = stage) :
    (command.update record).WithPeer peer := by
  obtain ⟨hstatus, hpeer⟩ := h
  have hsome : record.status ≠ none := by
    rcases hstatus with h | h <;> rw [h] <;> exact Option.some_ne_none _
  have hopen : ¬ (record.status = some .done ∨ record.status = some .failed) := by
    rcases hstatus with h | h <;> rw [h] <;> decide
  unfold SchedulerCommand.keeps at hkeeps
  rw [Bool.and_eq_true, Bool.not_eq_true'] at hkeeps
  obtain ⟨hends, hassigns⟩ := hkeeps
  cases command with
  | enqueue s =>
    simp only [SchedulerCommand.update]
    rw [if_neg hsome]
    exact ⟨hstatus, hpeer⟩
  | dispatch s p expected =>
    obtain rfl : s = stage := hstage
    simp only [SchedulerCommand.assigns, if_true, Option.all_some, decide_eq_true_eq] at hassigns
    rw [hassigns]
    exact ⟨Or.inl rfl, rfl⟩
  | running s p =>
    obtain rfl : s = stage := hstage
    simp only [SchedulerCommand.assigns, if_true, Option.all_some, decide_eq_true_eq] at hassigns
    simp only [SchedulerCommand.update]
    rw [if_neg hopen, hassigns]
    exact ⟨Or.inr rfl, rfl⟩
  | cloudJob s job => exact ⟨hstatus, hpeer⟩
  | complete | fail | voidDispatch => exact absurd hstage (of_decide_eq_false hends)

/-- A dispatched stage stays with its peer while the entries keep it there. -/
theorem withPeer_after_dispatch (before : SchedulerLog) (term : Term)
    (stage peer : String) (expected : Option String) {rest : SchedulerLog}
    (hrest : ∀ entry ∈ rest, entry.command.keeps stage peer = true) :
    ((SchedulerState.ofLog (before ++ ⟨term, .dispatch stage peer expected⟩ :: rest)).record
      stage).WithPeer peer := by
  induction rest using List.reverseRecOn with
  | nil =>
    have hstage : (SchedulerCommand.dispatch stage peer expected).stage = stage := rfl
    rw [SchedulerState.record_ofLog_append, if_pos hstage]
    exact ⟨Or.inl rfl, rfl⟩
  | append_singleton rest entry ih =>
    have ih := ih fun e he => hrest e (List.mem_append_left _ he)
    rw [← List.cons_append, ← List.append_assoc, SchedulerState.record_ofLog_append]
    split_ifs with hstage
    · exact WithPeer.update ih (hrest entry (by simp)) hstage
    · exact ih

/-! ## Decisions -/

variable {committed : SchedulerLog} {expected : Option String}
  {n' : HaScheduler} {n : HaScheduler}

/-- The node's committed log holds at the index a dispatch of the stage to the peer, and none of
    its later entries finishes or voids the stage. -/
def HaScheduler.Authorises (n : HaScheduler) (stage peer : String) (index : LogIndex) : Prop :=
  ∃ committed, n.raft.committedEntries = some committed ∧ 0 < index
    ∧ (∃ term expected, committed[index - 1]? = some ⟨term, .dispatch stage peer expected⟩)
    ∧ ∀ entry ∈ committed.drop index, entry.command.ends stage = false

theorem leads_of_mayDispatch (h : n.mayDispatch stage = true) :
    n.raft.role = .leader := by
  unfold HaScheduler.mayDispatch at h
  simp only [Bool.and_eq_true, decide_eq_true_eq] at h
  exact h.1.1

theorem requestDispatch_authorises {stage' peer' : String}
    (h : n.requestDispatch stage peer expected = some (n', .committed stage' peer' index)) :
    stage' = stage ∧ peer' = peer ∧ n'.Authorises stage peer index := by
  rcases requestDispatch_eq_some h with ⟨-, -, hno⟩ | ⟨hmay, hpump, hdecision⟩
  · exact absurd rfl (hno stage' peer' index).1
  · split_ifs at hdecision with hcommit
    cases hdecision
    refine ⟨rfl, rfl, ?_⟩
    obtain ⟨committed, hcommitted, rfl⟩ := pump_eq_some hpump
    have hlog := propose_log n.raft (.dispatch stage peer expected)
    rw [if_pos (leads_of_mayDispatch hmay)] at hlog
    -- the new entry is the last of the log, and committed
    have hall : committed = n.raft.log ++
        [⟨n.raft.currentTerm, .dispatch stage peer expected⟩] := by
      unfold RaftNode.committedEntries at hcommitted
      dsimp only at hcommitted hcommit
      rw [hlog] at hcommitted
      split_ifs at hcommitted
      rw [← Option.some.inj hcommitted]
      refine List.take_of_length_le ?_
      rw [List.length_append]
      exact hcommit
    refine ⟨committed, hcommitted, Nat.succ_pos _, ⟨n.raft.currentTerm, expected, ?_⟩, ?_⟩
    · rw [hall, Nat.add_sub_cancel, List.getElem?_append_right le_rfl, Nat.sub_self]
      rfl
    · have hend : committed.drop (n.raft.log.length + 1) = [] := by
        rw [hall]
        exact List.drop_of_length_le (by rw [List.length_append]; exact le_rfl)
      rw [hend]
      exact fun e he => absurd he List.not_mem_nil

/-- What polling returns, from a state that is current. -/
theorem pollDispatch_committed {stage' : String} {index' : LogIndex}
    (hcommitted : n.raft.committedEntries = some committed)
    (hstate : n.state = SchedulerState.ofLog committed)
    (h : n.pollDispatch stage index = some (n', .committed stage' peer index')) :
    n'.raft = n.raft ∧ stage' = stage ∧ index' = index ∧ index ≤ n.raft.commitIndex
      ∧ ((SchedulerState.ofLog committed).record stage).peer = some peer := by
  obtain ⟨n'', hpump, h⟩ := Option.bind_eq_some_iff.mp h
  obtain ⟨committed', hcommitted', rfl⟩ := pump_eq_some hpump
  rw [hcommitted] at hcommitted'
  obtain rfl := Option.some.inj hcommitted'
  rw [hstate, SchedulerState.applyPrefix_ofLog (List.prefix_refl _)] at h
  dsimp only at h
  obtain ⟨rfl, hdecision⟩ := Prod.mk.inj (Option.some.inj h)
  split at hdecision
  · rename_i p hpeer
    cases hdecision
    split_ifs at hpeer with hindex
    obtain ⟨record, hrecord, hpeer⟩ := Option.bind_eq_some_iff.mp hpeer
    refine ⟨rfl, rfl, rfl, hindex, ?_⟩
    unfold SchedulerState.record
    rw [hrecord]
    exact hpeer
  · cases hdecision

/-! ## Outstanding dispatches -/

variable {cluster next : HaCluster} {id : MemberId} {event : HaEvent} {past : List HaCluster}

/-- The node leads, and the event is no call on it that proposes to end the stage or to give it to
    another peer. -/
def HaCluster.Keeps (id : MemberId) (stage peer : String) (cluster : HaCluster) :
    HaEvent → Prop
  | .call caller call => (cluster.nodes id).raft.role = .leader ∧ (caller = id →
    ∀ command ∈ call.proposals (cluster.nodes id), command.keeps stage peer = true)
  | _ => (cluster.nodes id).raft.role = .leader

instance (id : MemberId) (stage peer : String) (cluster : HaCluster) (event : HaEvent) :
    Decidable (cluster.Keeps id stage peer event) := by
  unfold HaCluster.Keeps
  split <;> infer_instance

theorem HaCluster.Keeps.leads (h : cluster.Keeps id stage peer event) :
    (cluster.nodes id).raft.role = .leader := by
  cases event with
  | call caller call => exact h.1
  | tick w => exact h
  | deliver o => exact h

/-- The states of a run, the latest first, in which the node's `request_dispatch` returned the
    index for the stage and the peer, and every event since then kept the stage there. -/
inductive Outstanding (members : List MemberId) (id : MemberId) (stage peer : String)
    (index : LogIndex) : List HaCluster → Prop
  | asked {cluster : HaCluster} {past : List HaCluster} {expected : Option String}
      {n' : HaScheduler} {decision : DispatchDecision}
      (hrequest : (cluster.nodes id).requestDispatch stage peer expected = some (n', decision))
      (hindex : decision = .awaitingQuorum stage index ∨ decision = .committed stage peer index) :
    Outstanding members id stage peer index (cluster.put id (n', []) :: cluster :: past)
  | step {cluster next : HaCluster} {past : List HaCluster} (event : HaEvent)
      (h : Outstanding members id stage peer index (cluster :: past))
      (hkeeps : cluster.Keeps id stage peer event)
      (hstep : cluster.step members event = some next) :
    Outstanding members id stage peer index (next :: cluster :: past)

/-- The node's log holds the dispatch at the index, and what comes after it keeps the stage. -/
def Appended (stage peer : String) (index : LogIndex) (log : SchedulerLog) :
    Prop :=
  ∃ before term expected rest,
    log = before ++ ⟨term, .dispatch stage peer expected⟩ :: rest ∧ before.length + 1 = index
      ∧ ∀ entry ∈ rest, entry.command.keeps stage peer = true

theorem Appended.append {log more : SchedulerLog}
    (h : Appended stage peer index log)
    (hmore : ∀ entry ∈ more, entry.command.keeps stage peer = true) :
    Appended stage peer index (log ++ more) := by
  obtain ⟨before, term, expected, rest, rfl, hindex, hrest⟩ := h
  exact ⟨before, term, expected, rest ++ more, by simp, hindex,
    List.forall_mem_append.mpr ⟨hrest, hmore⟩⟩

theorem proposeAll_log {raft : RaftNode SchedulerCommand} (hleads : raft.role = .leader)
    (commands : List SchedulerCommand) : (proposeAll raft commands).log =
      raft.log ++ commands.map fun command => ⟨raft.currentTerm, command⟩ := by
  induction commands generalizing raft with
  | nil => exact (List.append_nil _).symm
  | cons command commands ih =>
    obtain ⟨hrole, hterm⟩ := propose_role raft command
    have hlog := propose_log raft command
    rw [if_pos hleads] at hlog
    show (proposeAll (raft.propose command).1 commands).log = _
    rw [ih (hrole.trans hleads), hlog, hterm, List.append_assoc]
    rfl

/-- A leader that goes on leading only appends what it proposes. -/
theorem Appended.step (h : Appended stage peer index (cluster.nodes id).raft.log)
    (hstep : cluster.step members event = some next) (hkeeps : cluster.Keeps id stage peer event)
    (hleads : (next.nodes id).raft.role = .leader) :
    Appended stage peer index (next.nodes id).raft.log := by
  obtain ⟨w, -, n', out, hnext, -, hcases⟩ := HaCluster.step_eq_some hstep
  rcases hcases with ⟨rfl, hraft⟩ | ⟨o, rfl, hraft⟩ | ⟨call, rfl, -, hproposed⟩
  · have hlog : (next.nodes id).raft.log = (cluster.nodes id).raft.log :=
      Cluster.log_of_leads hraft (fun _ _ => by simp) hleads
    exact hlog.symm ▸ h
  · have hlog : (next.nodes id).raft.log = (cluster.nodes id).raft.log :=
      Cluster.log_of_leads hraft (fun _ _ => by simp) hleads
    exact hlog.symm ▸ h
  · obtain ⟨hled, hcalls⟩ := hkeeps
    rw [hnext]
    by_cases hw : id = w
    · subst hw
      simp only [HaCluster.put, Function.update_self]
      rw [hproposed, proposeAll_log hled]
      refine h.append fun entry hentry => ?_
      obtain ⟨command, hcommand, rfl⟩ := List.mem_map.mp hentry
      exact hcalls rfl command hcommand
    · simp only [HaCluster.put, Function.update_of_ne hw]
      exact h

theorem requestDispatch_appended {decision : DispatchDecision}
    (h : n.requestDispatch stage peer expected = some (n', decision))
    (hindex : decision = .awaitingQuorum stage index ∨ decision = .committed stage peer index) :
    Appended stage peer index n'.raft.log := by
  rcases requestDispatch_eq_some h with ⟨-, -, hno⟩ | ⟨hmay, hpump, rfl⟩
  · rcases hindex with rfl | rfl
    · exact absurd rfl (hno stage peer index).2
    · exact absurd rfl (hno stage peer index).1
  · obtain ⟨committed, -, rfl⟩ := pump_eq_some hpump
    have hlog := propose_log n.raft (.dispatch stage peer expected)
    rw [if_pos (leads_of_mayDispatch hmay)] at hlog
    refine ⟨n.raft.log, n.raft.currentTerm, expected, [], hlog, ?_, by simp⟩
    split_ifs at hindex
    · rcases hindex with hindex | hindex
      · cases hindex
      · cases hindex
        rfl
    · rcases hindex with hindex | hindex
      · cases hindex
        rfl
      · cases hindex

/-- The entry of an outstanding dispatch stays where it was put. -/
theorem Outstanding.appended (h : Outstanding members id stage peer index (cluster :: past))
    (hleads : (cluster.nodes id).raft.role = .leader) :
    Appended stage peer index (cluster.nodes id).raft.log := by
  generalize hrun : cluster :: past = run at h
  induction h generalizing cluster past with
  | asked hrequest hindex =>
    cases hrun
    simp only [HaCluster.put, Function.update_self]
    exact requestDispatch_appended hrequest hindex
  | step event h hkeeps hstep ih =>
    cases hrun
    exact (ih hkeeps.leads rfl).step hstep hkeeps hleads

/-- What a poll of an outstanding dispatch finds: the committed entries are those of the log up to
    the commit index, and the dispatch is among them. -/
theorem Appended.take_commit (h : Appended stage peer index n.raft.log)
    (hcommitted : n.raft.committedEntries = some committed) (hindex : index ≤ n.raft.commitIndex) :
    Appended stage peer index committed := by
  unfold RaftNode.committedEntries at hcommitted
  split_ifs at hcommitted
  rw [← Option.some.inj hcommitted]
  obtain ⟨before, term, expected, rest, hlog, rfl, hrest⟩ := h
  refine ⟨before, term, expected, rest.take (n.raft.commitIndex - (before.length + 1)), ?_, rfl,
    fun entry hentry => hrest entry (List.mem_of_mem_take hentry)⟩
  obtain ⟨k, hk⟩ := Nat.exists_eq_add_of_le hindex
  rw [hlog, hk, Nat.add_sub_cancel_left, Nat.add_assoc, List.take_append, Nat.add_comm 1 k]
  simp

theorem SchedulerCommand.ends_of_keeps (h : command.keeps stage peer = true) :
    command.ends stage = false := by
  unfold SchedulerCommand.keeps at h
  rw [Bool.and_eq_true, Bool.not_eq_true'] at h
  exact h.1

theorem Appended.authorises (hcommitted : n.raft.committedEntries = some committed)
    (h : Appended stage peer index committed) : n.Authorises stage peer index := by
  obtain ⟨before, term, expected, rest, rfl, rfl, hrest⟩ := h
  refine ⟨_, hcommitted, Nat.succ_pos _, ⟨term, expected, by simp⟩, fun entry hentry => ?_⟩
  rw [List.drop_append, List.drop_of_length_le (Nat.le_succ _), Nat.add_sub_cancel_left] at hentry
  exact SchedulerCommand.ends_of_keeps (hrest entry hentry)

/-- Every `Committed` of `request_dispatch` is truthful, and so is every one of `poll_dispatch` for
    an outstanding dispatch of a node that leads. -/
theorem committed_is_truthful {c : HaCluster} {past : List HaCluster}
    (hrun : HaRun members (fun _ _ => True) (c :: past))
    (hsafe : StateMachineSafe members ((c :: past).map HaCluster.raft)) {id : MemberId}
    (hid : id ∈ members) :
    (∀ stage peer expected n' stage' peer' index,
        (c.nodes id).requestDispatch stage peer expected =
          some (n', .committed stage' peer' index) →
          stage' = stage ∧ peer' = peer ∧ n'.Authorises stage peer index)
      ∧ ∀ stage peer index, Outstanding members id stage peer index (c :: past) →
        (c.nodes id).raft.role = .leader → ∀ n' stage' peer' index',
          (c.nodes id).pollDispatch stage index = some (n', .committed stage' peer' index') →
            stage' = stage ∧ peer' = peer ∧ index' = index ∧ n'.Authorises stage peer index := by
  refine ⟨fun stage peer expected n' stage' peer' index h => requestDispatch_authorises h,
    fun stage peer index hout hleads n' stage' peer' index' h => ?_⟩
  obtain ⟨committed, hcommitted, hstate⟩ := ha_current hrun hsafe c List.mem_cons_self id hid
  obtain ⟨hraft, rfl, rfl, hindex, hpeer⟩ := pollDispatch_committed hcommitted hstate h
  have happended := (hout.appended hleads).take_commit hcommitted hindex
  refine ⟨rfl, ?_, rfl, happended.authorises (by rw [hraft]; exact hcommitted)⟩
  obtain ⟨before, term, expected, rest, rfl, -, hrest⟩ := happended
  have hwith := (withPeer_after_dispatch before term stage' peer expected hrest).2
  rw [hwith] at hpeer
  exact (Option.some.inj hpeer).symm

/-- A leader asks for a dispatch, replicates it and polls. -/
theorem committed_is_truthful_trio :
    ∃ c past, HaRun ["a", "b", "c"] (fun _ _ => True) (c :: past)
      ∧ StateMachineSafe ["a", "b", "c"] ((c :: past).map HaCluster.raft)
      ∧ Outstanding ["a", "b", "c"] "a" "s" "p" 1 (c :: past)
      ∧ (c.nodes "a").raft.role = .leader
      ∧ ∃ n', (c.nodes "a").pollDispatch "s" 1 = some (n', .committed "s" "p" 1)
        ∧ n'.Authorises "s" "p" 1 := by
  have hcheck : ((replay (HaCluster.step ["a", "b", "c"]) HaCluster.NoStaleTail
      [haTrio] haElection).any fun run =>
      run.head?.any fun c => ((c.nodes "a").requestDispatch "s" "p" none).any fun answer =>
        decide (answer.2 = .awaitingQuorum "s" 1) &&
        (replay (HaCluster.step ["a", "b", "c"])
          (fun c event => c.Keeps "a" "s" "p" event ∧ c.NoStaleTail event)
          (c.put "a" (answer.1, []) :: run)
          (haRound 0 [⟨1, .dispatch "s" "p" none⟩])).any fun run =>
            run.head?.any fun c => decide ((c.nodes "a").raft.role = .leader
              ∧ ((c.nodes "a").pollDispatch "s" 1).map Prod.snd = some (.committed "s" "p" 1))) =
      true := by
    decide +kernel
  obtain ⟨run, hrun, hcheck⟩ := (Option.any_eq_true _ _).mp hcheck
  obtain ⟨cluster, hcluster, hcheck⟩ := (Option.any_eq_true _ _).mp hcheck
  obtain ⟨⟨n, decision⟩, hrequest, hcheck⟩ := (Option.any_eq_true _ _).mp hcheck
  rw [Bool.and_eq_true, decide_eq_true_eq] at hcheck
  obtain ⟨rfl, hcheck⟩ := hcheck
  obtain ⟨run', hrun', hcheck⟩ := (Option.any_eq_true _ _).mp hcheck
  obtain ⟨c, hc, hcheck⟩ := (Option.any_eq_true _ _).mp hcheck
  obtain ⟨hleads, hpoll⟩ := of_decide_eq_true hcheck
  obtain ⟨⟨n', _⟩, hpoll, rfl⟩ := Option.map_eq_some_iff.mp hpoll
  obtain ⟨past, rfl⟩ := List.head?_eq_some_iff.mp hcluster
  obtain ⟨past', rfl⟩ := List.head?_eq_some_iff.mp hc
  -- the run up to the request, with it, and the round after it
  have hfirst :=
    replay_induction HaRun.step (HaRun.start (HaCluster.fresh_starts _ Nat.one_pos)) hrun
  have hcall : cluster.step ["a", "b", "c"] (.call "a" (.requestDispatch "s" "p" none)) =
      some (cluster.put "a" (n, [])) := by
    simp [HaCluster.step, HaScheduler.call, hrequest]
  have hasked := HaRun.step (.call "a" (.requestDispatch "s" "p" none)) hfirst trivial hcall
  have hwhole :=
    replay_induction (fun event h hallowed => HaRun.step event h hallowed.2) hasked hrun'
  have hstart : Outstanding ["a", "b", "c"] "a" "s" "p" 1
      (cluster.put "a" (n, []) :: cluster :: past) := .asked hrequest (Or.inl rfl)
  have hout :=
    replay_induction (fun event h hallowed => Outstanding.step event h hallowed.1) hstart hrun'
  have hsafe := hwhole.stateMachineSafe
  have hany := hwhole.mono fun _ _ _ => trivial
  exact ⟨c, past', hany, hsafe, hout, hleads, n', hpoll,
    ((committed_is_truthful hany hsafe (by decide)).2 "s" "p" 1 hout hleads n' _ _ _ hpoll).2.2.2⟩

/-- The first node asks for a dispatch at index 1 and loses its office. The second leads term 2,
    logs an arrival and a dispatch of the stage to another peer, and both reach the first node. -/
def overwritingEvents : List HaEvent :=
  haElection ++
  [.call "a" (.requestDispatch "s" "p" none),
    .tick "b",
    .deliver ⟨"c", .requestVote 2 "b" 0 0⟩,
    .deliver ⟨"b", .requestVoteResp 2 "c" true⟩,
    .call "b" (.enqueue "x"),
    .call "b" (.requestDispatch "s" "q" none),
    .tick "b",
    .deliver ⟨"c", .appendEntries 2 "b" 0 0 [⟨2, .enqueue "x"⟩, ⟨2, .dispatch "s" "q" none⟩] 0⟩,
    .deliver ⟨"b", .appendEntriesResp 2 "c" 2 true⟩,
    .tick "b",
    .deliver ⟨"a", .appendEntries 2 "b" 0 0 [⟨2, .enqueue "x"⟩, ⟨2, .dispatch "s" "q" none⟩] 2⟩]

/-- The index of the proposal that was overwritten by the arrival is authorised too. -/
theorem overwritten_is_authorised :
    ∃ run, HaRun ["a", "b", "c"] (fun _ _ => True) run
      ∧ StateMachineSafe ["a", "b", "c"] (run.map HaCluster.raft)
      ∧ ∃ c ∈ run, ∃ n', (c.nodes "a").pollDispatch "s" 1 = some (n', .committed "s" "q" 1)
        ∧ n'.raft.committedEntries = some [⟨2, .enqueue "x"⟩, ⟨2, .dispatch "s" "q" none⟩]
        ∧ ¬ n'.Authorises "s" "q" 1 := by
  obtain ⟨run, hrun, hsafe, c, hmem, hpoll⟩ : ∃ run, HaRun ["a", "b", "c"] (fun _ _ => True) run
      ∧ StateMachineSafe ["a", "b", "c"] (run.map HaCluster.raft)
      ∧ ∃ c ∈ run, ((c.nodes "a").pollDispatch "s" 1).map (fun result =>
        (result.2, result.1.raft.committedEntries)) = some (.committed "s" "q" 1,
          some [⟨2, .enqueue "x"⟩, ⟨2, .dispatch "s" "q" none⟩]) :=
    haRun_of_events overwritingEvents (by decide +kernel)
  obtain ⟨⟨n', decision⟩, hpoll, hresult⟩ := Option.map_eq_some_iff.mp hpoll
  obtain ⟨rfl, hcommitted⟩ := Prod.mk.inj hresult
  refine ⟨run, hrun, hsafe, c, hmem, n', hpoll, hcommitted, ?_⟩
  rintro ⟨committed, hcommitted', -, ⟨term, expected, hentry⟩, -⟩
  rw [hcommitted] at hcommitted'
  obtain rfl := Option.some.inj hcommitted'
  simp at hentry

end Blut.Raft
