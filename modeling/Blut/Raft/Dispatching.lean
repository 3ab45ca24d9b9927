/-
  Dispatches of a cluster of schedulers.

  Given state-machine safety of the Raft log, the state a scheduler decides from is that of its
  committed entries (`ha_current`). `request_dispatch` looks no further, so a stage may be
  dispatched twice while the first dispatch is still on its way (`dispatched_twice`); where the log
  past the applied entries holds no dispatch of the stage, there is at most one between any two
  voids (`one_live_dispatch`). Every log in the cluster was a leader's, so this is a matter of what
  leaders propose.
-/
import Blut.Raft.Origins
import Blut.Raft.HighAvailability

namespace Blut.Raft

open Blut.Lib Blut.Lib.Replication

variable {members : List MemberId}

/-! ## The Raft run under a run of schedulers -/

variable {cluster : HaCluster}

/-- Committed prefixes agree, and none is taken back. -/
structure StateMachineSafe {C : Type} (members : List MemberId)
    (run : List (Cluster C)) : Prop where
  comparable : ∀ c ∈ run, ∀ c' ∈ run, ∀ a ∈ members, ∀ b ∈ members,
    ∃ P Q, (c.nodes a).committedEntries = some P ∧ (c'.nodes b).committedEntries = some Q
      ∧ (P <+: Q ∨ Q <+: P)
  grows : run.Pairwise fun later earlier => ∀ id ∈ members, ∀ P,
    (earlier.nodes id).committedEntries = some P →
      ∃ Q, (later.nodes id).committedEntries = some Q ∧ P <+: Q

theorem StateMachineSafe.tail {C : Type} {c : Cluster C} {run : List (Cluster C)}
    (h : StateMachineSafe members (c :: run)) : StateMachineSafe members run where
  comparable := fun a ha b hb =>
    h.comparable a (List.mem_cons_of_mem _ ha) b (List.mem_cons_of_mem _ hb)
  grows := (List.pairwise_cons.mp h.grows).2

/-- It holds while no append is accepted over a stale tail. -/
theorem StateMachineSafe.of_noStaleTail {C : Type} [DecidableEq C] {run : List (Cluster C)}
    (hrun : Run members Cluster.NoStaleTail run) : StateMachineSafe members run where
  comparable := by
    obtain ⟨_, _, s, -, -, hs, -, hpast⟩ := run_safe hrun
    intro c hc c' hc' a ha b hb
    obtain ⟨P, hP, hagreed, -⟩ := hpast c hc a ha
    obtain ⟨Q, hQ, hagreed', -⟩ := hpast c' hc' b hb
    exact ⟨P, Q, hP, hQ, hagreed.comparable hs.safety hs.leading hs.voting hagreed'⟩
  grows := committed_grows hrun

theorem HaCluster.put_raft (cluster : HaCluster) (id : MemberId)
    (result : HaScheduler × List (Outbound SchedulerCommand)) :
    (cluster.put id result).raft = cluster.raft.put id (result.1.raft, result.2) := by
  unfold HaCluster.put HaCluster.raft Cluster.put
  congr 1
  funext w
  exact Function.apply_update (fun _ => HaScheduler.raft) ..

/-- The step of a cluster is one of its Raft cluster, or a call that proposes its commands. -/
theorem HaCluster.step_eq_some {next : HaCluster} {event : HaEvent}
    (h : cluster.step members event = some next) :
    ∃ id ∈ members, ∃ n' out, next = cluster.put id (n', out) ∧ (cluster.nodes id).Pumped n' ∧
      ((event = .tick id ∧ cluster.raft.step members (.tick id) = some next.raft)
        ∨ (∃ o, event = .deliver o ∧ cluster.raft.step members (.deliver o) = some next.raft)
        ∨ ∃ call, event = .call id call ∧ out = []
          ∧ n'.raft = proposeAll (cluster.nodes id).raft (call.proposals (cluster.nodes id))) := by
  cases event with
  | tick id =>
    simp only [HaCluster.step] at h
    split_ifs at h with hid
    obtain ⟨⟨n', out⟩, hresult, rfl⟩ := Option.map_eq_some_iff.mp h
    obtain ⟨htick, hpumped⟩ := step_pumped hresult
    refine ⟨id, hid, n', out, rfl, hpumped, Or.inl ⟨rfl, ?_⟩⟩
    simp only [Cluster.step]
    rw [if_pos hid, HaCluster.put_raft]
    exact Option.map_eq_some_iff.mpr ⟨_, htick, rfl⟩
  | deliver o =>
    simp only [HaCluster.step] at h
    split_ifs at h with hsent
    obtain ⟨⟨n', out⟩, hresult, rfl⟩ := Option.map_eq_some_iff.mp h
    obtain ⟨hhandle, hpumped⟩ := step_pumped hresult
    refine ⟨o.dst, hsent.1, n', out, rfl, hpumped, Or.inr (Or.inl ⟨o, rfl, ?_⟩)⟩
    have hsent' : o.dst ∈ members ∧ o ∈ cluster.raft.network := hsent
    simp only [Cluster.step]
    rw [if_pos hsent', HaCluster.put_raft]
    exact Option.map_eq_some_iff.mpr ⟨_, hhandle, rfl⟩
  | call id call =>
    simp only [HaCluster.step] at h
    split_ifs at h with hid
    obtain ⟨n', hresult, rfl⟩ := Option.map_eq_some_iff.mp h
    obtain ⟨hraft, hpumped⟩ := call_raft hresult
    exact ⟨id, hid, n', [], rfl, hpumped, Or.inr (Or.inr ⟨call, rfl, rfl, hraft⟩)⟩

/-- Each proposal of a list is allowed where it is made. -/
def ProposalsAllowed (allowed : Cluster SchedulerCommand → Event SchedulerCommand → Prop)
    (id : MemberId) : Cluster SchedulerCommand → List SchedulerCommand → Prop
  | _, [] => True
  | cluster, command :: commands => allowed cluster (.propose id command)
    ∧ ProposalsAllowed allowed id
      (cluster.put id (((cluster.nodes id).propose command).1, [])) commands

variable {id : MemberId} {allowed : HaCluster → HaEvent → Prop} {run : List HaCluster}
  {n : HaScheduler}

theorem ProposalsAllowed.of_forall
    {allowed : Cluster SchedulerCommand → Event SchedulerCommand → Prop}
    {commands : List SchedulerCommand}
    (h : ∀ command ∈ commands, ∀ cluster, allowed cluster (.propose id command))
    (cluster : Cluster SchedulerCommand) : ProposalsAllowed allowed id cluster commands := by
  induction commands generalizing cluster with
  | nil => trivial
  | cons command commands ih =>
    exact ⟨h command List.mem_cons_self cluster,
      ih (fun c hc => h c (List.mem_cons_of_mem _ hc)) _⟩

/-- A run of the Raft cluster goes on with the proposals of one node. -/
theorem Run.proposals {allowed : Cluster SchedulerCommand → Event SchedulerCommand → Prop}
    (hid : id ∈ members) {commands : List SchedulerCommand} {cluster : Cluster SchedulerCommand}
    {past : List (Cluster SchedulerCommand)} (hrun : Run members allowed (cluster :: past))
    (h : ProposalsAllowed allowed id cluster commands) :
    ∃ past', Run members allowed
      (cluster.put id (proposeAll (cluster.nodes id) commands, []) :: past')
      ∧ ∀ c ∈ cluster :: past,
        c ∈ cluster.put id (proposeAll (cluster.nodes id) commands, []) :: past' := by
  induction commands generalizing cluster past with
  | nil =>
    have hsame : cluster.put id (proposeAll (cluster.nodes id) [], []) = cluster := by
      unfold Cluster.put proposeAll
      simp only [List.foldl_nil, Function.update_eq_self, List.append_nil]
    rw [hsame]
    exact ⟨past, hrun, fun c hc => hc⟩
  | cons command commands ih =>
    obtain ⟨hfirst, hrest⟩ := h
    set next := cluster.put id (((cluster.nodes id).propose command).1, []) with hnext
    have hstep : cluster.step members (.propose id command) = some next := by
      simp only [Cluster.step]
      rw [if_pos hid]
    obtain ⟨past', hrun', hmem⟩ := ih (Run.step _ hrun hfirst hstep) hrest
    have hsame : next.put id (proposeAll (next.nodes id) commands, []) =
        cluster.put id (proposeAll (cluster.nodes id) (command :: commands), []) := by
      rw [hnext]
      unfold Cluster.put proposeAll
      simp only [Function.update_self, Function.update_idem, List.foldl_cons, List.append_nil]
    rw [hsame] at hrun' hmem
    exact ⟨past', hrun', fun c hc => hmem c (List.mem_cons_of_mem _ hc)⟩

/-- The Raft cluster takes the steps of the schedulers' cluster. -/
theorem HaRun.raft_run {allowed' : Cluster SchedulerCommand → Event SchedulerCommand → Prop}
    (htick : ∀ c id, allowed c (.tick id) → allowed' c.raft (.tick id))
    (hdeliver : ∀ c o, allowed c (.deliver o) → allowed' c.raft (.deliver o))
    (hrun : HaRun members allowed run)
    (hcall : ∀ c past id call, (c :: past) <:+ run → HaRun members allowed (c :: past) →
      id ∈ members → allowed c (.call id call) →
      ProposalsAllowed allowed' id c.raft (call.proposals (c.nodes id))) :
    ∃ c past rpast, run = c :: past ∧ Run members allowed' (c.raft :: rpast)
      ∧ ∀ c' ∈ run, c'.raft ∈ c.raft :: rpast := by
  induction hrun with
  | @start cluster h =>
    refine ⟨cluster, [], [], rfl, Run.start ⟨fun id hid => ?_, h.silent⟩, fun c hc => ?_⟩
    · obtain ⟨timeout, hnew⟩ := h.fresh id hid
      obtain ⟨raft, hraft, hnew⟩ := Option.bind_eq_some_iff.mp hnew
      refine ⟨timeout, ?_⟩
      show _ = some (cluster.nodes id).raft
      rw [← Option.some.inj hnew]
      exact hraft
    · rw [List.mem_singleton.mp hc]
      exact List.mem_cons_self
  | @step cluster next past event hprior hallowed hstep ih =>
    obtain ⟨_, _, rpast, heq, hraft, hmem⟩ := ih fun c past id call hsuffix =>
      hcall c past id call (hsuffix.trans (List.suffix_cons _ _))
    cases heq
    -- whatever the Raft run goes on with, it keeps the states it had
    have hextend : ∀ rpast', Run members allowed' (next.raft :: rpast') →
        (∀ c ∈ cluster.raft :: rpast, c ∈ next.raft :: rpast') →
        ∃ c past' rpast, next :: cluster :: past = c :: past' ∧
          Run members allowed' (c.raft :: rpast)
          ∧ ∀ c' ∈ next :: cluster :: past, c'.raft ∈ c.raft :: rpast := by
      intro rpast' hrun' hkeep
      refine ⟨next, _, rpast', rfl, hrun', fun c hc => ?_⟩
      rcases List.mem_cons.mp hc with rfl | hc
      · exact List.mem_cons_self
      · exact hkeep _ (hmem c hc)
    obtain ⟨id, hid, n', out, hnext, -, hcases⟩ := HaCluster.step_eq_some hstep
    rcases hcases with ⟨rfl, hraftStep⟩ | ⟨o, rfl, hraftStep⟩ | ⟨call, rfl, rfl, hproposed⟩
    · exact hextend _ (Run.step _ hraft (htick _ _ hallowed) hraftStep)
        fun c hc => List.mem_cons_of_mem _ hc
    · exact hextend _ (Run.step _ hraft (hdeliver _ _ hallowed) hraftStep)
        fun c hc => List.mem_cons_of_mem _ hc
    · obtain ⟨past', hrun', hkeep⟩ := hraft.proposals hid
        (hcall cluster past id call (List.suffix_cons _ _) hprior hid hallowed)
      have hput : cluster.raft.put id (proposeAll (cluster.raft.nodes id)
          (call.proposals (cluster.nodes id)), []) = next.raft := by
        rw [hnext, HaCluster.put_raft]
        show _ = cluster.raft.put id (n'.raft, [])
        rw [hproposed]
        rfl
      rw [hput] at hrun' hkeep
      exact hextend _ hrun' hkeep

/-- The schedulers' cluster has state-machine safety while no append is accepted over a stale
    tail. -/
theorem HaRun.stateMachineSafe (hrun : HaRun members HaCluster.NoStaleTail run) :
    StateMachineSafe members (run.map HaCluster.raft) := by
  have hraft : ∀ {run : List HaCluster}, HaRun members HaCluster.NoStaleTail run →
      ∃ c past rpast, run = c :: past ∧ Run members Cluster.NoStaleTail (c.raft :: rpast)
        ∧ ∀ c' ∈ run, c'.raft ∈ c.raft :: rpast := by
    intro run hrun
    refine hrun.raft_run (fun _ _ _ => trivial) (fun _ _ h => h) fun c past id call _ _ _ _ => ?_
    exact ProposalsAllowed.of_forall (fun _ _ _ => trivial) _
  constructor
  · obtain ⟨c, past, rpast, -, hrun', hmem⟩ := hraft hrun
    have hsafe := StateMachineSafe.of_noStaleTail hrun'
    intro a ha b hb
    obtain ⟨a', ha', rfl⟩ := List.mem_map.mp ha
    obtain ⟨b', hb', rfl⟩ := List.mem_map.mp hb
    exact hsafe.comparable _ (hmem a' ha') _ (hmem b' hb')
  · induction hrun with
    | start h => exact List.pairwise_singleton _ _
    | @step cluster next past event hprior hallowed hstep ih =>
      refine List.Pairwise.cons (fun earlier hearlier id hid P hP => ?_) ih
      obtain ⟨c, hc, rfl⟩ := List.mem_map.mp hearlier
      obtain ⟨_, _, rpast, heq, hrun', hmem⟩ := hraft (HaRun.step event hprior hallowed hstep)
      cases heq
      obtain ⟨_, _, s, heq, hmirrors, hs, -, hpast⟩ := run_safe hrun'
      cases heq
      obtain ⟨P', hP', -, hpre⟩ := hpast c.raft (hmem c (List.mem_cons_of_mem _ hc)) id hid
      rw [hP] at hP'
      obtain rfl := Option.some.inj hP'
      exact ⟨_, (committedEntries_eq hs (hmirrors.shown id hid)).1, hpre⟩

/-! ## The state of a scheduler -/

/-- A scheduler's state is that of its committed entries. -/
def HaScheduler.Current (n : HaScheduler) : Prop :=
  ∃ committed, n.raft.committedEntries = some committed ∧ n.state = SchedulerState.ofLog committed

theorem ha_current (hrun : HaRun members allowed run)
    (hsafe : StateMachineSafe members (run.map HaCluster.raft)) :
    ∀ c ∈ run, ∀ id ∈ members, (c.nodes id).Current := by
  induction hrun with
  | @start cluster h =>
    intro c hc id hid
    rw [List.mem_singleton.mp hc]
    obtain ⟨timeout, hnew⟩ := h.fresh id hid
    obtain ⟨raft, hraft, hnew⟩ := Option.bind_eq_some_iff.mp hnew
    unfold RaftNode.new at hraft
    split_ifs at hraft
    rw [← Option.some.inj hnew, ← Option.some.inj hraft]
    exact ⟨[], rfl, rfl⟩
  | @step cluster next past event hprior hallowed hstep ih =>
    have ih := ih hsafe.tail
    intro c hc w hw
    rcases List.mem_cons.mp hc with rfl | hc
    swap
    · exact ih c hc w hw
    obtain ⟨id, hid, n', out, hnext, hpumped, -⟩ := HaCluster.step_eq_some hstep
    have hold := ih cluster List.mem_cons_self w hw
    by_cases hwid : w = id
    · subst hwid
      have hnode : c.nodes w = n' := by
        rw [hnext]
        simp only [HaCluster.put, Function.update_self]
      obtain ⟨P, hP, hstate⟩ := hold
      rw [hnode]
      rcases hpumped with ⟨hraft, hsame⟩ | ⟨Q, hQ, hstate'⟩
      · exact ⟨P, by rw [hraft]; exact hP, by rw [hsame]; exact hstate⟩
      · -- the new committed entries extend the old ones
        obtain ⟨Q', hQ', hpre⟩ := (List.pairwise_cons.mp hsafe.grows).1 cluster.raft
          List.mem_cons_self w hw P hP
        have hsame : (c.nodes w).raft.committedEntries = some Q' := hQ'
        rw [hnode, hQ] at hsame
        obtain rfl := Option.some.inj hsame
        refine ⟨Q, hQ, ?_⟩
        rw [hstate', hstate]
        exact SchedulerState.applyPrefix_ofLog hpre
    · rw [hnext]
      simp only [HaCluster.put, Function.update_of_ne hwid]
      exact hold

/-! ## One dispatch between voids -/

variable {committed : SchedulerLog} {command : SchedulerCommand}

/-- No failure is logged, and at no place is a stage dispatched twice since it was voided. -/
structure Orderly (log : SchedulerLog) : Prop where
  noFail : ∀ entry ∈ log, entry.command.isFail = false
  single : ∀ stage pre, pre <+: log → sinceVoid stage pre ≤ 1

theorem Orderly.nil : Orderly [] where
  noFail := fun _ h => absurd h List.not_mem_nil
  single := by
    intro stage pre hpre
    rw [List.prefix_nil.mp hpre]
    exact Nat.zero_le 1

theorem Orderly.concat {log : SchedulerLog} (h : Orderly log)
    {entry : LogEntry SchedulerCommand} (hfail : entry.command.isFail = false)
    (hdispatch : ∀ stage, entry.command.isDispatch stage = true → sinceVoid stage log = 0) :
    Orderly (log ++ [entry]) where
  noFail := by
    exact List.forall_mem_append.mpr ⟨h.noFail, List.forall_mem_singleton.mpr hfail⟩
  single := by
    intro stage pre hpre
    rcases prefix_concat hpre with hpre | rfl
    · exact h.single stage pre hpre
    · rw [sinceVoid_concat]
      split_ifs with hvoid hd
      · exact Nat.zero_le 1
      · rw [hdispatch stage hd]
      · exact h.single stage log (List.prefix_refl _)

/-- Proposals that keep the leader's log orderly. -/
def KeepsOrderly (cluster : Cluster SchedulerCommand) : Event SchedulerCommand → Prop
  | .propose id command => Orderly (cluster.nodes id).log →
    Orderly ((cluster.nodes id).log ++ [⟨(cluster.nodes id).currentTerm, command⟩])
  | _ => True

/-- What is neither a failure nor a dispatch may always be proposed. -/
theorem keepsOrderly_of_neutral (hfail : command.isFail = false)
    (hdispatch : ∀ stage, command.isDispatch stage = false) (cluster : Cluster SchedulerCommand)
    (id : MemberId) : KeepsOrderly cluster (.propose id command) := by
  intro h
  refine h.concat hfail fun stage hd => ?_
  rw [hdispatch stage] at hd
  cases hd

/-- The applied entries, and what the log has beyond them. -/
theorem HaScheduler.Current.log_eq (hcommitted : n.raft.committedEntries = some committed)
    (hstate : n.state = SchedulerState.ofLog committed) :
    n.raft.log = committed ++ n.raft.log.drop n.state.applied := by
  unfold RaftNode.committedEntries at hcommitted
  split_ifs at hcommitted with hle
  obtain rfl := Option.some.inj hcommitted
  rw [hstate, SchedulerState.applied_ofLog, List.length_take, min_eq_left hle,
    List.take_append_drop]

theorem sinceVoid_of_not_taken {stage : String}
    (hfail : ∀ entry ∈ committed, entry.command.isFail = false)
    (h : ((SchedulerState.ofLog committed).get stage).any StageRecord.isTaken = false) :
    sinceVoid stage committed = 0 := by
  by_contra hne
  have htaken := isTaken_of_sinceVoid hfail (Nat.pos_of_ne_zero hne)
  unfold SchedulerState.record at htaken
  cases hget : (SchedulerState.ofLog committed).get stage with
  | none =>
    rw [hget] at htaken
    cases htaken
  | some record =>
    rw [hget] at htaken h
    exact Bool.false_ne_true (h.symm.trans htaken)

/-- Where the guards pass and no dispatch of the stage is pending, there is none since the last
    void. -/
theorem sinceVoid_of_mayDispatch (hcurrent : n.Current) {stage : String}
    (hmay : n.mayDispatch stage = true)
    (hpending : ∀ entry ∈ n.raft.log.drop n.state.applied, entry.command.isDispatch stage = false)
    (horderly : Orderly n.raft.log) : sinceVoid stage n.raft.log = 0 := by
  obtain ⟨committed, hcommitted, hstate⟩ := hcurrent
  have hlog := HaScheduler.Current.log_eq hcommitted hstate
  rw [hlog]
  refine sinceVoid_eq_zero (sinceVoid_of_not_taken (fun e he => ?_) ?_) hpending
  · exact horderly.noFail e (hlog ▸ List.mem_append_left _ he)
  · unfold HaScheduler.mayDispatch at hmay
    rw [← hstate]
    simp only [Bool.and_eq_true, Bool.not_eq_true'] at hmay
    exact hmay.2

theorem proposals_neutral {call : HaCall} (h : command ∈ call.proposals n) :
    command.isFail = false ∧ ((∀ stage, command.isDispatch stage = false) ∨
      ∃ stage peer expected, call = .requestDispatch stage peer expected
        ∧ command = .dispatch stage peer expected ∧ n.mayDispatch stage = true) := by
  cases call with
  | requestDispatch stage peer expected =>
    simp only [HaCall.proposals] at h
    split_ifs at h with hmay
    · obtain rfl := List.mem_singleton.mp h
      exact ⟨rfl, Or.inr ⟨stage, peer, expected, rfl, rfl, hmay⟩⟩
    · exact absurd h List.not_mem_nil
  | commitReconcile actions =>
    obtain ⟨action, -, haction⟩ := List.mem_filterMap.mp h
    cases action with
    | adopt stage hash =>
      obtain rfl := Option.some.inj haction
      exact ⟨rfl, Or.inl fun _ => rfl⟩
    | redispatch stage =>
      obtain rfl := Option.some.inj haction
      exact ⟨rfl, Or.inl fun _ => rfl⟩
    | keepRunning stage peer => cases haction
    | rejectedMismatch stage expected reported => cases haction
  | enqueue stage | recordRunning stage peer
  | recordComplete stage hash | recordCloudJob stage job =>
    obtain rfl := List.mem_singleton.mp h
    exact ⟨rfl, Or.inl fun _ => rfl⟩
  | pollDispatch stage index | reconcile reports | setReachable reachable =>
    exact absurd h List.not_mem_nil

theorem proposals_keepOrderly {call : HaCall} (hcurrent : (cluster.nodes id).Current)
    (hpending : cluster.NoPendingDispatch (.call id call)) :
    ProposalsAllowed KeepsOrderly id cluster.raft (call.proposals (cluster.nodes id)) := by
  by_cases hneutral : ∀ command ∈ call.proposals (cluster.nodes id),
      ∀ stage, command.isDispatch stage = false
  · refine ProposalsAllowed.of_forall (fun command hc c => ?_) _
    exact keepsOrderly_of_neutral (proposals_neutral hc).1 (hneutral command hc) c id
  · push Not at hneutral
    obtain ⟨command, hcommand, stage', hdispatch⟩ := hneutral
    obtain ⟨-, hnone | ⟨stage, peer, expected, rfl, -, hmay⟩⟩ := proposals_neutral hcommand
    · exact absurd (hnone stage') hdispatch
    · simp only [HaCall.proposals]
      rw [if_pos hmay]
      refine ⟨fun horderly => ?_, trivial⟩
      have hlead : (cluster.nodes id).raft.role = .leader := by
        unfold HaScheduler.mayDispatch at hmay
        simp only [Bool.and_eq_true, decide_eq_true_eq] at hmay
        exact hmay.1.1
      have hzero := sinceVoid_of_mayDispatch hcurrent hmay (hpending hlead) horderly
      refine horderly.concat rfl fun other hother => ?_
      have hsame : stage = other := of_decide_eq_true hother
      exact hsame ▸ hzero

/-- Where no dispatch is asked for while one of the stage is pending, a stage is dispatched at most
    once between two voids, before the first and after the last, in every committed log. -/
theorem one_live_dispatch {run : List HaCluster}
    (hrun : HaRun members HaCluster.NoPendingDispatch run)
    (hsafe : StateMachineSafe members (run.map HaCluster.raft)) {c : HaCluster} (hc : c ∈ run)
    {id : MemberId} (hid : id ∈ members) {committed : SchedulerLog}
    (hcommitted : (c.nodes id).raft.committedEntries = some committed) (stage : String)
    {before between after : SchedulerLog}
    (hsplit : committed = before ++ between ++ after)
    (hvoid : ∀ entry ∈ between, entry.command.isVoid stage = false) :
    (between.countP fun entry => entry.command.isDispatch stage) ≤ 1 := by
  have hcurrent := ha_current hrun hsafe
  obtain ⟨_, _, rpast, heq, hraft, hmem⟩ := hrun.raft_run (fun _ _ _ => trivial)
    (fun _ _ _ => trivial) fun c past w call hsuffix _ hw hpending =>
      proposals_keepOrderly (hcurrent c (hsuffix.subset List.mem_cons_self) w hw) hpending
  have horderly : Orderly (c.nodes id).raft.log :=
    logs_satisfy Orderly.nil (fun _ _ _ hkeeps _ h => hkeeps h) hraft c.raft (hmem c hc) id hid
  unfold RaftNode.committedEntries at hcommitted
  split_ifs at hcommitted
  have hpre : before ++ between <+: (c.nodes id).raft.log := by
    have htake := List.take_prefix (c.nodes id).raft.commitIndex (c.nodes id).raft.log
    rw [Option.some.inj hcommitted, hsplit] at htake
    exact (List.prefix_append _ after).trans htake
  have hle := horderly.single stage _ hpre
  rw [sinceVoid_append before hvoid] at hle
  omega

/-- Three schedulers whose nodes stand at every tick. -/
def haTrio : HaCluster := HaCluster.fresh ["a", "b", "c"] 1

/-- The run of these events, with what holds in its last state. -/
theorem haRun_of_events [∀ cluster event, Decidable (allowed cluster event)] {p : HaCluster → Prop}
    [DecidablePred p] (events : List HaEvent)
    (h : ((replay (HaCluster.step ["a", "b", "c"]) (fun c event => allowed c event ∧
      c.NoStaleTail event) [haTrio] events).bind List.head?).any (p ·) = true) :
    ∃ run, HaRun ["a", "b", "c"] allowed run
      ∧ StateMachineSafe ["a", "b", "c"] (run.map HaCluster.raft) ∧ ∃ c ∈ run, p c := by
  obtain ⟨run, hboth, hlast⟩ :=
    replay_last HaRun.step (HaRun.start (HaCluster.fresh_starts _ Nat.one_pos)) h
  exact ⟨run, hboth.mono fun _ _ hall => hall.1,
    (hboth.mono fun _ _ hall => hall.2).stateMachineSafe, hlast⟩

/-- The first node leads with the second's vote. -/
def haElection : List HaEvent :=
  [.tick "a",
    .deliver ⟨"b", .requestVote 1 "a" 0 0⟩,
    .deliver ⟨"a", .requestVoteResp 1 "b" true⟩]

/-- The leader replicates these entries to the second node and commits them. -/
def haRound (prevLogIndex : LogIndex) (entries : SchedulerLog) : List HaEvent :=
  [.tick "a",
    .deliver ⟨"b", .appendEntries 1 "a" prevLogIndex (min prevLogIndex 1) entries prevLogIndex⟩,
    .deliver ⟨"a", .appendEntriesResp 1 "b" (prevLogIndex + entries.length) true⟩]

/-- A dispatch commits; asking again changes nothing. -/
theorem one_live_dispatch_trio :
    ∃ run, HaRun ["a", "b", "c"] HaCluster.NoPendingDispatch run
      ∧ StateMachineSafe ["a", "b", "c"] (run.map HaCluster.raft)
      ∧ ∃ c ∈ run, (c.nodes "a").raft.committedEntries = some [⟨1, .dispatch "s" "p" none⟩]
        ∧ ([⟨1, .dispatch "s" "p" none⟩].countP fun entry : LogEntry SchedulerCommand =>
          entry.command.isDispatch "s") ≤ 1 := by
  obtain ⟨run, hrun, hsafe, c, hmem, hcommitted⟩ :
      ∃ run, HaRun ["a", "b", "c"] HaCluster.NoPendingDispatch run
        ∧ StateMachineSafe ["a", "b", "c"] (run.map HaCluster.raft)
        ∧ ∃ c ∈ run, (c.nodes "a").raft.committedEntries = some [⟨1, .dispatch "s" "p" none⟩] :=
    haRun_of_events (haElection ++ .call "a" (.requestDispatch "s" "p" none) ::
      haRound 0 [⟨1, .dispatch "s" "p" none⟩] ++ [.call "a" (.requestDispatch "s" "q" none)])
      (by decide +kernel)
  have hsplit : [(⟨1, .dispatch "s" "p" none⟩ : LogEntry SchedulerCommand)] =
      [] ++ [⟨1, .dispatch "s" "p" none⟩] ++ [] := rfl
  exact ⟨run, hrun, hsafe, c, hmem, hcommitted,
    one_live_dispatch hrun hsafe hmem (by decide) hcommitted "s" hsplit (by decide)⟩

/-- The second request comes before the first is committed, so the applied state does not show it,
    and both commit. -/
theorem dispatched_twice :
    ∃ run, HaRun ["a", "b", "c"] (fun _ _ => True) run
      ∧ StateMachineSafe ["a", "b", "c"] (run.map HaCluster.raft)
      ∧ ∃ c ∈ run, (c.nodes "a").raft.committedEntries
        = some [⟨1, .dispatch "s" "p" none⟩, ⟨1, .dispatch "s" "q" none⟩] :=
  haRun_of_events (haElection ++ .call "a" (.requestDispatch "s" "p" none) ::
    .call "a" (.requestDispatch "s" "q" none) ::
    haRound 0 [⟨1, .dispatch "s" "p" none⟩, ⟨1, .dispatch "s" "q" none⟩]) (by decide +kernel)

/-! ## Replicas -/

/-- Of any two schedulers at any two moments, the one that has applied more is the other caught up
    with its committed entries, and two that have applied equally many are in the same state. -/
theorem replicas_agree {run : List HaCluster} (hrun : HaRun members HaCluster.NoStaleTail run) :
    ∀ c ∈ run, ∀ c' ∈ run, ∀ a ∈ members, ∀ b ∈ members,
      (c.nodes a).state.applied ≤ (c'.nodes b).state.applied →
        (∃ committed, (c'.nodes b).raft.committedEntries = some committed
          ∧ (c'.nodes b).state = (c.nodes a).state.applyPrefix committed)
        ∧ ((c.nodes a).state.applied = (c'.nodes b).state.applied →
          (c.nodes a).state = (c'.nodes b).state) := by
  intro c hc c' hc' a ha b hb hle
  have hsafe := hrun.stateMachineSafe
  obtain ⟨P, hP, hstate⟩ := ha_current hrun hsafe c hc a ha
  obtain ⟨Q, hQ, hstate'⟩ := ha_current hrun hsafe c' hc' b hb
  obtain ⟨P', Q', hP', hQ', hcomparable⟩ := hsafe.comparable _ (List.mem_map_of_mem hc) _
    (List.mem_map_of_mem hc') a ha b hb
  obtain rfl := Option.some.inj (hP.symm.trans hP')
  obtain rfl := Option.some.inj (hQ.symm.trans hQ')
  rw [hstate, hstate', SchedulerState.applied_ofLog, SchedulerState.applied_ofLog] at hle ⊢
  -- the log of the one that has applied less is the shorter one, so it is the prefix
  have hpre : P <+: Q := by
    rcases hcomparable with h | h
    · exact h
    · rw [h.eq_of_length (h.length_le.antisymm hle)]
  refine ⟨⟨Q, hQ, (SchedulerState.applyPrefix_ofLog hpre).symm⟩, fun heq => ?_⟩
  rw [hpre.eq_of_length heq]

/-- The leader has applied an entry the second node has not: the entry is what it is behind by. -/
theorem replicas_agree_trio :
    ∃ run, HaRun ["a", "b", "c"] HaCluster.NoStaleTail run ∧ ∃ c ∈ run,
      (c.nodes "b").state.applied = 0 ∧ (c.nodes "a").state.applied = 1
      ∧ ∃ committed, (c.nodes "a").raft.committedEntries = some committed
        ∧ (c.nodes "a").state = (c.nodes "b").state.applyPrefix committed := by
  obtain ⟨run, hrun, -, c, hmem, hb, ha⟩ :
      ∃ run, HaRun ["a", "b", "c"] HaCluster.NoStaleTail run
        ∧ StateMachineSafe ["a", "b", "c"] (run.map HaCluster.raft)
        ∧ ∃ c ∈ run, (c.nodes "b").state.applied = 0 ∧ (c.nodes "a").state.applied = 1 :=
    haRun_of_events (haElection ++ .call "a" (.requestDispatch "s" "p" none) ::
      haRound 0 [⟨1, .dispatch "s" "p" none⟩]) (by decide +kernel)
  exact ⟨run, hrun, c, hmem, hb, ha,
    (replicas_agree hrun c hmem c hmem "b" (by decide) "a" (by decide) (by omega)).1⟩

end Blut.Raft
