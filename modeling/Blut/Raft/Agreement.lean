/-
  What runs of a cluster guarantee.

  A run of the cluster is a run of the abstract protocol (`mirrors_step`), so over the whole run a
  term has one leader (`one_leader_per_term`) and logs match (`logs_match`). The protocol's
  state-machine safety needs followers to acknowledge only what they share with the leader.
  `on_append_entries` reports the length of the whole log, so this holds while no append is accepted
  over a stale tail (`committed_prefixes_agree`), and fails otherwise (`committed_prefixes_differ`).
-/
import Blut.Raft.Simulation

namespace Blut.Raft

open Blut.Lib Blut.Lib.Replication

variable {C : Type} {members : List MemberId} {honest : Prop}

/-! ## The cluster in the protocol -/

variable {result : RaftNode C × List (Outbound C)} {next : Cluster C}

structure Mirrors (members : List MemberId) (cluster : Cluster C) (s : Protocol C) : Prop where
  shown : ∀ id ∈ members, Shown members s id (cluster.nodes id)
  said : ∀ o ∈ cluster.network, Said members s o

variable {cluster : Cluster C} {s : Protocol C} {id : MemberId} {run : List (Cluster C)}

theorem Mirrors.start (h : cluster.Starts members) : Mirrors members cluster State.empty where
  shown := by
    intro id hid
    obtain ⟨timeout, hnew⟩ := h.fresh id hid
    unfold RaftNode.new at hnew
    split_ifs at hnew
    rw [← Option.some.inj hnew]
    exact ⟨rfl, rfl, rfl, rfl, rfl, rfl, rfl, fun h => absurd h (by simp),
      fun h => absurd h (by simp)⟩
  said := by
    rw [h.silent]
    exact fun _ ho => absurd ho List.not_mem_nil

theorem Mirrors.put (h : Mirrors members cluster s)
    (hfollows : Follows members honest s id result) :
    ∃ s', Acts LogEntry.term members honest id s s' ∧
      Mirrors members (cluster.put id result) s' := by
  obtain ⟨s', hacts, hshown, hsaid⟩ := hfollows
  refine ⟨s', hacts, Cluster.forall_put hshown fun w hw hwid =>
    (h.shown w hw).mono hacts.extends (hacts.same hwid), fun o ho => ?_⟩
  · rcases List.mem_append.mp ho with ho | ho
    · exact (h.said o ho).mono hacts.extends
    · exact hsaid o ho

/-- Handling a message that was sent. -/
theorem handle_follows (hs : Elected LogEntry.term members s) {o : Outbound C} {n : RaftNode C}
    (hid : o.dst ∈ members) (h : Shown members s o.dst n) (hsaid : Said members s o)
    (hn : cluster.nodes o.dst = n) (hclean : honest → cluster.NoStaleTail (.deliver o))
    (hresult : n.handle o.message = some result) :
    Follows members honest s o.dst result := by
  obtain ⟨s', hacts, hshown, hterm⟩ := observe_acts honest o.message.term h
  refine Follows.after hacts ?_
  have hsaid' := hsaid.mono hacts.extends
  unfold RaftNode.handle at hresult
  have hlog : (n.observe o.message.term).log = n.log := by
    unfold RaftNode.observe
    split_ifs <;> rfl
  have hlower : n.currentTerm ≤ (n.observe o.message.term).currentTerm := by
    unfold RaftNode.observe
    split_ifs with hlt
    · exact hlt.le
    · exact le_rfl
  obtain ⟨dst, message⟩ := o
  cases message with
  | requestVote term candidate lastLogIndex lastLogTerm =>
    obtain rfl := Option.some.inj hresult
    exact onRequestVote_follows hid hshown hterm hsaid'
  | requestVoteResp term src granted => exact onVoteResponse_follows hshown hsaid' hresult
  | appendEntries term leader prevLogIndex prevLogTerm entries leaderCommit =>
    obtain rfl := Option.some.inj hresult
    refine onAppendEntries_follows (hacts.elected hs) hid hshown hterm hsaid' fun hh hle hcons => ?_
    have hnode := hclean hh
    unfold Cluster.NoStaleTail at hnode
    simp only [hn] at hnode
    unfold RaftNode.StaleTail RaftNode.isConsistent at *
    rw [hlog] at hcons ⊢
    exact hnode (hlower.trans hle) hcons
  | appendEntriesResp term src matchIndex success =>
    obtain rfl := Option.some.inj hresult
    exact onAppendResponse_follows hid hshown hsaid'

/-- A step of the cluster is a sequence of moves of one member. -/
theorem mirrors_step (honest : Prop) [DecidableEq C] (h : Mirrors members cluster s)
    (hs : Elected LogEntry.term members s) {event : Event C}
    (hclean : honest → cluster.NoStaleTail event) (hstep : cluster.step members event = some next) :
    ∃ id s', Acts LogEntry.term members honest id s s' ∧ Mirrors members next s' := by
  obtain ⟨id, hid, result, rfl, hcases⟩ := Cluster.step_eq_some hstep
  refine ⟨id, h.put ?_⟩
  rcases hcases with ⟨rfl, hresult⟩ | ⟨o, hmem, rfl, rfl, hresult⟩ | ⟨command, rfl, rfl⟩
  · exact tick_follows hid (h.shown id hid) hresult
  · exact handle_follows hs hid (h.shown _ hid) (h.said o hmem) rfl hclean hresult
  · exact propose_follows hid (h.shown id hid) command

/-! ## One leader per term -/

section

variable (h : Mirrors members cluster s) (hs : Elected LogEntry.term members s) (hid : id ∈ members)
include h hs hid

theorem Mirrors.led (hlead : (cluster.nodes id).role = .leader) :
    (id, (cluster.nodes id).currentTerm, (cluster.nodes id).log) ∈ s.led := by
  have hshown := h.shown id hid
  have hled := hs.voting.leader_led id (hshown.role.trans hlead)
  rw [hshown.term, hshown.log] at hled
  exact hled

theorem Mirrors.rooted : Rooted LogEntry.term s.led (cluster.nodes id).log := by
  rw [← (h.shown id hid).log]
  exact (hs.leading.log_sound id).rooted

end

/-- The protocol's history holds every leader of these states. -/
def RecordsLeaders (members : List MemberId) (run : List (Cluster C)) (s : Protocol C) : Prop :=
  ∀ c ∈ run, ∀ id ∈ members, (c.nodes id).role = .leader →
    (id, (c.nodes id).currentTerm, (c.nodes id).log) ∈ s.led

theorem RecordsLeaders.cons {s' : Protocol C} (h : RecordsLeaders members run s)
    (hext : Extends s s') (hmirrors : Mirrors members next s')
    (hs : Elected LogEntry.term members s') : RecordsLeaders members (next :: run) s' := by
  intro c hc id hid hlead
  rcases List.mem_cons.mp hc with rfl | hc
  · exact hmirrors.led hs hid hlead
  · exact hext.led (h c hc id hid hlead)

theorem RecordsLeaders.nil (s : Protocol C) : RecordsLeaders members [] s :=
  fun _ hc => absurd hc List.not_mem_nil

variable [DecidableEq C]

/-- The protocol at the end of a run, with the leaders and the logs of all its moments. -/
theorem run_elected {allowed : Cluster C → Event C → Prop} (hrun : Run members allowed run) :
    ∃ cluster past s, run = cluster :: past ∧ Mirrors members cluster s
      ∧ Elected LogEntry.term members s ∧ RecordsLeaders members run s
      ∧ ∀ c ∈ run, ∀ id ∈ members, Rooted LogEntry.term s.led (c.nodes id).log := by
  induction hrun with
  | @start cluster h =>
    have hs : Elected LogEntry.term members (State.empty : Protocol C) := Safe.empty.toElected
    refine ⟨cluster, [], State.empty, rfl, Mirrors.start h, hs,
      (RecordsLeaders.nil State.empty).cons (Extends.refl _) (Mirrors.start h) hs,
        fun c hc id hid => ?_⟩
    rw [List.mem_singleton.mp hc]
    exact (Mirrors.start h).rooted hs hid
  | @step cluster next past event _ _ hstep ih =>
    obtain ⟨_, _, s, heq, hmirrors, hs, hled, hrooted⟩ := ih
    cases heq
    obtain ⟨id, s', hacts, hmirrors'⟩ := mirrors_step False hmirrors hs
      (fun h => h.elim) hstep
    have hs' := hacts.elected hs
    refine ⟨next, _, s', rfl, hmirrors', hs', hled.cons hacts.extends hmirrors' hs',
      fun c hc w hw => ?_⟩
    rcases List.mem_cons.mp hc with rfl | hc
    · exact hmirrors'.rooted hs' hw
    · exact (hrooted c hc w hw).mono fun _ h => hacts.extends.led h

/-- No two nodes are ever leader in the same term, at whatever moments of a run. -/
theorem one_leader_per_term {run : List (Cluster C)} (hrun : Run members (fun _ _ => True) run)
    {c c' : Cluster C} (hc : c ∈ run) (hc' : c' ∈ run) {a b : MemberId} (ha : a ∈ members)
    (hb : b ∈ members) (hlead : (c.nodes a).role = .leader) (hlead' : (c'.nodes b).role = .leader)
    (hterm : (c.nodes a).currentTerm = (c'.nodes b).currentTerm) : a = b := by
  obtain ⟨_, _, s, -, -, hs, hled, -⟩ := run_elected hrun
  have hla := hled c hc a ha hlead
  have hlb := hled c' hc' b hb hlead'
  rw [hterm] at hla
  exact hs.voting.led_unique hla hlb

/-- Three nodes that stand at every tick. -/
def trio : Cluster Nat := Cluster.fresh ["a", "b", "c"] 1

/-- The first node stands, gets the second's vote and leads. -/
def firstElection : List (Event Nat) :=
  [.tick "a",
    .deliver ⟨"b", .requestVote 1 "a" 0 0⟩,
    .deliver ⟨"a", .requestVoteResp 1 "b" true⟩]

/-- The run of these events, with what holds in its last state. -/
theorem last_of_events {allowed : Cluster Nat → Event Nat → Prop} {p : Cluster Nat → Prop}
    [∀ cluster event, Decidable (allowed cluster event)] [DecidablePred p]
    (events : List (Event Nat))
    (h : ((replay (Cluster.step ["a", "b", "c"]) allowed [trio] events).bind List.head?).any (p ·) =
      true) :
    ∃ run, Run ["a", "b", "c"] allowed run ∧ ∃ c ∈ run, p c :=
  replay_last Run.step (Run.start (Cluster.fresh_starts _ Nat.one_pos)) h

theorem one_leader_per_term_trio :
    ∃ run : List (Cluster Nat), Run ["a", "b", "c"] (fun _ _ => True) run
      ∧ ∃ c ∈ run, ∃ c' ∈ run, (c.nodes "a").role = .leader ∧ (c'.nodes "a").role = .leader
        ∧ (c.nodes "a").currentTerm = (c'.nodes "a").currentTerm ∧ "a" = "a" := by
  obtain ⟨run, hrun, c, hmem, hlead⟩ : ∃ run, Run ["a", "b", "c"] (fun _ _ => True) run
      ∧ ∃ c ∈ run, (c.nodes "a").role = .leader := last_of_events firstElection (by decide +kernel)
  exact ⟨run, hrun, c, hmem, c, hmem, hlead, hlead, rfl,
    one_leader_per_term hrun hmem hmem (by decide) (by decide) hlead hlead rfl⟩

/-! ## Log matching -/

/-- Two logs with entries of one term at one place agree up to it, whichever nodes hold them and at
    whatever moments of a run. -/
theorem logs_match {run : List (Cluster C)} (hrun : Run members (fun _ _ => True) run)
    {c c' : Cluster C} (hc : c ∈ run) (hc' : c' ∈ run) {a b : MemberId} (ha : a ∈ members)
    (hb : b ∈ members) {i : Nat} {e e' : LogEntry C} (he : (c.nodes a).log[i]? = some e)
    (he' : (c'.nodes b).log[i]? = some e') (hterm : e.term = e'.term) :
    (c.nodes a).log.take (i + 1) = (c'.nodes b).log.take (i + 1) := by
  obtain ⟨_, _, s, -, -, hs, -, hrooted⟩ := run_elected hrun
  exact hs.leading.agree hs.voting (hrooted c hc a ha) (hrooted c' hc' b hb) he he' hterm

/-- The leader's first entry reaches the second node, which reports it. -/
def firstAppend : List (Event Nat) :=
  firstElection ++ [.propose "a" 7, .tick "a",
    .deliver ⟨"b", .appendEntries 1 "a" 0 0 [⟨1, 7⟩] 0⟩,
    .deliver ⟨"a", .appendEntriesResp 1 "b" 1 true⟩]

theorem logs_match_trio :
    ∃ run : List (Cluster Nat), Run ["a", "b", "c"] (fun _ _ => True) run
      ∧ ∃ c ∈ run, (c.nodes "a").log[0]? = some ⟨1, 7⟩ ∧ (c.nodes "b").log[0]? = some ⟨1, 7⟩
        ∧ (c.nodes "a").log.take 1 = (c.nodes "b").log.take 1 := by
  obtain ⟨run, hrun, c, hmem, ha, hb⟩ : ∃ run, Run ["a", "b", "c"] (fun _ _ => True) run
      ∧ ∃ c ∈ run, (c.nodes "a").log[0]? = some ⟨1, 7⟩ ∧ (c.nodes "b").log[0]? = some ⟨1, 7⟩ :=
    last_of_events firstAppend (by decide +kernel)
  exact ⟨run, hrun, c, hmem, ha, hb, logs_match hrun hmem hmem (by decide) (by decide) ha hb rfl⟩

/-! ## Committed entries -/

omit [DecidableEq C] in
theorem committedEntries_eq (hs : Safe LogEntry.term members s) {n : RaftNode C}
    (h : Shown members s id n) : n.committedEntries = some (s.committed id)
      ∧ Agreed LogEntry.term members s n.currentTerm (s.committed id) := by
  have hle := hs.committing.commit_le id
  have hagreed := hs.committing.agreed id
  rw [h.term] at hagreed
  refine ⟨?_, hagreed⟩
  unfold State.committed RaftNode.committedEntries
  rw [h.commit, h.log] at hle ⊢
  rw [if_pos hle]

/-- What the nodes of a run have committed, read in the protocol at its end. -/
theorem run_safe (hrun : Run members Cluster.NoStaleTail run) :
    ∃ cluster past s, run = cluster :: past ∧ Mirrors members cluster s
      ∧ Safe LogEntry.term members s ∧ RecordsLeaders members run s
      ∧ (∀ c ∈ run, ∀ id ∈ members, ∃ P, (c.nodes id).committedEntries = some P
        ∧ Agreed LogEntry.term members s (c.nodes id).currentTerm P ∧ P <+: s.committed id) := by
  induction hrun with
  | @start cluster h =>
    have hs : Safe LogEntry.term members (State.empty : Protocol C) := Safe.empty
    refine ⟨cluster, [], State.empty, rfl, Mirrors.start h, hs,
      (RecordsLeaders.nil State.empty).cons (Extends.refl _) (Mirrors.start h) hs.toElected, ?_⟩
    intro c hc id hid
    rw [List.mem_singleton.mp hc]
    obtain ⟨hP, hagreed⟩ := committedEntries_eq hs ((Mirrors.start h).shown id hid)
    exact ⟨_, hP, hagreed, List.prefix_refl _⟩
  | @step cluster next past event _ hclean hstep ih =>
    obtain ⟨_, _, s, heq, hmirrors, hs, hled, hpast⟩ := ih
    cases heq
    obtain ⟨id, s', hacts, hmirrors'⟩ := mirrors_step True hmirrors hs.toElected
      (fun _ => hclean) hstep
    obtain ⟨hs', hmono, hagreed⟩ := hacts.safe hs
    refine ⟨next, _, s', rfl, hmirrors', hs', hled.cons hacts.extends hmirrors' hs'.toElected, ?_⟩
    intro c hc w hw
    rcases List.mem_cons.mp hc with rfl | hc
    · obtain ⟨hP, hnow⟩ := committedEntries_eq hs' (hmirrors'.shown w hw)
      exact ⟨_, hP, hnow, List.prefix_refl _⟩
    · obtain ⟨P, hP, hold, hpre⟩ := hpast c hc w hw
      exact ⟨P, hP, hagreed _ P hold, hpre.trans (hmono w)⟩

/-- A later moment of a run has committed at least what an earlier one had. -/
theorem committed_grows (hrun : Run members Cluster.NoStaleTail run) :
    run.Pairwise fun later earlier => ∀ id ∈ members, ∀ P,
      (earlier.nodes id).committedEntries = some P →
        ∃ Q, (later.nodes id).committedEntries = some Q ∧ P <+: Q := by
  have hwhole := hrun
  induction hrun with
  | start h => exact List.pairwise_singleton _ _
  | @step cluster next past event hprior hclean hstep ih =>
    refine List.Pairwise.cons (fun c hc id hid P hP => ?_) (ih hprior)
    obtain ⟨_, _, s, heq, hmirrors, hs, -, hpast⟩ := run_safe hwhole
    cases heq
    obtain ⟨P', hP', -, hpre⟩ := hpast c (List.mem_cons_of_mem _ hc) id hid
    rw [hP] at hP'
    obtain rfl := Option.some.inj hP'
    exact ⟨_, (committedEntries_eq hs (hmirrors.shown id hid)).1, hpre⟩

/-- While no append is accepted over a stale tail, committed prefixes of any two nodes at any two
    moments are comparable, none is ever taken back, and a leader of a later term than the node's
    has them in its log. -/
theorem committed_prefixes_agree {run : List (Cluster C)}
    (hrun : Run members Cluster.NoStaleTail run) :
    (∀ c ∈ run, ∀ c' ∈ run, ∀ a ∈ members, ∀ b ∈ members,
        ∃ P Q, (c.nodes a).committedEntries = some P ∧ (c'.nodes b).committedEntries = some Q
          ∧ (P <+: Q ∨ Q <+: P))
      ∧ (run.Pairwise fun later earlier => ∀ id ∈ members, ∀ P,
        (earlier.nodes id).committedEntries = some P →
          ∃ Q, (later.nodes id).committedEntries = some Q ∧ P <+: Q)
      ∧ ∀ c ∈ run, ∀ c' ∈ run, ∀ a ∈ members, ∀ b ∈ members, ∀ P,
        (c.nodes a).committedEntries = some P → (c'.nodes b).role = .leader →
          (c.nodes a).currentTerm < (c'.nodes b).currentTerm → P <+: (c'.nodes b).log := by
  obtain ⟨_, _, s, -, -, hs, hled, hpast⟩ := run_safe hrun
  refine ⟨fun c hc c' hc' a ha b hb => ?_, committed_grows hrun,
    fun c hc c' hc' a ha b hb P hP hlead hterm => ?_⟩
  · obtain ⟨P, hP, hagreed, -⟩ := hpast c hc a ha
    obtain ⟨Q, hQ, hagreed', -⟩ := hpast c' hc' b hb
    exact ⟨P, Q, hP, hQ, hagreed.comparable hs.safety hs.leading hs.voting hagreed'⟩
  · obtain ⟨P', hP', hagreed, -⟩ := hpast c hc a ha
    rw [hP] at hP'
    obtain rfl := Option.some.inj hP'
    exact hagreed.leader hs.safety (hled c' hc' b hb hlead) hterm

/-- The leader's first entry reaches the second node and commits on both. -/
theorem committed_prefixes_agree_trio :
    ∃ run : List (Cluster Nat), Run ["a", "b", "c"] Cluster.NoStaleTail run
      ∧ ∃ c ∈ run, (c.nodes "a").committedEntries = some [⟨1, 7⟩]
        ∧ (c.nodes "b").committedEntries = some [⟨1, 7⟩]
        ∧ ∃ P Q, (c.nodes "a").committedEntries = some P ∧ (c.nodes "b").committedEntries = some Q
          ∧ (P <+: Q ∨ Q <+: P) := by
  obtain ⟨run, hrun, c, hmem, ha, hb⟩ : ∃ run, Run ["a", "b", "c"] Cluster.NoStaleTail run
      ∧ ∃ c ∈ run, (c.nodes "a").committedEntries = some [⟨1, 7⟩]
        ∧ (c.nodes "b").committedEntries = some [⟨1, 7⟩] :=
    last_of_events (firstAppend ++ [.tick "a", .deliver ⟨"b", .appendEntries 1 "a" 1 1 [] 1⟩])
      (by decide +kernel)
  exact ⟨run, hrun, c, hmem, ha, hb,
    (committed_prefixes_agree hrun).1 c hmem c hmem "a" (by decide) "b" (by decide)⟩

/-- An append over a stale tail. The first node holds an entry of term 1 that no one else has. The
    second leads term 2, and the first acknowledges its empty append with the length of its own
    log. The second then counts the first for an entry it never sent. In term 3 the first leads
    again and commits its own entries with the third. -/
def staleTailEvents : List (Event Nat) :=
  firstElection ++
  [.propose "a" 1,
    .tick "b",
    .deliver ⟨"c", .requestVote 2 "b" 0 0⟩,
    .deliver ⟨"b", .requestVoteResp 2 "c" true⟩,
    .deliver ⟨"a", .appendEntries 2 "b" 0 0 [] 0⟩,
    .deliver ⟨"b", .appendEntriesResp 2 "a" 1 true⟩,
    .propose "b" 2,
    .tick "a",
    .deliver ⟨"c", .requestVote 3 "a" 1 1⟩,
    .deliver ⟨"a", .requestVoteResp 3 "c" true⟩,
    .propose "a" 3,
    .deliver ⟨"c", .appendEntries 3 "a" 1 1 [] 0⟩,
    .deliver ⟨"a", .appendEntriesResp 3 "c" 0 false⟩,
    .tick "a",
    .deliver ⟨"c", .appendEntries 3 "a" 0 0 [⟨1, 1⟩, ⟨3, 3⟩] 0⟩,
    .deliver ⟨"a", .appendEntriesResp 3 "c" 2 true⟩]

theorem committed_prefixes_differ :
    ∃ run : List (Cluster Nat), Run ["a", "b", "c"] (fun _ _ => True) run
      ∧ ∃ c ∈ run, ∃ P Q, (c.nodes "a").committedEntries = some P
        ∧ (c.nodes "b").committedEntries = some Q ∧ ¬ (P <+: Q ∨ Q <+: P) := by
  obtain ⟨run, hrun, c, hmem, ha, hb⟩ : ∃ run, Run ["a", "b", "c"] (fun _ _ => True) run
      ∧ ∃ c ∈ run, (c.nodes "a").committedEntries = some [⟨1, 1⟩, ⟨3, 3⟩]
        ∧ (c.nodes "b").committedEntries = some [⟨2, 2⟩] :=
    last_of_events staleTailEvents (by decide +kernel)
  exact ⟨run, hrun, c, hmem, _, _, ha, hb, by decide⟩

end Blut.Raft
