/-
  The cluster follows the abstract protocol of `Blut.Lib.Replication`.

  `Shown` reads a node's fields in the protocol's state, `Said` reads a message as something the
  protocol's history holds. Each handler of a node is a sequence of moves of its member
  (`Follows`). The logs a follower ends with are those of the protocol: `putEntries_eq` turns the
  entry by entry merge into adopting the leader's log, by log matching.
-/
import Blut.Lib.Replication.Runs
import Blut.Raft.Cluster

namespace Blut.Raft

open Blut.Lib Blut.Lib.Replication

variable {C : Type} {members : List MemberId} {honest : Prop}

/-! ## The merge of an append -/

/-- Merging the leader's log into one that matches it at `prev`: where the follower's log does not
    extend the leader's, it becomes the leader's. -/
theorem putEntries_fold (L : List (LogEntry C)) (prev : Nat) (entries : List (LogEntry C)) :
    ∀ (j : Nat) (log : List (LogEntry C)),
      (∀ k e e', log[k]? = some e → L[k]? = some e' → e.term = e'.term →
        log.take (k + 1) = L.take (k + 1)) →
      prev + j ≤ L.length → log.take (prev + j) = L.take (prev + j) →
      entries = L.drop (prev + j) →
      (L <+: log ∧
          (entries.zipIdx j).foldl (fun log x => RaftNode.putEntry log (prev + x.2) x.1) log = log)
        ∨ (¬ L <+: log ∧
          (entries.zipIdx j).foldl (fun log x => RaftNode.putEntry log (prev + x.2) x.1) log =
            L) := by
  induction entries with
  | nil =>
    intro j log _ hj hsame hdrop
    have hlen := List.drop_eq_nil_iff.mp hdrop.symm
    rw [List.take_of_length_le hlen] at hsame
    exact Or.inl ⟨hsame ▸ List.take_prefix _ _, by rw [List.zipIdx_nil, List.foldl_nil]⟩
  | cons entry entries ih =>
    intro j log hagree hj hsame hdrop
    have hlt : prev + j < L.length := by
      by_contra hge
      rw [List.drop_eq_nil_iff.mpr (by omega)] at hdrop
      exact absurd hdrop (by simp)
    rw [List.drop_eq_getElem_cons hlt] at hdrop
    obtain ⟨rfl, rfl⟩ := List.cons_eq_cons.mp hdrop
    have hL : L[prev + j]? = some L[prev + j] := List.getElem?_eq_getElem hlt
    -- once the log is a part of the leader's, it becomes the whole
    have hrest : ((L.drop (prev + j + 1)).zipIdx (j + 1)).foldl
        (fun log x => RaftNode.putEntry log (prev + x.2) x.1) (L.take (prev + (j + 1))) = L := by
      have htake : ∀ k e, (L.take (prev + (j + 1)))[k]? = some e →
          (L.take (prev + (j + 1))).take (k + 1) = L.take (k + 1) := by
        intro k e he
        have hk := (List.getElem?_eq_some_iff.mp he).1
        rw [List.length_take] at hk
        rw [List.take_take, min_eq_left (by omega)]
      rcases ih (j + 1) _ (fun k e _ he _ _ => htake k e he) (by omega)
        (by rw [List.take_take, min_self]) rfl with ⟨hpre, heq⟩ | ⟨-, heq⟩
      · exact heq.trans (hpre.eq_of_length_le (List.length_take_le' _ _)).symm
      · exact heq
    rw [List.zipIdx_cons, List.foldl_cons]
    rcases hheld : log[prev + j]? with - | held
    · -- the log ends here: the rest of the leader's log is appended
      have hend := List.getElem?_eq_none_iff.mp hheld
      rw [List.take_of_length_le hend] at hsame
      have hput : RaftNode.putEntry log (prev + j) L[prev + j] = L.take (prev + (j + 1)) := by
        unfold RaftNode.putEntry
        rw [hheld, hsame]
        exact List.take_concat_get' L _ hlt
      refine Or.inr ⟨fun hpre => ?_, hput ▸ hrest⟩
      have hle := hpre.length_le
      omega
    · by_cases hterm : held.term = L[prev + j].term
      · have hput : RaftNode.putEntry log (prev + j) L[prev + j] = log := by
          unfold RaftNode.putEntry
          rw [hheld]
          exact if_neg (not_not.mpr hterm)
        rw [hput]
        exact ih (j + 1) log hagree (by omega) (hagree _ held _ hheld hL hterm) rfl
      · -- a conflict: everything from here on is the leader's
        have hput : RaftNode.putEntry log (prev + j) L[prev + j] = L.take (prev + (j + 1)) := by
          unfold RaftNode.putEntry
          rw [hheld]
          show (if held.term ≠ _ then _ else _) = _
          rw [if_pos hterm, hsame]
          exact List.take_concat_get' L _ hlt
        refine Or.inr ⟨fun hpre => hterm ?_, hput ▸ hrest⟩
        obtain ⟨rest, rfl⟩ := hpre
        rw [List.getElem?_append_left hlt, hL] at hheld
        rw [Option.some.inj hheld]

variable {log L : List (LogEntry C)} {id : MemberId} {n : RaftNode C}
  {result : RaftNode C × List (Outbound C)} {t term : Term}

theorem putEntries_eq {prev : Nat}
    (hagree : ∀ k e e', log[k]? = some e → L[k]? = some e' → e.term = e'.term →
      log.take (k + 1) = L.take (k + 1))
    (hprev : prev ≤ L.length) (hsame : log.take prev = L.take prev) :
    (L <+: log ∧ RaftNode.putEntries log prev (L.drop prev) = log)
      ∨ (¬ L <+: log ∧ RaftNode.putEntries log prev (L.drop prev) = L) :=
  putEntries_fold L prev (L.drop prev) 0 log hagree hprev hsame rfl

/-! ## Reading the cluster in the protocol -/

abbrev Protocol (C : Type) := State MemberId (LogEntry C)

/-- The node's fields, as the protocol has them. -/
structure Shown (members : List MemberId) (s : Protocol C) (id : MemberId) (n : RaftNode C) :
    Prop where
  own : n.id = id
  group : n.members = members
  term : s.term id = n.currentTerm
  ballot : s.ballot id = n.votedFor
  role : s.role id = n.role
  log : s.log id = n.log
  commit : s.commit id = n.commitIndex
  votes : n.role = .candidate → n.votesGranted.Nodup ∧ n.votesGranted ⊆ members
    ∧ ∀ q ∈ n.votesGranted, (q, n.currentTerm, id) ∈ s.cast
  reports : n.role = .leader → ∀ q m, n.matchIndex.get? q = some m →
    q ∈ members ∧ q ≠ id ∧ (m = 0 ∨ (q, n.currentTerm, m) ∈ s.acks)

/-- What a message tells is in the protocol's history. -/
def Said (members : List MemberId) (s : Protocol C) (o : Outbound C) : Prop :=
  match o.message with
  | .requestVote term candidate lastLogIndex lastLogTerm =>
    ∃ I, (candidate, term, I) ∈ s.stood ∧ lastLogIndex = I.length
      ∧ lastLogTerm = lastTerm LogEntry.term I
  | .requestVoteResp term src granted =>
    granted = true → src ∈ members ∧ (src, term, o.dst) ∈ s.cast
  | .appendEntries term leader prevLogIndex prevLogTerm entries leaderCommit =>
    leader ≠ o.dst ∧ ∃ L, (leader, term, L, leaderCommit) ∈ s.offers
      ∧ (prevLogIndex = 0 ∨ (L[prevLogIndex - 1]?).map LogEntry.term = some prevLogTerm)
      ∧ entries = L.drop prevLogIndex
  | .appendEntriesResp term src matchIndex success =>
    success = true → src ∈ members ∧ src ≠ o.dst ∧ (src, term, matchIndex) ∈ s.acks

variable {s s' : Protocol C}

theorem Said.mono (hext : Extends s s') {o : Outbound C} (h : Said members s o) :
    Said members s' o := by
  obtain ⟨dst, message⟩ := o
  cases message with
  | requestVote term candidate lastLogIndex lastLogTerm =>
    obtain ⟨I, hI, hlen, hlast⟩ := h
    exact ⟨I, hext.stood hI, hlen, hlast⟩
  | requestVoteResp term src granted =>
    exact fun hg => ⟨(h hg).1, hext.cast (h hg).2⟩
  | appendEntries term leader prevLogIndex prevLogTerm entries leaderCommit =>
    obtain ⟨hne, L, hL, hprev, hentries⟩ := h
    exact ⟨hne, L, hext.offers hL, hprev, hentries⟩
  | appendEntriesResp term src matchIndex success =>
    exact fun hs => ⟨(h hs).1, (h hs).2.1, hext.acks (h hs).2.2⟩

/-- A member that made no move is shown as before. -/
theorem Shown.mono (hext : Extends s s') (hsame : Same s s' id) (h : Shown members s id n) :
    Shown members s' id n where
  own := h.own
  group := h.group
  term := hsame.term.trans h.term
  ballot := hsame.ballot.trans h.ballot
  role := hsame.role.trans h.role
  log := hsame.log.trans h.log
  commit := hsame.commit.trans h.commit
  votes := by
    intro hrole
    obtain ⟨hnd, hsub, hcast⟩ := h.votes hrole
    exact ⟨hnd, hsub, fun q hq => hext.cast (hcast q hq)⟩
  reports := by
    intro hrole q m hm
    obtain ⟨hq, hne, hack⟩ := h.reports hrole q m hm
    exact ⟨hq, hne, hack.imp_right fun h => hext.acks h⟩

/-- The result of a handler, reached by moves of its member. -/
def Follows (members : List MemberId) (honest : Prop) (s : Protocol C) (id : MemberId)
    (result : RaftNode C × List (Outbound C)) : Prop :=
  ∃ s', Acts LogEntry.term members honest id s s' ∧ Shown members s' id result.1
    ∧ ∀ o ∈ result.2, Said members s' o

theorem Follows.after (h : Acts LogEntry.term members honest id s s')
    (h' : Follows members honest s' id result) : Follows members honest s id result := by
  obtain ⟨s'', hacts, hshown, hsaid⟩ := h'
  exact ⟨s'', h.trans hacts, hshown, hsaid⟩

section

variable (h : Shown members s id n)
include h

/-- The node with its clock, hint or follower positions changed is shown alike. -/
theorem Follows.idle : Follows members honest s id (n, []) :=
  ⟨s, Acts.none s, h, fun _ ho => absurd ho List.not_mem_nil⟩

/-! ## Terms and elections -/

theorem shown_stepDown : Shown members (s.stepDown id t) id (n.stepDown t) where
  own := h.own
  group := h.group
  term := Function.update_self ..
  ballot := Function.update_self ..
  role := Function.update_self ..
  log := h.log
  commit := h.commit
  votes := fun hrole => absurd hrole (by simp [RaftNode.stepDown])
  reports := fun hrole => absurd hrole (by simp [RaftNode.stepDown])

omit h in
/-- After `observe` the node is at least in the term of the message. -/
theorem observe_acts (honest : Prop) (t : Term) (h : Shown members s id n) :
    ∃ s', Acts LogEntry.term members honest id s s' ∧ Shown members s' id (n.observe t)
      ∧ t ≤ (n.observe t).currentTerm := by
  unfold RaftNode.observe
  by_cases ht : n.currentTerm < t
  · rw [if_pos ht]
    have hstep : Step LogEntry.term members id s (s.stepDown id t) :=
      Step.stepDown t (by rw [h.term]; exact ht)
    exact ⟨_, (Acts.none s).move hstep rfl, shown_stepDown h, le_rfl⟩
  · rw [if_neg ht]
    exact ⟨s, Acts.none s, h, not_lt.mp ht⟩

theorem appendTo_said {peer : MemberId} (hpeer : peer ∈ n.peers)
    {o : Outbound C} (ho : n.appendTo peer = some o) : Said members (s.offer id) o := by
  unfold RaftNode.appendTo at ho
  obtain ⟨prevLogTerm, hprev, ho⟩ := Option.bind_eq_some_iff.mp ho
  obtain rfl := Option.some.inj ho
  unfold RaftNode.peers at hpeer
  have hne : peer ≠ n.id := by simpa using (List.mem_filter.mp hpeer).2
  refine ⟨fun heq => hne heq.symm, n.log, ?_, ?_, rfl⟩
  · rw [h.own, ← h.term, ← h.log, ← h.commit]
    exact Set.mem_insert _ _
  · unfold RaftNode.prevLogTerm at hprev
    split_ifs at hprev with hzero
    · exact Or.inl hzero
    · exact Or.inr hprev

theorem broadcastAppend_follows (hrole : n.role = .leader)
    {out : List (Outbound C)} (hout : n.broadcastAppend = some out) :
    Follows members honest s id (n, out) := by
  have hstep : Step LogEntry.term members id s (s.offer id) := Step.offer (by rw [h.role, hrole])
  have hacts : Acts LogEntry.term members honest id s (s.offer id) := (Acts.none s).move hstep rfl
  refine ⟨_, hacts, h.mono hacts.extends ⟨rfl, rfl, rfl, rfl, rfl⟩, fun o ho => ?_⟩
  obtain ⟨peer, hpeer, ho'⟩ := exists_left_of_forall₂ (forall₂_of_mapM hout) ho
  exact appendTo_said h hpeer ho'

theorem shown_becomeLeader : Shown members (s.lead id) id n.becomeLeader where
  own := h.own
  group := h.group
  term := h.term
  ballot := h.ballot
  role := Function.update_self ..
  log := h.log
  commit := h.commit
  votes := fun hrole => absurd hrole (by simp [RaftNode.becomeLeader])
  reports := by
    intro _ q m hm
    obtain ⟨peer, hpeer, heq⟩ := List.mem_map.mp (BTreeMap.mem_of_get?_ofList hm)
    cases heq
    obtain ⟨hmem, hne⟩ := List.mem_filter.mp hpeer
    rw [h.group] at hmem
    exact ⟨hmem, by simpa [h.own] using hne, Or.inl rfl⟩

theorem takeOffice_follows (hrole : n.role = .candidate)
    (hquorum : n.quorum ≤ n.votesGranted.length) (hresult : n.takeOffice = some result) :
    Follows members honest s id result := by
  obtain ⟨hnd, hsub, hcast⟩ := h.votes hrole
  unfold RaftNode.quorum at hquorum
  rw [h.group] at hquorum
  have hstep : Step LogEntry.term members id s (s.lead id) :=
    Step.lead n.votesGranted (by rw [h.role, hrole]) ⟨hnd, hsub, hquorum⟩
      (fun q hq => by rw [h.term]; exact hcast q hq)
  obtain ⟨out, hout, hresult⟩ := Option.bind_eq_some_iff.mp hresult
  obtain rfl := Option.some.inj hresult
  exact Follows.after ((Acts.none s).move hstep rfl)
    (broadcastAppend_follows (shown_becomeLeader h) rfl hout)

end

section

variable (hid : id ∈ members) (h : Shown members s id n)
include hid h

theorem shown_stand :
    Shown members (s.stand id) id n.stand where
  own := h.own
  group := h.group
  term := by
    show Function.update s.term id _ id = n.currentTerm + 1
    rw [Function.update_self, h.term]
  ballot := by
    show Function.update s.ballot id _ id = some n.id
    rw [Function.update_self, h.own]
  role := Function.update_self ..
  log := h.log
  commit := h.commit
  votes := by
    intro _
    show [n.id].Nodup ∧ [n.id] ⊆ members ∧ ∀ q ∈ [n.id], (q, n.currentTerm + 1, id) ∈ _
    rw [h.own]
    refine ⟨List.nodup_singleton _, by simpa using hid, fun q hq => ?_⟩
    rw [List.mem_singleton.mp hq, ← h.term]
    exact Set.mem_insert _ _
  reports := fun hrole => absurd hrole (by simp [RaftNode.stand])

theorem beginElection_follows (hrole : n.role ≠ .leader) (hresult : n.beginElection = some result) :
    Follows members honest s id result := by
  have hstep : Step LogEntry.term members id s (s.stand id) :=
    Step.stand (by rw [h.role]; exact hrole)
  have hacts : Acts LogEntry.term members honest id s (s.stand id) := (Acts.none s).move hstep rfl
  have hshown := shown_stand hid h
  refine Follows.after hacts ?_
  unfold RaftNode.beginElection at hresult
  split_ifs at hresult with hquorum
  · exact takeOffice_follows hshown rfl hquorum hresult
  · obtain rfl := Option.some.inj hresult
    refine ⟨_, Acts.none _, hshown, fun o ho => ?_⟩
    obtain ⟨dst, -, rfl⟩ := List.mem_map.mp ho
    refine ⟨n.log, ?_, rfl, rfl⟩
    show (n.id, n.currentTerm + 1, n.log) ∈ _
    rw [h.own, ← h.term, ← h.log]
    exact Set.mem_insert _ _

theorem tick_follows (hresult : n.tick = some result) : Follows members honest s id result := by
  unfold RaftNode.tick at hresult
  dsimp only at hresult
  split_ifs at hresult with hrole htimeout
  · obtain ⟨out, hout, hresult⟩ := Option.bind_eq_some_iff.mp hresult
    obtain rfl := Option.some.inj hresult
    exact broadcastAppend_follows h hrole hout
  · have hshown : Shown members s id { n with ticksSinceHeard := n.ticksSinceHeard + 1 } :=
      { h with }
    exact beginElection_follows hid hshown hrole hresult
  · obtain rfl := Option.some.inj hresult
    exact Follows.idle { h with }

theorem onRequestVote_follows {candidate : MemberId} {lastLogIndex : LogIndex} {lastLogTerm : Term}
    (hterm : term ≤ n.currentTerm)
    (hsaid : Said members s ⟨id, .requestVote term candidate lastLogIndex lastLogTerm⟩) :
    Follows members honest s id (n.onRequestVote term candidate lastLogIndex lastLogTerm) := by
  obtain ⟨I, hI, rfl, rfl⟩ := hsaid
  unfold RaftNode.onRequestVote
  by_cases hgrant : n.currentTerm ≤ term ∧ (n.votedFor = none ∨ n.votedFor = some candidate)
      ∧ toLex (n.lastLogTerm, n.lastLogIndex) ≤ toLex (lastTerm LogEntry.term I, I.length)
  · obtain ⟨hge, hfree, hrecent⟩ := hgrant
    obtain rfl : term = n.currentTerm := le_antisymm hterm hge
    rw [if_pos ⟨le_rfl, hfree, hrecent⟩]
    have hstep : Step LogEntry.term members id s (s.grant id candidate) := by
      refine Step.grant candidate I (by rw [h.term]; exact hI) (by rw [h.ballot]; exact hfree) ?_
      rw [Prod.Lex.toLex_le_toLex] at hrecent
      unfold UpToDate
      rw [h.log]
      exact hrecent
    have hacts : Acts LogEntry.term members honest id s (s.grant id candidate) :=
      (Acts.none s).move hstep rfl
    refine ⟨_, hacts, ?_, fun o ho => ?_⟩
    · exact { h with
        ballot := Function.update_self ..
        votes := fun hrole => by
          obtain ⟨hnd, hsub, hcast⟩ := h.votes hrole
          exact ⟨hnd, hsub, fun q hq => hacts.extends.cast (hcast q hq)⟩ }
    · obtain rfl := List.mem_singleton.mp ho
      intro _
      rw [h.own, ← h.term]
      exact ⟨hid, Set.mem_insert _ _⟩
  · rw [if_neg hgrant]
    refine ⟨s, Acts.none s, h, fun o ho => ?_⟩
    obtain rfl := List.mem_singleton.mp ho
    exact fun hg => absurd hg (by decide)

end

theorem onVoteResponse_follows (h : Shown members s id n) {src : MemberId} {granted : Bool}
    (hsaid : Said members s ⟨id, .requestVoteResp term src granted⟩)
    (hresult : n.onVoteResponse term src granted = some result) :
    Follows members honest s id result := by
  unfold RaftNode.onVoteResponse at hresult
  by_cases hignore : n.role ≠ .candidate ∨ term ≠ n.currentTerm ∨ granted = false
  · rw [if_pos hignore] at hresult
    obtain rfl := Option.some.inj hresult
    exact Follows.idle h
  · rw [if_neg hignore] at hresult
    push Not at hignore
    obtain ⟨hrole, rfl, hgranted⟩ := hignore
    obtain ⟨hsrc, hvote⟩ := hsaid (by simpa using hgranted)
    obtain ⟨hnd, hsub, hcast⟩ := h.votes hrole
    set votes := if n.votesGranted.contains src then n.votesGranted else n.votesGranted ++ [src]
      with hvotes
    have hshown : Shown members s id { n with votesGranted := votes } := by
      refine { h with votes := fun _ => ?_ }
      show votes.Nodup ∧ votes ⊆ members ∧ ∀ q ∈ votes, (q, n.currentTerm, id) ∈ s.cast
      rw [hvotes]
      split_ifs with hmem
      · exact ⟨hnd, hsub, hcast⟩
      · have hnew : src ∉ n.votesGranted := by simpa using hmem
        refine ⟨?_, ?_, ?_⟩
        · simpa using hnd.concat hnew
        · exact List.append_subset.mpr ⟨hsub, by simpa using hsrc⟩
        · exact List.forall_mem_append.mpr ⟨hcast, List.forall_mem_singleton.mpr hvote⟩
    dsimp only at hresult
    split_ifs at hresult with hquorum
    · exact takeOffice_follows hshown hrole hquorum hresult
    · obtain rfl := Option.some.inj hresult
      exact Follows.idle hshown

/-! ## Commitment -/

/-- The index that the loop of `advance_commit` ends with was counted, or is the old one. -/
theorem foldl_countIndex (n : RaftNode C) (indices : List LogIndex) (candidate : LogIndex) :
    indices.foldl n.countIndex candidate = candidate
      ∨ (indices.foldl n.countIndex candidate ∈ indices
        ∧ (n.log[indices.foldl n.countIndex candidate - 1]?).map LogEntry.term = some n.currentTerm
        ∧ n.quorum ≤ n.replicas (indices.foldl n.countIndex candidate)) := by
  induction indices generalizing candidate with
  | nil => exact Or.inl rfl
  | cons index indices ih =>
    rw [List.foldl_cons]
    rcases ih (n.countIndex candidate index) with heq | ⟨hmem, hcounted⟩
    · rw [heq]
      unfold RaftNode.countIndex
      split_ifs with hterm hquorum
      · exact Or.inl rfl
      · exact Or.inr ⟨List.mem_cons_self, by simpa using hterm, hquorum⟩
      · exact Or.inl rfl
    · exact Or.inr ⟨List.mem_cons_of_mem _ hmem, hcounted⟩

/-- The leader and the peers that reported an index, as a majority behind it. -/
theorem majority_of_replicas (hid : id ∈ members) (h : Shown members s id n)
    (hrole : n.role = .leader) {index : LogIndex} (hpos : 0 < index)
    (hquorum : n.quorum ≤ n.replicas index) : ∃ Q, Majority members Q
      ∧ ∀ q ∈ Q, q = id ∨ ∃ m, index ≤ m ∧ (q, s.term id, m) ∈ s.acks := by
  set holders := n.matchIndex.entries.filter fun entry => index ≤ entry.2 with hholders
  have hreport : ∀ q ∈ holders.map Prod.fst,
      q ∈ members ∧ q ≠ id ∧ ∃ m, index ≤ m ∧ (q, s.term id, m) ∈ s.acks := by
    intro q hq
    obtain ⟨⟨q, m⟩, hmem, rfl⟩ := List.mem_map.mp hq
    obtain ⟨hentry, hle⟩ := List.mem_filter.mp hmem
    have hle : index ≤ m := by simpa using hle
    obtain ⟨hq, hne, hack⟩ := h.reports hrole q m ((BTreeMap.get?_eq_some_iff _).mpr hentry)
    rcases hack with rfl | hack
    · exact absurd (hpos.trans_le hle) (lt_irrefl _)
    · rw [h.term]
      exact ⟨hq, hne, m, hle, hack⟩
  refine ⟨id :: holders.map Prod.fst, ⟨?_, ?_, ?_⟩, ?_⟩
  · refine List.nodup_cons.mpr ⟨fun hmem => (hreport id hmem).2.1 rfl, ?_⟩
    exact n.matchIndex.nodup_keys.sublist (List.filter_sublist.map Prod.fst)
  · exact List.cons_subset.mpr ⟨hid, fun q hq => (hreport q hq).1⟩
  · unfold RaftNode.quorum RaftNode.replicas BTreeMap.values at hquorum
    rw [h.group, List.filter_map, List.length_map] at hquorum
    rw [List.length_cons, List.length_map]
    exact hquorum.trans (Nat.add_comm _ _).le
  · intro q hq
    rcases List.mem_cons.mp hq with rfl | hq
    · exact Or.inl rfl
    · exact Or.inr (hreport q hq).2.2

theorem lastTerm_take {index : Nat} (hpos : 0 < index)
    (h : (log[index - 1]?).map LogEntry.term = some t) :
    lastTerm LogEntry.term (log.take index) = t := by
  obtain ⟨entry, hentry, rfl⟩ := Option.map_eq_some_iff.mp h
  refine lastTerm_of_getLast? ?_
  rw [List.getLast?_take, if_neg (by omega), hentry]
  rfl

theorem mem_indices {commit last index : Nat}
    (h : index ∈ List.range' (commit + 1) (last - commit)) : commit < index ∧ index ≤ last := by
  rw [List.mem_range'_1] at h
  omega

theorem advanceCommit_acts (honest : Prop) (hid : id ∈ members) (h : Shown members s id n)
    (hrole : n.role = .leader) :
    ∃ s', Acts LogEntry.term members honest id s s' ∧ Shown members s' id n.advanceCommit := by
  unfold RaftNode.advanceCommit
  set indices := List.range' (n.commitIndex + 1) (n.lastLogIndex - n.commitIndex) with hindices
  dsimp only
  rcases foldl_countIndex n indices n.commitIndex with heq | ⟨hmem, hterm, hquorum⟩
  · rw [heq]
    exact ⟨s, Acts.none s, h⟩
  · generalize indices.foldl n.countIndex n.commitIndex = index at hmem hterm hquorum
    obtain ⟨hlow, hhigh⟩ := mem_indices (hindices ▸ hmem)
    have hpos : 0 < index := (Nat.zero_le _).trans_lt hlow
    obtain ⟨Q, hmaj, hacks⟩ := majority_of_replicas hid h hrole hpos hquorum
    have hstep : Step LogEntry.term members id s (s.commitAt id index) := by
      refine Step.decide index Q (by rw [h.role, hrole]) (by rw [h.commit]; exact hlow)
        (by rw [h.log]; exact hhigh) ?_ hmaj hacks
      rw [h.log, h.term]
      exact lastTerm_take hpos hterm
    exact ⟨_, (Acts.none s).move hstep rfl, { h with commit := Function.update_self .. }⟩

theorem propose_follows (hid : id ∈ members) (h : Shown members s id n) (command : C) :
    Follows members honest s id ((n.propose command).1, []) := by
  unfold RaftNode.propose
  by_cases hrole : n.role = .leader
  · rw [if_neg (not_not.mpr hrole)]
    set entry : LogEntry C := { term := n.currentTerm, command := command }
    have hstep : Step LogEntry.term members id s (s.propose id entry) :=
      Step.propose entry (by rw [h.role, hrole]) h.term.symm
    have hshown : Shown members (s.propose id entry) id { n with log := n.log ++ [entry] } := by
      refine { h with log := ?_ }
      show Function.update s.log id _ id = n.log ++ [entry]
      rw [Function.update_self, h.log]
    obtain ⟨s', hacts, hshown'⟩ := advanceCommit_acts honest hid hshown hrole
    exact Follows.after ((Acts.none s).move hstep rfl) (Follows.after hacts (Follows.idle hshown'))
  · rw [if_pos hrole]
    exact Follows.idle h

theorem onAppendResponse_follows (hid : id ∈ members) (h : Shown members s id n) {src : MemberId}
    {matchIndex : LogIndex} {success : Bool}
    (hsaid : Said members s ⟨id, .appendEntriesResp term src matchIndex success⟩) :
    Follows members honest s id (n.onAppendResponse term src matchIndex success) := by
  unfold RaftNode.onAppendResponse
  by_cases hignore : n.role ≠ .leader ∨ term ≠ n.currentTerm
  · rw [if_pos hignore]
    exact Follows.idle h
  · rw [if_neg hignore]
    push Not at hignore
    obtain ⟨hrole, rfl⟩ := hignore
    cases success with
    | false => exact Follows.idle { h with }
    | true =>
      obtain ⟨hsrc, hne, hack⟩ := hsaid rfl
      have hshown : Shown members s id { n with
          matchIndex := n.matchIndex.insert src matchIndex
          nextIndex := n.nextIndex.insert src (matchIndex + 1) } := by
        refine { h with reports := fun hlead q m hm => ?_ }
        rw [BTreeMap.get?_insert] at hm
        split_ifs at hm with hq
        · obtain rfl := Option.some.inj hm
          subst hq
          exact ⟨hsrc, hne, Or.inr hack⟩
        · exact h.reports hlead q m hm
      obtain ⟨s', hacts, hshown'⟩ := advanceCommit_acts honest hid hshown hrole
      exact Follows.after hacts (Follows.idle hshown')

/-! ## Appends -/

variable {leader : MemberId}

/-- A log that extends the leader's by entries of the leader's term only is one the leader had. -/
theorem led_of_tail {u : Term} {l : MemberId} (hsound : Sound LogEntry.term s.led u log)
    (hL : (l, t, L) ∈ s.led) (hpre : L <+: log) (htail : ∀ e ∈ log.drop L.length, e.term = t) :
    ∃ l' L', (l', t, L') ∈ s.led ∧ log <+: L' := by
  obtain ⟨tail, rfl⟩ := hpre
  rw [List.drop_left] at htail
  rcases List.eq_nil_or_concat tail with rfl | ⟨init, last, rfl⟩
  · exact ⟨l, L, hL, by rw [List.append_nil]⟩
  · rw [List.concat_eq_append] at htail hsound ⊢
    obtain ⟨l', L', hL', hpre'⟩ := hsound.rooted.whole (by simp)
    rw [lastTerm_of_getLast? (e := last) (by simp), htail last (by simp)] at hL'
    exact ⟨l', L', hL', hpre'⟩

/-- The follower's log agrees with the leader's up to the previous entry of the append. -/
theorem take_prev_eq (hs : Elected LogEntry.term members s) (hroot : Rooted LogEntry.term s.led log)
    (hroot' : Rooted LogEntry.term s.led L) {prev : Nat}
    (hL : prev = 0 ∨ (L[prev - 1]?).map LogEntry.term = some t)
    (hlog : prev = 0 ∨ (log[prev - 1]?).map LogEntry.term = some t) :
    prev ≤ L.length ∧ log.take prev = L.take prev := by
  rcases Nat.eq_zero_or_pos prev with rfl | hpos
  · exact ⟨Nat.zero_le _, rfl⟩
  · obtain ⟨e', he', hterm'⟩ := Option.map_eq_some_iff.mp (hL.resolve_left hpos.ne')
    obtain ⟨e, he, hterm⟩ := Option.map_eq_some_iff.mp (hlog.resolve_left hpos.ne')
    have hsame := hs.leading.agree hs.voting hroot hroot' he he' (hterm.trans hterm'.symm)
    rw [Nat.sub_add_cancel hpos] at hsame
    have hlt := (List.getElem?_eq_some_iff.mp he').1
    exact ⟨by omega, hsame⟩

/-- Merging an append of the leader's log: the node ends with a log that extends the leader's,
    and without a stale tail with one that the leader had. -/
theorem putEntries_acts (honest : Prop) (hs : Elected LogEntry.term members s)
    (h : Shown members s id n) (hrole : n.role = .follower)
    (hled : (leader, n.currentTerm, L) ∈ s.led) {prev : LogIndex}
    (hprev : prev = 0 ∨ (L[prev - 1]?).map LogEntry.term = some t)
    (hconsistent : n.isConsistent prev t)
    (hclean : honest → ¬ n.StaleTail n.currentTerm prev (L.drop prev)) :
    ∃ s', Acts LogEntry.term members honest id s s'
      ∧ Shown members s' id { n with log := RaftNode.putEntries n.log prev (L.drop prev) }
      ∧ L <+: RaftNode.putEntries n.log prev (L.drop prev)
      ∧ (honest → ∃ l' L', (l', n.currentTerm, L') ∈ s'.led
        ∧ RaftNode.putEntries n.log prev (L.drop prev) <+: L') := by
  have hsound := hs.leading.log_sound id
  rw [h.log, h.term] at hsound
  have hsound' := hs.leading.led_sound leader _ L hled
  obtain ⟨hlen, hsame⟩ := take_prev_eq hs hsound.rooted hsound'.rooted hprev hconsistent
  rcases putEntries_eq (fun k e e' he he' => hs.leading.agree hs.voting hsound.rooted
    hsound'.rooted he he') hlen hsame with ⟨hpre, hput⟩ | ⟨hpre, hput⟩
  · rw [hput]
    refine ⟨s, Acts.none s, h, hpre, fun hhonest => ?_⟩
    refine led_of_tail hsound hled hpre fun e he => ?_
    -- a tail entry of another term would be stale
    by_contra hterm
    refine hclean hhonest ⟨fun ⟨entry, offset⟩ hitem => ?_, e, ?_, hterm⟩
    · have hentry := List.mk_mem_zipIdx_iff_getElem?.mp hitem
      rw [List.getElem?_drop] at hentry
      obtain ⟨rest, hrest⟩ := hpre
      have hlt := (List.getElem?_eq_some_iff.mp hentry).1
      rw [← hrest, List.getElem?_append_left hlt, hentry]
      rfl
    · rw [List.length_drop, Nat.add_sub_cancel' hlen]
      exact he
  · rw [hput]
    have hstep : Step LogEntry.term members id s (s.adopt id L) :=
      Step.adopt leader L (by rw [h.role, hrole]) (by rw [h.term]; exact hled)
        (by rw [h.log]; exact hpre)
    refine ⟨_, (Acts.none s).move hstep rfl, ?_, List.prefix_refl _, fun _ => ⟨leader, L, hled,
      List.prefix_refl _⟩⟩
    exact { h with log := Function.update_self .. }

theorem onAppendEntries_follows (hs : Elected LogEntry.term members s) (hid : id ∈ members)
    (h : Shown members s id n) {prev : LogIndex} {entries : List (LogEntry C)}
    {leaderCommit : LogIndex} (hterm : term ≤ n.currentTerm)
    (hsaid : Said members s ⟨id, .appendEntries term leader prev t entries leaderCommit⟩)
    (hclean : honest → n.currentTerm ≤ term → n.isConsistent prev t →
      ¬ n.StaleTail term prev entries) :
    Follows members honest s id (n.onAppendEntries term leader prev t entries leaderCommit) := by
  obtain ⟨hne, L, hoffer, hprev, rfl⟩ := hsaid
  unfold RaftNode.onAppendEntries
  have hfailed : ∀ s' : Protocol C,
      ∀ o ∈ [(⟨leader, .appendEntriesResp n.currentTerm n.id 0 false⟩ : Outbound C)],
        Said members s' o := by
    intro s' o ho
    obtain rfl := List.mem_singleton.mp ho
    exact fun hsuccess => absurd hsuccess (by decide)
  by_cases hstale : term < n.currentTerm
  · rw [if_pos hstale]
    exact ⟨s, Acts.none s, h, hfailed s⟩
  · obtain rfl : term = n.currentTerm := le_antisymm hterm (not_lt.mp hstale)
    rw [if_neg hstale]
    have hled := hs.voting.offer_led leader _ L _ hoffer
    have hstep : Step LogEntry.term members id s (s.concede id) :=
      Step.concede leader L hne (by rw [h.term]; exact hled)
    have hacts : Acts LogEntry.term members honest id s (s.concede id) :=
      (Acts.none s).move hstep rfl
    set n' := { n with role := Role.follower, leaderHint := some leader, ticksSinceHeard := 0 }
      with hn'
    have hshown : Shown members (s.concede id) id n' :=
      { h with
        role := Function.update_self ..
        votes := fun hrole => absurd hrole (by simp [hn'])
        reports := fun hrole => absurd hrole (by simp [hn']) }
    refine Follows.after hacts ?_
    by_cases hconsistent : n'.isConsistent prev t
    · rw [if_neg (not_not.mpr hconsistent)]
      obtain ⟨s', hacts', hshown', hpre, hhonest⟩ := putEntries_acts honest
        (hs.step hstep) hshown rfl hled hprev hconsistent
        (fun hh => hclean hh le_rfl hconsistent)
      have hled' := hacts'.extends.led hled
      have hoffer' := hacts'.extends.offers hoffer
      generalize RaftNode.putEntries n'.log prev (L.drop prev) = log at hshown' hpre hhonest ⊢
      have hack : Step LogEntry.term members id s' (s'.ack id) :=
        Step.ack leader L (by rw [hshown'.term]; exact hled') (by rw [hshown'.log]; exact hpre)
      have hacts'' : Acts LogEntry.term members honest id s' (s'.ack id) := by
        refine (Acts.none s').next hack fun hh w u m hm => ?_
        rcases hm with hm | hm
        · cases hm
          obtain ⟨l', L', hL', hlog⟩ := hhonest hh
          rw [hshown'.term, hshown'.log]
          exact Or.inr ⟨l', L', hL', hlog⟩
        · exact Or.inl hm
      refine Follows.after (hacts'.trans hacts'') ?_
      have hshown'' := hshown'.mono hacts''.extends ⟨rfl, rfl, rfl, rfl, rfl⟩
      have hsaid : ∀ s'' : Protocol C, Extends (s'.ack id) s'' →
          ∀ o ∈ [(⟨leader, .appendEntriesResp n.currentTerm n.id log.length true⟩ : Outbound C)],
            Said members s'' o := by
        intro s'' hext o ho
        obtain rfl := List.mem_singleton.mp ho
        intro _
        rw [h.own]
        refine ⟨hid, hne.symm, hext.acks ?_⟩
        have hnew : (id, s'.term id, (s'.log id).length) ∈ (s'.ack id).acks := Set.mem_insert _ _
        rw [hshown'.term, hshown'.log] at hnew
        exact hnew
      dsimp only
      split_ifs with hcommit
      · have hlearn : Step LogEntry.term members id (s'.ack id)
            ((s'.ack id).commitAt id (min leaderCommit ((s'.ack id).log id).length)) :=
          Step.learn leader L leaderCommit (by rw [hshown''.term]; exact hoffer')
            (by rw [hshown''.log]; exact hpre) (by rw [hshown''.commit]; exact hcommit)
        have hacts3 : Acts LogEntry.term members honest id (s'.ack id) _ :=
          (Acts.none _).move hlearn rfl
        refine ⟨_, hacts3, { hshown'' with commit := ?_ }, hsaid _ hacts3.extends⟩
        show Function.update _ id _ id = _
        rw [Function.update_self, hshown''.log]
      · exact ⟨_, Acts.none _, { hshown'' with }, hsaid _ (Extends.refl _)⟩
    · rw [if_pos hconsistent]
      exact ⟨_, Acts.none _, hshown, hfailed _⟩

end Blut.Raft
