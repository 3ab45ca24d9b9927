/-
  Every log was once a leader's.

  An entry gets into a log at the end of a leader's, and is copied from there to the same place of
  other logs (`Origin`, `run_sourced`). By log matching everything before it is copied with it, so
  the log a follower ends an append with is one a leader had. Hence a property of logs that every
  proposal keeps holds of every log in a run (`logs_satisfy`), whether or not acknowledgements are
  honest.
-/
import Blut.Raft.Agreement

namespace Blut.Raft

open Blut.Lib Blut.Lib.Replication

variable {C : Type} {members : List MemberId}

/-! ## Entries keep their places -/

/-- Every entry of the log satisfies `R` at its place. -/
def Placed (R : Nat → LogEntry C → Prop) (log : List (LogEntry C)) : Prop :=
  ∀ k e, log[k]? = some e → R k e

/-- Every entry that a message carries satisfies `R` at the place it is meant for. -/
def Carried (R : Nat → LogEntry C → Prop) : RaftMessage C → Prop
  | .appendEntries _ _ prevLogIndex _ entries _ => ∀ j e, entries[j]? = some e →
    R (prevLogIndex + j) e
  | _ => True

section

variable {entries log : List (LogEntry C)}

variable {R : Nat → LogEntry C → Prop} {n : RaftNode C} (h : Placed R n.log)
include h

omit h in
theorem putEntry_placed (h : Placed R log) {slot : Nat} (hslot : slot ≤ log.length)
    {entry : LogEntry C} (hentry : R slot entry) :
    Placed R (RaftNode.putEntry log slot entry) ∧ slot + 1 ≤
      (RaftNode.putEntry log slot entry).length := by
  have hconcat : ∀ kept : List (LogEntry C), Placed R kept → kept.length = slot →
      Placed R (kept ++ [entry]) := by
    intro kept hkept hlen k e he
    by_cases hk : k < kept.length
    · rw [List.getElem?_append_left hk] at he
      exact hkept k e he
    · have hlt := (List.getElem?_eq_some_iff.mp he).1
      rw [List.length_append, List.length_singleton] at hlt
      obtain rfl : k = kept.length := by omega
      rw [List.getElem?_append_right le_rfl, Nat.sub_self] at he
      obtain rfl := Option.some.inj he
      exact hlen ▸ hentry
  unfold RaftNode.putEntry
  cases hheld : log[slot]? with
  | none =>
    have hlen := List.getElem?_eq_none_iff.mp hheld
    exact ⟨hconcat log h (by omega), by simp; omega⟩
  | some held =>
    have hlt := (List.getElem?_eq_some_iff.mp hheld).1
    dsimp only
    split_ifs
    · refine ⟨hconcat _ (fun k e he => ?_) (by rw [List.length_take]; omega), by simp; omega⟩
      rw [List.getElem?_take] at he
      split_ifs at he
      exact h k e he
    · exact ⟨h, hlt⟩

omit h in
theorem putEntries_placed (h : Placed R log) {prev : Nat} (hprev : prev ≤ log.length)
    (hentries : ∀ j e, entries[j]? = some e → R (prev + j) e) :
    Placed R (RaftNode.putEntries log prev entries) := by
  have hfold : ∀ (entries : List (LogEntry C)) (j : Nat) (log : List (LogEntry C)), Placed R log →
      prev + j ≤ log.length → (∀ i e, entries[i]? = some e → R (prev + (j + i)) e) →
      Placed R ((entries.zipIdx j).foldl
        (fun log x => RaftNode.putEntry log (prev + x.2) x.1) log) := by
    intro entries
    induction entries with
    | nil => exact fun j log hlog _ _ => hlog
    | cons entry entries ih =>
      intro j log hlog hj hall
      obtain ⟨hput, hlen⟩ := putEntry_placed hlog hj (hall 0 entry rfl)
      rw [List.zipIdx_cons, List.foldl_cons]
      refine ih (j + 1) _ hput hlen fun i e he => ?_
      have hnext := hall (i + 1) e he
      rw [show j + 1 + i = j + (i + 1) by omega]
      exact hnext
  exact hfold entries 0 log h hprev fun i e he => by
    rw [Nat.zero_add]
    exact hentries i e he

/-! ## Handlers -/

variable {result : RaftNode C × List (Outbound C)}

theorem broadcastAppend_carried {out : List (Outbound C)} (hout : n.broadcastAppend = some out) :
    ∀ o ∈ out, Carried R o.message := by
  intro o ho
  obtain ⟨peer, -, ho'⟩ := exists_left_of_forall₂ (forall₂_of_mapM hout) ho
  unfold RaftNode.appendTo at ho'
  obtain ⟨_, -, ho'⟩ := Option.bind_eq_some_iff.mp ho'
  obtain rfl := Option.some.inj ho'
  intro j e he
  rw [List.getElem?_drop] at he
  exact h _ e he

/-- A node and its messages whose entries all satisfy `R` at their places. -/
def PlacedResult (R : Nat → LogEntry C → Prop) (result : RaftNode C × List (Outbound C)) : Prop :=
  Placed R result.1.log ∧ ∀ o ∈ result.2, Carried R o.message

theorem takeOffice_placed (hresult : n.takeOffice = some result) :
    PlacedResult R result ∧ result.1.log = n.log := by
  obtain ⟨out, hout, hresult⟩ := Option.bind_eq_some_iff.mp hresult
  obtain rfl := Option.some.inj hresult
  have hlog : Placed R n.becomeLeader.log := h
  exact ⟨⟨hlog, broadcastAppend_carried hlog hout⟩, rfl⟩

theorem tick_placed (hresult : n.tick = some result) :
    PlacedResult R result ∧ result.1.log = n.log := by
  unfold RaftNode.tick at hresult
  dsimp only at hresult
  split_ifs at hresult with hrole htimeout
  · obtain ⟨out, hout, hresult⟩ := Option.bind_eq_some_iff.mp hresult
    obtain rfl := Option.some.inj hresult
    exact ⟨⟨h, broadcastAppend_carried h hout⟩, rfl⟩
  · unfold RaftNode.beginElection at hresult
    split_ifs at hresult
    · have hlog : Placed R
          (RaftNode.stand { n with ticksSinceHeard := n.ticksSinceHeard + 1 }).log := h
      exact takeOffice_placed hlog hresult
    · obtain rfl := Option.some.inj hresult
      refine ⟨⟨h, fun o ho => ?_⟩, rfl⟩
      obtain ⟨dst, -, rfl⟩ := List.mem_map.mp ho
      trivial
  · obtain rfl := Option.some.inj hresult
    exact ⟨⟨h, fun o ho => absurd ho List.not_mem_nil⟩, rfl⟩

omit h in
theorem observe_log (n : RaftNode C) (term : Term) : (n.observe term).log = n.log := by
  unfold RaftNode.observe
  split_ifs <;> rfl

theorem onVoteResponse_placed {term : Term} {src : MemberId} {granted : Bool}
    (hresult : n.onVoteResponse term src granted = some result) :
    PlacedResult R result ∧ result.1.log = n.log := by
  unfold RaftNode.onVoteResponse at hresult
  generalize (if n.votesGranted.contains src then n.votesGranted else n.votesGranted ++ [src]) =
    votes
    at hresult
  dsimp only at hresult
  split_ifs at hresult
  · obtain rfl := Option.some.inj hresult
    exact ⟨⟨h, fun o ho => absurd ho List.not_mem_nil⟩, rfl⟩
  · have hlog : Placed R ({ n with votesGranted := votes } : RaftNode C).log := h
    exact takeOffice_placed hlog hresult
  · obtain rfl := Option.some.inj hresult
    exact ⟨⟨h, fun o ho => absurd ho List.not_mem_nil⟩, rfl⟩

theorem onAppendEntries_placed {term : Term} {leader : MemberId} {prevLogIndex : LogIndex}
    {prevLogTerm : Term} {leaderCommit : LogIndex}
    (hentries : ∀ j e, entries[j]? = some e → R (prevLogIndex + j) e) :
    PlacedResult R (n.onAppendEntries term leader prevLogIndex prevLogTerm entries
      leaderCommit) := by
  have hreply : ∀ matchIndex success, ∀ o ∈ [(⟨leader, .appendEntriesResp n.currentTerm n.id
      matchIndex success⟩ : Outbound C)], Carried R o.message := by
    intro matchIndex success o ho
    obtain rfl := List.mem_singleton.mp ho
    trivial
  unfold RaftNode.onAppendEntries
  dsimp only
  split
  · exact ⟨h, hreply 0 false⟩
  · split
    · exact ⟨h, hreply 0 false⟩
    · rename_i hconsistent
      refine ⟨putEntries_placed h ?_ hentries, hreply _ true⟩
      -- the node holds the previous entry
      rcases not_not.mp hconsistent with hzero | hheld
      · exact hzero ▸ Nat.zero_le _
      · obtain ⟨e, he, -⟩ := Option.map_eq_some_iff.mp hheld
        have hlt : prevLogIndex - 1 < n.log.length := (List.getElem?_eq_some_iff.mp he).1
        exact Nat.le_of_pred_lt hlt

theorem handle_placed {message : RaftMessage C} (hmessage : Carried R message)
    (hresult : n.handle message = some result) :
    PlacedResult R result := by
  have hlog : Placed R (n.observe message.term).log := by
    rw [observe_log]
    exact h
  unfold RaftNode.handle at hresult
  cases message with
  | requestVote term candidate lastLogIndex lastLogTerm =>
    obtain rfl := Option.some.inj hresult
    unfold RaftNode.onRequestVote
    dsimp only
    split_ifs
    · refine ⟨hlog, fun o ho => ?_⟩
      obtain rfl := List.mem_singleton.mp ho
      trivial
    · refine ⟨hlog, fun o ho => ?_⟩
      obtain rfl := List.mem_singleton.mp ho
      trivial
  | requestVoteResp term src granted => exact (onVoteResponse_placed hlog hresult).1
  | appendEntries term leader prevLogIndex prevLogTerm entries leaderCommit =>
    obtain rfl := Option.some.inj hresult
    exact onAppendEntries_placed hlog hmessage
  | appendEntriesResp term src matchIndex success =>
    obtain rfl := Option.some.inj hresult
    unfold RaftNode.onAppendResponse
    dsimp only
    split_ifs
    · exact ⟨hlog, fun o ho => absurd ho List.not_mem_nil⟩
    · exact ⟨hlog, fun o ho => absurd ho List.not_mem_nil⟩
    · exact ⟨hlog, fun o ho => absurd ho List.not_mem_nil⟩

end

variable {result : RaftNode C × List (Outbound C)} {n : RaftNode C}

/-- A message to a node that leads afterwards leaves its log as it is. -/
theorem handle_log {message : RaftMessage C} (hresult : n.handle message = some result)
    (hleads : result.1.role = .leader) :
    result.1.log = n.log := by
  rw [← observe_log n message.term]
  unfold RaftNode.handle at hresult
  cases message with
  | requestVote term candidate lastLogIndex lastLogTerm =>
    obtain rfl := Option.some.inj hresult
    unfold RaftNode.onRequestVote
    dsimp only
    split_ifs <;> rfl
  | requestVoteResp term src granted =>
    exact (onVoteResponse_placed (R := fun _ _ => True) (fun _ _ _ => trivial) hresult).2
  | appendEntries term leader prevLogIndex prevLogTerm entries leaderCommit =>
    obtain rfl := Option.some.inj hresult
    revert hleads
    unfold RaftNode.onAppendEntries
    dsimp only
    -- an append that is not refused makes the node a follower
    split
    · exact fun _ => rfl
    · split
      · intro hleads
        cases hleads
      · intro hleads
        cases hleads
  | appendEntriesResp term src matchIndex success =>
    obtain rfl := Option.some.inj hresult
    unfold RaftNode.onAppendResponse
    dsimp only
    split_ifs <;> rfl

theorem propose_log (n : RaftNode C) (command : C) : (n.propose command).1.log =
    if n.role = .leader then n.log ++ [⟨n.currentTerm, command⟩] else n.log := by
  unfold RaftNode.propose
  by_cases hrole : n.role = .leader
  · rw [if_neg (not_not.mpr hrole), if_pos hrole]
    rfl
  · rw [if_pos hrole, if_neg hrole]

theorem propose_role (n : RaftNode C) (command : C) :
    (n.propose command).1.role = n.role ∧ (n.propose command).1.currentTerm = n.currentTerm := by
  unfold RaftNode.propose
  split_ifs
  · exact ⟨rfl, rfl⟩
  · exact ⟨rfl, rfl⟩

/-! ## Runs -/

variable {run : List (Cluster C)} {allowed : Cluster C → Event C → Prop}
  {R' R : Nat → LogEntry C → Prop} {id : MemberId} {cluster next : Cluster C}

/-- Only a proposal changes the log of a node that leads afterwards. -/
theorem Cluster.log_of_leads [DecidableEq C] {event : Event C}
    (hstep : cluster.step members event = some next)
    (hevent : ∀ w command, event ≠ .propose w command) (hleads : (next.nodes id).role = .leader) :
    (next.nodes id).log = (cluster.nodes id).log := by
  obtain ⟨w, -, result, rfl, hcases⟩ := Cluster.step_eq_some hstep
  by_cases hw : id = w
  swap
  · simp only [Cluster.put, Function.update_of_ne hw]
  subst hw
  simp only [Cluster.put, Function.update_self] at hleads ⊢
  rcases hcases with ⟨-, hresult⟩ | ⟨o, -, -, -, hresult⟩ | ⟨command, hpropose, -⟩
  · exact (tick_placed (R := fun _ _ => True) (fun _ _ _ => trivial) hresult).2
  · exact handle_log hresult hleads
  · exact absurd hpropose (hevent id command)

/-- At some moment the entry was the last of a log of its term's leader, at this place. -/
def Origin (members : List MemberId) (run : List (Cluster C)) (k : Nat) (e : LogEntry C) : Prop :=
  ∃ c ∈ run, ∃ id ∈ members, (c.nodes id).role = .leader ∧ (c.nodes id).currentTerm = e.term
    ∧ (c.nodes id).log.length = k + 1 ∧ (c.nodes id).log[k]? = some e

theorem Origin.cons {k : Nat} {e : LogEntry C} (next : Cluster C) (h : Origin members run k e) :
    Origin members (next :: run) k e := by
  obtain ⟨c, hc, hrest⟩ := h
  exact ⟨c, List.mem_cons_of_mem _ hc, hrest⟩

structure Sourced (members : List MemberId) (run : List (Cluster C))
    (cluster : Cluster C) : Prop where
  logs : ∀ id ∈ members, Placed (Origin members run) (cluster.nodes id).log
  messages : ∀ o ∈ cluster.network, Carried (Origin members run) o.message

theorem Placed.imp {log : List (LogEntry C)} (h : Placed R log) (himp : ∀ k e, R k e → R' k e) :
    Placed R' log :=
  fun k e he => himp k e (h k e he)

theorem Carried.imp {message : RaftMessage C} (h : Carried R message)
    (himp : ∀ k e, R k e → R' k e) : Carried R' message := by
  cases message with
  | appendEntries term leader prevLogIndex prevLogTerm entries leaderCommit =>
    exact fun j e he => himp _ e (h j e he)
  | requestVote term candidate lastLogIndex lastLogTerm => trivial
  | requestVoteResp term src granted => trivial
  | appendEntriesResp term src matchIndex success => trivial

theorem Sourced.put (h : Sourced members run cluster) (next : Cluster C)
    (hresult : PlacedResult (Origin members (next :: run)) result) :
    Sourced members (next :: run) (cluster.put id result) := by
  constructor
  · refine Cluster.forall_put (P := fun _ n => Placed _ n.log) hresult.1 fun w hw _ => ?_
    exact (h.logs w hw).imp fun k e => Origin.cons next
  · intro o ho
    rcases List.mem_append.mp ho with ho | ho
    · exact (h.messages o ho).imp fun k e => Origin.cons next
    · exact hresult.2 o ho

/-- The entry that a proposal appends is now the last of its leader's log. -/
theorem propose_placed (hid : id ∈ members) {command : C}
    (hnode : next.nodes id = (n.propose command).1)
    (h : Placed (Origin members (next :: run)) n.log) :
    Placed (Origin members (next :: run)) (n.propose command).1.log := by
  have hlog := propose_log n command
  obtain ⟨hrole, hterm⟩ := propose_role n command
  by_cases hlead : n.role = .leader
  swap
  · rw [hlog, if_neg hlead]
    exact h
  rw [if_pos hlead] at hlog
  rw [← hnode] at hlog hrole hterm ⊢
  intro k e he
  rw [hlog] at he
  rcases lt_or_ge k n.log.length with hlt | hge
  · rw [List.getElem?_append_left hlt] at he
    exact h k e he
  · have hlt := (List.getElem?_eq_some_iff.mp he).1
    rw [List.length_append, List.length_singleton] at hlt
    obtain rfl : k = n.log.length := by omega
    refine ⟨next, List.mem_cons_self, id, hid, hrole.trans hlead, ?_, ?_, hlog ▸ he⟩
    · rw [List.getElem?_append_right le_rfl, Nat.sub_self] at he
      rw [hterm, ← Option.some.inj he]
    · rw [hlog, List.length_append]
      rfl

variable [DecidableEq C]

theorem sourced_step (h : Sourced members run cluster) {event : Event C}
    (hstep : cluster.step members event = some next) : Sourced members (next :: run) next := by
  have hcons : ∀ {log : List (LogEntry C)}, Placed (Origin members run) log →
      Placed (Origin members (next :: run)) log := fun hlog => hlog.imp fun k e => Origin.cons next
  obtain ⟨id, hid, result, hnext, hcases⟩ := Cluster.step_eq_some hstep
  have hput : PlacedResult (Origin members (next :: run)) result := by
    rcases hcases with ⟨-, hresult⟩ | ⟨o, hmem, rfl, -, hresult⟩ | ⟨command, -, rfl⟩
    · exact (tick_placed (hcons (h.logs id hid)) hresult).1
    · have hmessage := (h.messages o hmem).imp fun k e => Origin.cons next
      exact handle_placed (hcons (h.logs _ hid)) hmessage hresult
    · refine ⟨propose_placed hid ?_ (hcons (h.logs id hid)), fun o ho => absurd ho List.not_mem_nil⟩
      rw [hnext]
      simp only [Cluster.put, Function.update_self]
  have hsourced : Sourced members (next :: run) (cluster.put id result) := h.put next hput
  rw [← hnext] at hsourced
  exact hsourced

theorem run_sourced (hrun : Run members allowed run) :
    ∃ cluster past, run = cluster :: past ∧ Sourced members run cluster := by
  induction hrun with
  | @start cluster h =>
    refine ⟨cluster, [], rfl, fun id hid k e he => ?_, fun o ho => ?_⟩
    · rw [(h.node hid).1] at he
      exact absurd he (by simp)
    · rw [h.silent] at ho
      exact absurd ho List.not_mem_nil
  | @step cluster next past event _ _ hstep ih =>
    obtain ⟨_, _, heq, hsourced⟩ := ih
    cases heq
    exact ⟨next, _, rfl, sourced_step hsourced hstep⟩

omit [DecidableEq C] in
/-- What is at a place of a node's log came with everything before it from one leader's log. -/
theorem Origin.take_eq {s : Protocol C} (hs : Elected LogEntry.term members s)
    (hled : RecordsLeaders members run s) (h : Shown members s id n) {k : Nat} {e : LogEntry C}
    (horigin : Origin members run k e) (he : n.log[k]? = some e) :
    ∃ c ∈ run, ∃ l ∈ members, (c.nodes l).log = n.log.take (k + 1) := by
  obtain ⟨c, hc, l, hl, hlead, hterm, hlen, hlast⟩ := horigin
  have hmem := hled c hc l hl hlead
  have hsound := hs.leading.log_sound id
  rw [h.log, h.term] at hsound
  have hsound' := hs.leading.led_sound l _ _ hmem
  have hsame := hs.leading.agree hs.voting hsound.rooted hsound'.rooted he hlast rfl
  refine ⟨c, hc, l, hl, ?_⟩
  rw [hsame, ← hlen, List.take_length]

/-- The log that a message leaves is empty or a leader had it before. -/
theorem log_of_delivered {cluster next : Cluster C} {past : List (Cluster C)} {o : Outbound C}
    (hprior : Run members allowed (cluster :: past))
    (hrun : Run members allowed (next :: cluster :: past)) (hid : id ∈ members)
    (hnode : next.nodes id = result.1) (ho : o ∈ cluster.network)
    (hresult : (cluster.nodes id).handle o.message = some result) :
    result.1.log = [] ∨ ∃ c ∈ cluster :: past, ∃ l ∈ members, (c.nodes l).log = result.1.log := by
  rcases List.eq_nil_or_concat result.1.log with hempty | ⟨init, last, hlog⟩
  · exact .inl hempty
  rw [List.concat_eq_append] at hlog
  obtain ⟨_, _, heq, hsourced⟩ := run_sourced hprior
  cases heq
  have hplaced := handle_placed (hsourced.logs _ hid) (hsourced.messages o ho) hresult
  have hlast : result.1.log[init.length]? = some last := by
    rw [hlog]
    simp
  obtain ⟨_, _, s, heq, hmirrors, hs, hled, -⟩ := run_elected hrun
  cases heq
  have hshown := hmirrors.shown _ hid
  rw [hnode] at hshown
  have hpast : RecordsLeaders members (cluster :: past) s :=
    fun c hc => hled c (List.mem_cons_of_mem _ hc)
  -- its last entry came with all that stands before it
  obtain ⟨c, hc, l, hl, hsame⟩ := (hplaced.1 _ _ hlast).take_eq hs hpast hshown hlast
  have hwhole : result.1.log.take (init.length + 1) = result.1.log :=
    List.take_of_length_le (by rw [hlog]; simp)
  exact .inr ⟨c, hc, l, hl, hsame.trans hwhole⟩

/-- A property of logs that every allowed proposal keeps holds of every log. -/
theorem logs_satisfy {P : List (LogEntry C) → Prop} (hnil : P [])
    (hpropose : ∀ cluster id command, allowed cluster (.propose id command) →
      (cluster.nodes id).role = .leader → P (cluster.nodes id).log →
      P ((cluster.nodes id).log ++ [⟨(cluster.nodes id).currentTerm, command⟩]))
    (hrun : Run members allowed run) :
    ∀ c ∈ run, ∀ id ∈ members, P (c.nodes id).log := by
  have hwhole := hrun
  induction hrun with
  | @start cluster h =>
    intro c hc id hid
    rw [List.mem_singleton.mp hc]
    rw [(h.node hid).1]
    exact hnil
  | @step cluster next past event hprior hallowed hstep ih =>
    have ih := ih hprior
    intro c hc w hw
    rcases List.mem_cons.mp hc with rfl | hc
    swap
    · exact ih c hc w hw
    have hold := ih cluster List.mem_cons_self
    obtain ⟨id, hid, result, hnext, hcases⟩ := Cluster.step_eq_some hstep
    have hnode : c.nodes id = result.1 := by
      rw [hnext]
      simp only [Cluster.put, Function.update_self]
    revert w
    rw [hnext]
    refine Cluster.forall_put (P := fun _ n => P n.log) ?_ fun w hw _ => hold w hw
    rcases hcases with ⟨-, hresult⟩ | ⟨o, hmem, rfl, -, hresult⟩ | ⟨command, rfl, rfl⟩
    · rw [(tick_placed (R := fun _ _ => True) (fun _ _ _ => trivial) hresult).2]
      exact hold id hid
    · rcases log_of_delivered hprior hwhole hid hnode hmem hresult with
        hempty | ⟨c', hc', l, hl, hlog⟩
      · rw [hempty]
        exact hnil
      · rw [← hlog]
        exact ih c' hc' l hl
    · rw [propose_log]
      split_ifs with hlead
      · exact hpropose cluster id command hallowed hlead (hold id hid)
      · exact hold id hid

end Blut.Raft
