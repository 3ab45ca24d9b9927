/-
  The record of a stage along a committed log.

  The counter of live dispatches is exact exactly where the dispatches up to the last void are as
  many as the voids that found the stage unfinished (`effectiveDispatches_exact_iff`). A void that
  is committed twice counts twice, and the next dispatch does not show (`void_counted_twice`). A
  finished stage stays as it is exactly where no later entry dispatches it or completes it with
  another hash (`done_stays_iff`). `request_dispatch` looks at the applied state only, so it may
  dispatch a stage whose completion is on its way (`done_is_dispatched`).
-/
import Blut.Raft.Dispatching
import Blut.Lib.Sorting

namespace Blut.Raft

open Blut.Lib

/-! ## Live dispatches -/

/-- Dispatches that could have caused execution: `dispatch_count.saturating_sub(..)`. -/
def StageRecord.effectiveDispatches (record : StageRecord) : UInt32 :=
  if record.voidedDispatches ≤ record.dispatchCount
  then record.dispatchCount - record.voidedDispatches else 0

def SchedulerState.maxEffectiveDispatches (state : SchedulerState) : UInt32 :=
  (state.stages.values.map StageRecord.effectiveDispatches).max?.getD 0

/-- The counter of a stage that is not done: it is the number of dispatches since the last void,
    no more were voided than made, and the maximum shows them. -/
def CountsExactly (stage : String) (log : SchedulerLog) : Prop :=
  ((SchedulerState.ofLog log).record stage).status ≠ some .done →
    ((SchedulerState.ofLog log).record stage).effectiveDispatches.toNat = sinceVoid stage log
      ∧ ((SchedulerState.ofLog log).record stage).voidedDispatches
        ≤ ((SchedulerState.ofLog log).record stage).dispatchCount
      ∧ sinceVoid stage log ≤ (SchedulerState.ofLog log).maxEffectiveDispatches.toNat

/-- The last Dispatch or Complete of the stage is a Complete. -/
def isFinished (stage : String) (log : SchedulerLog) : Bool :=
  log.foldl (fun finished entry =>
    entry.command.isComplete stage || (!entry.command.isDispatch stage && finished)) false

/-- The Dispatch entries of the stage. -/
def dispatches (stage : String) (log : SchedulerLog) : Nat :=
  log.countP fun entry => entry.command.isDispatch stage

/-- The VoidDispatch entries of the stage that come where it is not finished. -/
def openVoids (stage : String) (log : SchedulerLog) : Nat :=
  (List.range log.length).countP fun i =>
    log[i]?.any (fun entry => entry.command.isVoid stage) && !isFinished stage (log.take i)

variable {stage : String} {log : SchedulerLog}

theorem isFinished_concat (entry : LogEntry SchedulerCommand) :
    isFinished stage (log ++ [entry]) = (entry.command.isComplete stage ||
      (!entry.command.isDispatch stage && isFinished stage log)) := by
  unfold isFinished
  rw [List.foldl_append]
  rfl

theorem dispatches_concat (entry : LogEntry SchedulerCommand) :
    dispatches stage (log ++ [entry]) =
      dispatches stage log + if entry.command.isDispatch stage then 1 else 0 := by
  unfold dispatches
  rw [List.countP_append, List.countP_singleton]

theorem openVoids_concat (entry : LogEntry SchedulerCommand) :
    openVoids stage (log ++ [entry]) = openVoids stage log +
      if entry.command.isVoid stage && !isFinished stage log then 1 else 0 := by
  unfold openVoids
  rw [List.length_append, List.length_singleton, List.range_succ, List.countP_append,
    List.countP_singleton]
  have hold : (List.range log.length).countP (fun i =>
      (log ++ [entry])[i]?.any (fun entry => entry.command.isVoid stage)
        && !isFinished stage ((log ++ [entry]).take i)) =
      (List.range log.length).countP fun i =>
        log[i]?.any (fun entry => entry.command.isVoid stage)
          && !isFinished stage (log.take i) := by
    refine List.countP_congr fun i hi => ?_
    have hlt := List.mem_range.mp hi
    rw [List.getElem?_append_left hlt, List.take_append_of_le_length hlt.le]
  rw [hold]
  simp

/-- The dispatches since the last void are among all of them. -/
theorem sinceVoid_le_dispatches : sinceVoid stage log ≤ dispatches stage log := by
  induction log using List.reverseRecOn with
  | nil => exact le_rfl
  | append_singleton log entry ih =>
    rw [sinceVoid_concat, dispatches_concat]
    split_ifs <;> omega

theorem flags_of_stage_ne {command : SchedulerCommand} (h : command.stage ≠ stage) :
    command.isComplete stage = false ∧ command.isVoid stage = false ∧
      command.isDispatch stage = false := by
  cases command <;> simp_all [SchedulerCommand.isVoid, SchedulerCommand.isDispatch,
    SchedulerCommand.isComplete, SchedulerCommand.stage]

/-- What the record of a stage says about the entries of the log. -/
structure Tallies (stage : String) (log : SchedulerLog)
    (record : StageRecord) : Prop where
  done : record.status = some .done ↔ isFinished stage log = true
  dispatchCount : record.dispatchCount = UInt32.ofNat (dispatches stage log)
  voidedDispatches : record.voidedDispatches = UInt32.ofNat (openVoids stage log)

theorem Tallies.next {record : StageRecord} (h : Tallies stage log record)
    (entry : LogEntry SchedulerCommand) : Tallies stage (log ++ [entry])
      (if entry.command.stage = stage then entry.command.update record else record) := by
  obtain ⟨hdone, hcount, hvoided⟩ := h
  obtain ⟨term, command⟩ := entry
  by_cases hstage : command.stage = stage
  swap
  · obtain ⟨hcomplete, hvoid, hdispatch⟩ := flags_of_stage_ne hstage
    rw [if_neg hstage]
    constructor <;> simp [isFinished_concat, dispatches_concat, openVoids_concat, *]
  rw [if_pos hstage]
  cases command with
  | dispatch s peer expected =>
    obtain rfl : s = stage := hstage
    constructor <;> simp [isFinished_concat, dispatches_concat, openVoids_concat,
      SchedulerCommand.update, SchedulerCommand.isComplete, SchedulerCommand.isVoid,
      SchedulerCommand.isDispatch, UInt32.ofNat_add, hcount, hvoided]
  | voidDispatch s reason =>
    obtain rfl : s = stage := hstage
    -- only a void that finds the stage unfinished changes the record
    by_cases hstatus : record.status = some .done
    · have hfinished := hdone.mp hstatus
      constructor <;> simp [isFinished_concat, dispatches_concat, openVoids_concat,
        SchedulerCommand.update, SchedulerCommand.isComplete, SchedulerCommand.isVoid,
        SchedulerCommand.isDispatch, hstatus, hfinished, hcount, hvoided]
    · have hopen : isFinished s log = false := Bool.eq_false_iff.mpr (mt hdone.mpr hstatus)
      constructor <;> simp [isFinished_concat, dispatches_concat, openVoids_concat,
        SchedulerCommand.update, SchedulerCommand.isComplete, SchedulerCommand.isVoid,
        SchedulerCommand.isDispatch, UInt32.ofNat_add, hstatus, hopen, hcount, hvoided]
  | complete s hash =>
    obtain rfl : s = stage := hstage
    constructor <;> simp [isFinished_concat, dispatches_concat, openVoids_concat,
      SchedulerCommand.update, SchedulerCommand.isComplete, SchedulerCommand.isVoid,
      SchedulerCommand.isDispatch, hcount, hvoided]
  | cloudJob s job =>
    constructor <;> simp [isFinished_concat, dispatches_concat, openVoids_concat,
      SchedulerCommand.update, SchedulerCommand.isComplete, SchedulerCommand.isVoid,
      SchedulerCommand.isDispatch, hdone, hcount, hvoided]
  | _ =>
    constructor <;> simp only [isFinished_concat, dispatches_concat, openVoids_concat,
      SchedulerCommand.update, SchedulerCommand.isComplete, SchedulerCommand.isVoid,
      SchedulerCommand.isDispatch] <;> split_ifs <;> simp_all

theorem tallies_ofLog (stage : String) (log : SchedulerLog) :
    Tallies stage log ((SchedulerState.ofLog log).record stage) := by
  induction log using List.reverseRecOn with
  | nil =>
    have hnone : ((SchedulerState.ofLog []).record stage).status = none := rfl
    exact ⟨by simp [hnone, isFinished], rfl, rfl⟩
  | append_singleton log entry ih =>
    rw [SchedulerState.record_ofLog_append]
    exact ih.next entry

theorem effectiveDispatches_toNat (record : StageRecord) :
    record.effectiveDispatches.toNat =
      record.dispatchCount.toNat - record.voidedDispatches.toNat := by
  unfold StageRecord.effectiveDispatches
  split_ifs with h
  · exact UInt32.toNat_sub_of_le _ _ h
  · rw [UInt32.le_iff_toNat_le] at h
    show 0 = _
    omega

theorem effectiveDispatches_le_max (state : SchedulerState) (stage : String) :
    (state.record stage).effectiveDispatches ≤ state.maxEffectiveDispatches := by
  unfold SchedulerState.maxEffectiveDispatches SchedulerState.record SchedulerState.get
  cases hget : state.stages.get? stage with
  | none => exact UInt32.zero_le
  | some record =>
    have hmem : record.effectiveDispatches ∈
        state.stages.values.map StageRecord.effectiveDispatches :=
      List.mem_map_of_mem (List.mem_map.mpr
        ⟨(stage, record), (BTreeMap.get?_eq_some_iff _).mp hget, rfl⟩)
    obtain ⟨most, hmost⟩ := Option.isSome_iff_exists.mp (List.isSome_max?_of_mem hmem)
    rw [hmost]
    exact (List.max?_eq_some_iff.mp hmost).2 _ hmem

/-- The counter is exact exactly where, as `u32`, the dispatches up to the last void are as many as
    the voids that found the stage unfinished, and those since fit on top. -/
theorem effectiveDispatches_exact_iff (stage : String) (log : SchedulerLog) :
    CountsExactly stage log ↔ (isFinished stage log = false →
      (dispatches stage log - sinceVoid stage log) % 2 ^ 32 = openVoids stage log % 2 ^ 32
        ∧ openVoids stage log % 2 ^ 32 + sinceVoid stage log < 2 ^ 32) := by
  obtain ⟨hdone, hcount, hvoided⟩ := tallies_ofLog stage log
  have hmax := effectiveDispatches_le_max (SchedulerState.ofLog log) stage
  rw [UInt32.le_iff_toNat_le] at hmax
  have hsince : sinceVoid stage log ≤ dispatches stage log := sinceVoid_le_dispatches
  unfold CountsExactly
  rw [Ne, hdone, Bool.not_eq_true]
  refine imp_congr_right fun _ => ?_
  rw [effectiveDispatches_toNat] at hmax ⊢
  rw [UInt32.le_iff_toNat_le, hcount, hvoided, UInt32.toNat_ofNat', UInt32.toNat_ofNat'] at *
  omega

/-- Two passes of reconciliation are committed before the first void is applied. The dispatch after
    them does not count. -/
theorem void_counted_twice :
    ∃ run, HaRun ["a", "b", "c"] HaCluster.NoPendingDispatch run
      ∧ StateMachineSafe ["a", "b", "c"] (run.map HaCluster.raft)
      ∧ ∃ c ∈ run, (c.nodes "a").raft.committedEntries.map (sinceVoid "s") = some 1
        ∧ ((c.nodes "a").state.record "s").status = some .dispatched
        ∧ ((c.nodes "a").state.record "s").effectiveDispatches = 0 :=
  haRun_of_events (haElection ++ .call "a" (.requestDispatch "s" "p" none) ::
    haRound 0 [⟨1, .dispatch "s" "p" none⟩] ++
    [.call "a" (.commitReconcile [.redispatch "s"]),
      .call "a" (.commitReconcile [.redispatch "s"])] ++
    haRound 1 [⟨1, .voidDispatch "s" "no live owner and no committed result"⟩,
      ⟨1, .voidDispatch "s" "no live owner and no committed result"⟩] ++
    .call "a" (.requestDispatch "s" "q" none) ::
    haRound 3 [⟨1, .dispatch "s" "q" none⟩]) (by decide +kernel)

/-! ## Finished stages -/

/-- After a completion every longer part of the log leaves the stage done, with one hash. -/
def StaysDone (stage : String) (log : SchedulerLog) : Prop :=
  ∀ shorter longer, shorter <+: longer → longer <+: log →
    (∃ entry ∈ shorter, ∃ hash, entry.command = .complete stage hash) →
    ((SchedulerState.ofLog longer).record stage).status = some .done
      ∧ ((SchedulerState.ofLog longer).record stage).contentHash
        = ((SchedulerState.ofLog shorter).record stage).contentHash

/-- No entry after a completion dispatches the stage or completes it with another hash. -/
def Undisturbed (stage : String) (log : SchedulerLog) : Prop :=
  ∀ before term hash after, log = before ++ ⟨term, .complete stage hash⟩ :: after →
    ∀ entry ∈ after, entry.command.isDispatch stage = false
      ∧ ∀ other, entry.command = .complete stage other → other = hash

theorem record_complete (before : SchedulerLog) (term : Term)
    (stage hash : String) :
    (SchedulerState.ofLog (before ++ [⟨term, .complete stage hash⟩])).record stage =
      { (SchedulerState.ofLog before).record stage with
        status := some .done, contentHash := some hash } := by
  rw [SchedulerState.record_ofLog_append]
  exact if_pos rfl

/-- The other arms of `apply` each keep a finished record's status and hash. -/
theorem record_of_undisturbed (before after : SchedulerLog) (term : Term)
    {hash : String} (h : ∀ entry ∈ after, entry.command.isDispatch stage = false
      ∧ ∀ other, entry.command = .complete stage other → other = hash) :
    ((SchedulerState.ofLog (before ++ ⟨term, .complete stage hash⟩ :: after)).record stage).status
        = some .done
      ∧ ((SchedulerState.ofLog (before ++ ⟨term, .complete stage hash⟩ :: after)).record
        stage).contentHash = some hash := by
  induction after using List.reverseRecOn with
  | nil => simp [record_complete]
  | append_singleton after entry ih =>
    have ih := ih fun e he => h e (List.mem_append_left _ he)
    obtain ⟨hdispatch, hcomplete⟩ := h entry (by simp)
    rw [← List.cons_append, ← List.append_assoc, SchedulerState.record_ofLog_append]
    split_ifs with hstage
    swap
    · exact ih
    obtain ⟨entryTerm, command⟩ := entry
    cases command with
    | dispatch s peer expected => exact absurd hstage (of_decide_eq_false hdispatch)
    | complete s other =>
      have hs : s = stage := hstage
      exact ⟨rfl, congrArg some (hcomplete other (by rw [hs]))⟩
    | _ => simp [SchedulerCommand.update, ih]

/-- A finished stage stays finished exactly where nothing disturbs it. -/
theorem done_stays_iff (stage : String) (log : SchedulerLog) :
    StaysDone stage log ↔ Undisturbed stage log := by
  constructor
  · rintro h before term hash after rfl entry hmem
    obtain ⟨mid, rest, rfl⟩ := List.append_of_mem hmem
    have hfirst := h (before ++ [⟨term, .complete stage hash⟩])
      (before ++ ⟨term, .complete stage hash⟩ :: mid) (by simp) (by simp) (by simp)
    have hnext := h (before ++ ⟨term, .complete stage hash⟩ :: mid)
      ((before ++ ⟨term, .complete stage hash⟩ :: mid) ++ [entry]) (by simp) (by simp)
      ⟨⟨term, .complete stage hash⟩, by simp, hash, rfl⟩
    rw [hfirst.2, record_complete, SchedulerState.record_ofLog_append] at hnext
    obtain ⟨entryTerm, command⟩ := entry
    refine ⟨Bool.eq_false_iff.mpr fun hdispatch => ?_, ?_⟩
    · rw [if_pos (SchedulerCommand.stage_of_isDispatch hdispatch)] at hnext
      cases command with
      | dispatch => exact absurd hnext.1 (by simp [SchedulerCommand.update])
      | _ => exact absurd hdispatch (by simp [SchedulerCommand.isDispatch])
    · rintro other rfl
      exact Option.some.inj (by simpa [SchedulerCommand.stage, SchedulerCommand.update]
        using hnext.2)
  · rintro h shorter longer ⟨more, rfl⟩ ⟨rest, rfl⟩ ⟨⟨term, command⟩, hmem, hash, rfl⟩
    obtain ⟨before, mid, rfl⟩ := List.append_of_mem hmem
    have hall := h before term hash (mid ++ more ++ rest) (by simp)
    have hshorter := record_of_undisturbed before mid term fun entry he =>
      hall entry (by simp [he])
    have hlonger := record_of_undisturbed before (mid ++ more) term fun entry he =>
      hall entry (List.mem_append_left _ he)
    rw [List.append_assoc, List.cons_append]
    exact ⟨hlonger.1, hlonger.2.trans hshorter.2.symm⟩

/-- The completion is on its way when the stage is requested, and the dispatch lands behind it. -/
theorem done_is_dispatched :
    ∃ run, HaRun ["a", "b", "c"] (fun _ _ => True) run
      ∧ StateMachineSafe ["a", "b", "c"] (run.map HaCluster.raft)
      ∧ ∃ c ∈ run, (c.nodes "a").raft.committedEntries
          = some [⟨1, .complete "s" "h"⟩, ⟨1, .dispatch "s" "p" none⟩]
        ∧ ((c.nodes "a").state.record "s").status = some .dispatched :=
  haRun_of_events (haElection ++ .call "a" (.recordComplete "s" "h") ::
    .call "a" (.requestDispatch "s" "p" none) ::
    haRound 0 [⟨1, .complete "s" "h"⟩, ⟨1, .dispatch "s" "p" none⟩]) (by decide +kernel)

end Blut.Raft
