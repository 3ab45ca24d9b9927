/-
  The replicated scheduler state (`raft/state.rs`).

  A committed command changes the record of one stage. The counters of a record are `u32`; they
  wrap as in a release build (a debug build panics there).
  `SchedulerState.ofLog` is the state that a log stands for; applying a longer log to the state of
  a shorter one gives the state of the longer one (`applyPrefix_ofLog`).
-/
import Blut.Raft.Consensus

namespace Blut.Raft

open Blut.Lib

inductive StageStatus where
  | queued
  | dispatched
  | running
  | done
  | failed
  deriving DecidableEq, Repr

inductive SchedulerCommand where
  | enqueue (stage : String)
  | dispatch (stage peer : String) (expected : Option String)
  | running (stage peer : String)
  | complete (stage contentHash : String)
  | fail (stage reason : String)
  | cloudJob (stage jobId : String)
  | voidDispatch (stage reason : String)
  deriving DecidableEq, Repr

structure StageRecord where
  status : Option StageStatus := none
  peer : Option String := none
  expected : Option String := none
  contentHash : Option String := none
  cloudJob : Option String := none
  dispatchCount : UInt32 := 0
  voidedDispatches : UInt32 := 0
  deriving DecidableEq, Repr

structure SchedulerState where
  stages : BTreeMap String StageRecord
  applied : Nat

namespace SchedulerCommand

/-- The stage whose record the command changes. -/
def stage : SchedulerCommand → String
  | .enqueue stage => stage
  | .dispatch stage _ _ => stage
  | .running stage _ => stage
  | .complete stage _ => stage
  | .fail stage _ => stage
  | .cloudJob stage _ => stage
  | .voidDispatch stage _ => stage

/-- The arms of `apply`, on the record of the command's stage. -/
def update (record : StageRecord) : SchedulerCommand → StageRecord
  | .enqueue _ =>
    if record.status = none then { record with status := some .queued } else record
  | .dispatch _ peer expected =>
    { record with
      status := some .dispatched
      peer := some peer
      expected := if expected.isSome then expected else record.expected
      dispatchCount := record.dispatchCount + 1 }
  | .running _ peer =>
    -- a late report does not resurrect a finished stage
    if record.status = some .done ∨ record.status = some .failed then record
    else { record with status := some .running, peer := some peer }
  | .complete _ contentHash =>
    { record with status := some .done, contentHash := some contentHash }
  | .fail _ _ =>
    if record.status = some .done then record else { record with status := some .failed }
  | .cloudJob _ jobId => { record with cloudJob := some jobId }
  | .voidDispatch _ _ =>
    if record.status = some .done then record
    else { record with
      status := some .queued
      peer := none
      voidedDispatches := record.voidedDispatches + 1 }

def isDispatch (stage : String) : SchedulerCommand → Bool
  | .dispatch stage' _ _ => stage' = stage
  | _ => false

theorem stage_of_isDispatch {stage : String} {command : SchedulerCommand}
    (h : command.isDispatch stage = true) : command.stage = stage := by
  cases command with
  | dispatch s peer expected => exact of_decide_eq_true h
  | _ => cases h

def isVoid (stage : String) : SchedulerCommand → Bool
  | .voidDispatch stage' _ => stage' = stage
  | _ => false

def isComplete (stage : String) : SchedulerCommand → Bool
  | .complete stage' _ => stage' = stage
  | _ => false

def isFail : SchedulerCommand → Bool
  | .fail _ _ => true
  | _ => false

end SchedulerCommand

abbrev SchedulerLog := List (LogEntry SchedulerCommand)

namespace SchedulerState

def new : SchedulerState := { stages := BTreeMap.empty, applied := 0 }

def get (state : SchedulerState) (stage : String) : Option StageRecord := state.stages.get? stage

/-- `entry(stage).or_default()`. -/
def record (state : SchedulerState) (stage : String) : StageRecord := (state.get stage).getD {}

def apply (state : SchedulerState) (command : SchedulerCommand) : SchedulerState :=
  { state with
    stages := state.stages.insert command.stage (command.update (state.record command.stage)) }

def applyNext (state : SchedulerState) (entry : LogEntry SchedulerCommand) : SchedulerState :=
  { state.apply entry.command with applied := state.applied + 1 }

/-- Entries that were applied before are skipped by their count. -/
def applyPrefix (state : SchedulerState) (committed : SchedulerLog) :
    SchedulerState :=
  (committed.drop state.applied).foldl applyNext state

def isUnresolved (record : StageRecord) : Bool :=
  record.status = some .dispatched || record.status = some .running

/-- Stages with a committed dispatch and no committed result. -/
def unresolved (state : SchedulerState) : List String :=
  (state.stages.entries.filter fun entry => isUnresolved entry.2).map Prod.fst

/-- The state a log stands for. -/
def ofLog (log : SchedulerLog) : SchedulerState := log.foldl applyNext new

/-! ## Applying a log -/

theorem applied_foldl (log : SchedulerLog) (state : SchedulerState) :
    (log.foldl applyNext state).applied = state.applied + log.length := by
  induction log generalizing state with
  | nil => rfl
  | cons entry log ih =>
    rw [List.foldl_cons, ih, List.length_cons]
    show state.applied + 1 + log.length = _
    omega

theorem applied_ofLog (log : SchedulerLog) : (ofLog log).applied = log.length := by
  unfold ofLog
  rw [applied_foldl]
  exact Nat.zero_add _

theorem ofLog_append (log rest : SchedulerLog) :
    ofLog (log ++ rest) = rest.foldl applyNext (ofLog log) := by
  unfold ofLog
  rw [List.foldl_append]

/-- Handing over a longer committed log applies what is new in it. -/
theorem applyPrefix_ofLog {log longer : SchedulerLog} (h : log <+: longer) :
    (ofLog log).applyPrefix longer = ofLog longer := by
  obtain ⟨rest, rfl⟩ := h
  unfold applyPrefix
  rw [applied_ofLog, List.drop_left, ofLog_append]

/-- The record after one more entry. -/
theorem record_applyNext (state : SchedulerState) (entry : LogEntry SchedulerCommand)
    (stage : String) :
    (state.applyNext entry).record stage =
      if entry.command.stage = stage then entry.command.update (state.record stage)
      else state.record stage := by
  unfold record get
  show ((BTreeMap.insert _ _ _).get? stage).getD _ = _
  rw [BTreeMap.get?_insert]
  by_cases hstage : stage = entry.command.stage
  · rw [if_pos hstage, if_pos hstage.symm, hstage]
    rfl
  · rw [if_neg hstage, if_neg (Ne.symm hstage)]

theorem record_ofLog_append (log : SchedulerLog)
    (entry : LogEntry SchedulerCommand) (stage : String) :
    (ofLog (log ++ [entry])).record stage =
      if entry.command.stage = stage then entry.command.update ((ofLog log).record stage)
      else (ofLog log).record stage := by
  rw [ofLog_append]
  exact record_applyNext _ _ _

end SchedulerState

/-! ## Dispatches since the last void -/

/-- How often the stage was dispatched since it was last voided. -/
def sinceVoid (stage : String) (log : SchedulerLog) : Nat :=
  log.foldl (fun n entry =>
    if entry.command.isVoid stage then 0
    else if entry.command.isDispatch stage then n + 1 else n) 0

theorem sinceVoid_concat (stage : String) (log : SchedulerLog)
    (entry : LogEntry SchedulerCommand) :
    sinceVoid stage (log ++ [entry]) =
      if entry.command.isVoid stage then 0
      else if entry.command.isDispatch stage then sinceVoid stage log + 1
      else sinceVoid stage log := by
  unfold sinceVoid
  rw [List.foldl_append]
  rfl

variable {stage : String}

/-- Without a void in between the dispatches add up. -/
theorem sinceVoid_append (log : SchedulerLog)
    {rest : SchedulerLog}
    (hrest : ∀ entry ∈ rest, entry.command.isVoid stage = false) : sinceVoid stage (log ++ rest) =
      sinceVoid stage log + rest.countP fun entry => entry.command.isDispatch stage := by
  induction rest using List.reverseRecOn with
  | nil => simp
  | append_singleton rest entry ih =>
    have hlast := hrest entry (by simp)
    rw [← List.append_assoc, sinceVoid_concat, hlast, List.countP_append,
      ih fun e he => hrest e (List.mem_append_left _ he)]
    rw [if_neg Bool.false_ne_true]
    by_cases hdispatch : entry.command.isDispatch stage = true
    · rw [if_pos hdispatch, List.countP_singleton, if_pos hdispatch]
      omega
    · rw [if_neg hdispatch, List.countP_singleton, if_neg hdispatch]
      omega

theorem sinceVoid_eq_zero {log rest : SchedulerLog}
    (h : sinceVoid stage log = 0) (hrest : ∀ entry ∈ rest, entry.command.isDispatch stage = false) :
    sinceVoid stage (log ++ rest) = 0 := by
  induction rest using List.reverseRecOn with
  | nil =>
    rw [List.append_nil]
    exact h
  | append_singleton rest entry ih =>
    rw [← List.append_assoc, sinceVoid_concat, hrest entry (by simp),
      ih fun e he => hrest e (List.mem_append_left _ he), if_neg Bool.false_ne_true, ite_self]

/-- A stage that is dispatched, running or done. -/
def StageRecord.isTaken (record : StageRecord) : Bool :=
  match record.status with
  | some .dispatched | some .running | some .done => true
  | _ => false

theorem isTaken_update {record : StageRecord} {command : SchedulerCommand}
    (hfail : command.isFail = false) (hvoid : command.isVoid stage = false)
    (hstage : command.stage = stage) (h : record.isTaken = true ∨ command.isDispatch stage = true) :
    (command.update record).isTaken = true := by
  unfold StageRecord.isTaken at *
  cases command with
  | enqueue s =>
    rcases h with h | h
    · have hsome : record.status ≠ none := by
        intro hnone
        rw [hnone] at h
        cases h
      simp only [SchedulerCommand.update]
      rw [if_neg hsome]
      exact h
    · cases h
  | dispatch s peer expected => rfl
  | running s peer =>
    simp only [SchedulerCommand.update]
    split_ifs with hended
    · rcases h with h | h
      · exact h
      · cases h
    · rfl
  | complete s hash => rfl
  | fail s reason => cases hfail
  | cloudJob s job =>
    rcases h with h | h
    · exact h
    · cases h
  | voidDispatch s reason =>
    simp only [SchedulerCommand.stage] at hstage
    simp [SchedulerCommand.isVoid, hstage] at hvoid

/-- A stage dispatched since its last void shows it in its record. -/
theorem isTaken_of_sinceVoid {log : SchedulerLog}
    (hfail : ∀ entry ∈ log, entry.command.isFail = false) (h : 0 < sinceVoid stage log) :
    ((SchedulerState.ofLog log).record stage).isTaken = true := by
  induction log using List.reverseRecOn with
  | nil => exact absurd h (lt_irrefl 0)
  | append_singleton log entry ih =>
    have ih := ih fun e he => hfail e (List.mem_append_left _ he)
    have hlast := hfail entry (by simp)
    rw [sinceVoid_concat] at h
    by_cases hvoid : entry.command.isVoid stage = true
    · rw [if_pos hvoid] at h
      exact absurd h (lt_irrefl 0)
    rw [if_neg hvoid] at h
    by_cases hdispatch : entry.command.isDispatch stage = true
    · have hstage := SchedulerCommand.stage_of_isDispatch hdispatch
      rw [SchedulerState.record_ofLog_append, if_pos hstage]
      exact isTaken_update hlast (by simpa using hvoid) hstage (Or.inr hdispatch)
    · rw [if_neg hdispatch] at h
      rw [SchedulerState.record_ofLog_append]
      split_ifs with hstage
      · exact isTaken_update hlast (by simpa using hvoid) hstage (Or.inl (ih h))
      · exact ih h

end Blut.Raft
