/-
  The file-drop sensor and its memory of dispatched events (`trigger.rs`, `sensord.rs`).

  The daemon is one thread: it polls the spool, dispatches each event it has not seen, archives
  and reclaims. Files come and go under it, a child process writes an admission marker, and the
  daemon may be restarted at any point, so what it does is cut into the steps between which one of
  these can happen. `log` and `markers` are on disk (`.seen`, `.admitted/`), `seen` is in memory.
  The digest is a parameter whose texts are event ids. File operations do not fail.
-/
import Mathlib.Data.String.Basic
import Blut.Lib.BTreeMap
import Blut.Lib.Codec

namespace Blut.Sensor

open Blut.Lib

/-! ## Events -/

/-- 64 lowercase hexadecimal characters. -/
def isEventId (id : String) : Bool :=
  id.utf8ByteSize == 64 && id.toList.all fun c => c.isDigit || ('a' ≤ c && c ≤ 'f')

/-- The hexadecimal digest. -/
structure Digest where
  hex : List (Fin 256) → String
  isEventId_hex : ∀ bytes, isEventId (hex bytes) = true

/-- The digest of the parts, each behind its length. -/
def eventId (digest : Digest) (parts : List String) : String :=
  digest.hex (utf8Bytes "blut.trigger.event.v1" ++
    parts.flatMap fun p => leBytes 8 p.utf8ByteSize ++ utf8Bytes p)

structure TriggerEvent where
  id : String
  source : String
  deriving DecidableEq

/-- `dir` is watched for files with the extension `ext`, or for any. -/
structure FileDropTrigger where
  dir : String
  ext : Option String

/-- What follows the last dot of a name that does not start with it. -/
def extension (name : String) : Option String :=
  let tail := name.toList.reverse.takeWhile (· ≠ '.')
  if tail.length + 1 < name.toList.length then some (String.ofList tail.reverse) else none

/-- Names that start with a dot are the daemon's own. -/
def FileDropTrigger.watches (trigger : FileDropTrigger) (name : String) : Bool :=
  name.toList.head? != some '.' &&
    match trigger.ext with
    | some want => extension name == some want
    | none => true

/-- The files of the spool by name. -/
abbrev Spool := BTreeMap String (List (Fin 256))

def FileDropTrigger.event (trigger : FileDropTrigger) (digest : Digest) (name : String)
    (content : List (Fin 256)) : TriggerEvent :=
  let path := trigger.dir ++ "/" ++ name
  ⟨eventId digest [path, digest.hex content], path⟩

def FileDropTrigger.poll (trigger : FileDropTrigger) (digest : Digest) (spool : Spool) :
    List TriggerEvent :=
  (spool.entries.filter fun entry => trigger.watches entry.1).map fun entry =>
    trigger.event digest entry.1 entry.2

def observableIds (trigger : FileDropTrigger) (digest : Digest) (spool : Spool) : Finset String :=
  ((trigger.poll digest spool).map TriggerEvent.id).toFinset

/-- A dispatched event's file leaves the watched directory, whatever it holds by now. -/
def archiveDispatched (trigger : FileDropTrigger) (event : TriggerEvent) (spool : Spool) : Spool :=
  match spool.keys.find? fun name => trigger.dir ++ "/" ++ name = event.source with
  | some name => spool.erase name
  | none => spool

/-! ## The seen store -/

/-- `SeenStore::load`: the lines of the log and the admission markers. -/
def load (log : List String) (markers : Finset String) : Finset String :=
  log.toFinset ∪ markers.filter fun id => isEventId id = true

/-- `SeenStore::insert`: the set and the log. -/
def insertSeen (id : String) (seen : Finset String) (log : List String) :
    Finset String × List String :=
  if id ∈ seen then (seen, log) else (insert id seen, log ++ [id])

/-- The ids `retain_observable` forgets. -/
def unobservable (seen observable : Finset String) : Finset String :=
  seen.filter fun id => id ∉ observable

/-! ## The daemon -/

/-- What the daemon is in the middle of. -/
inductive Phase where
  | idle
  /-- `drive_once` has polled; these events are still to be looked at. -/
  | driving (pending : List TriggerEvent)
  /-- An event was admitted and its marker is there; the `.seen` line is not. -/
  | admitted (event : TriggerEvent) (pending : List TriggerEvent)
  /-- A sweep has polled. -/
  | sweeping (observable : Finset String)
  /-- A sweep has rewritten the log; the markers of these ids are still there. -/
  | reclaiming (dropped : Finset String)
  deriving DecidableEq

inductive DispatchOutcome where
  | admitted
  | refused
  deriving DecidableEq

/-- `admissions` and `refusals` are for the statements: every id that was admitted, one entry each
    time a child wrote its marker, and the ids whose last dispatch was refused. -/
structure Daemon where
  spool : Spool
  log : List String
  markers : Finset String
  seen : Finset String
  phase : Phase
  admissions : List String
  refusals : Finset String

def Daemon.fresh : Daemon := ⟨.empty, [], ∅, ∅, .idle, [], ∅⟩

inductive Event where
  /-- A file is dropped or rewritten. -/
  | drop (name : String) (content : List (Fin 256))
  | remove (name : String)
  | archive (event : TriggerEvent)
  /-- A child nobody waits for any more is admitted. -/
  | acknowledge (id : String)
  | drive
  /-- The next event of the pass, with what the launch comes to. -/
  | dispatch (outcome : DispatchOutcome)
  | append
  | sweep
  | retain
  | reclaim
  | restart

/-- `acknowledge_admission_from_env`: the recipe of an admitted child creates the marker, and fails
    when there is one. -/
def acknowledgeAdmission (id : String) (d : Daemon) : Daemon :=
  if isEventId id = true ∧ id ∉ d.markers then
    { d with markers := insert id d.markers, admissions := d.admissions ++ [id] }
  else d

@[simp] theorem acknowledgeAdmission_phase (id : String) (d : Daemon) :
    (acknowledgeAdmission id d).phase = d.phase := by
  unfold acknowledgeAdmission
  split_ifs <;> rfl

@[simp] theorem acknowledgeAdmission_spool (id : String) (d : Daemon) :
    (acknowledgeAdmission id d).spool = d.spool := by
  unfold acknowledgeAdmission
  split_ifs <;> rfl

@[simp] theorem acknowledgeAdmission_refusals (id : String) (d : Daemon) :
    (acknowledgeAdmission id d).refusals = d.refusals := by
  unfold acknowledgeAdmission
  split_ifs <;> rfl

/-- A launch finds the marker of an earlier admission and starts no child, or ends as it ends. -/
def launch (markers : Finset String) (id : String) (outcome : DispatchOutcome) : DispatchOutcome :=
  if id ∈ markers then .admitted else outcome

/-- One turn of the loop of `drive_once`. -/
def dispatchNext (outcome : DispatchOutcome) (event : TriggerEvent) (pending : List TriggerEvent)
    (d : Daemon) : Daemon :=
  if event.id ∈ d.seen then { d with phase := .driving pending }
  else
    match launch d.markers event.id outcome with
    | .admitted =>
      { acknowledgeAdmission event.id { d with refusals := d.refusals.erase event.id } with
        phase := .admitted event pending }
    | .refused =>
      { d with
        phase := .driving pending
        refusals := insert event.id d.refusals }

/-- A step the daemon is not at does nothing. -/
def Daemon.next (trigger : FileDropTrigger) (digest : Digest) (d : Daemon) : Event → Daemon
  | .drop name content => { d with spool := d.spool.insert name content }
  | .remove name => { d with spool := d.spool.erase name }
  | .archive event => { d with spool := archiveDispatched trigger event d.spool }
  | .acknowledge id => acknowledgeAdmission id d
  | .drive =>
    match d.phase with
    | .idle => { d with phase := .driving (trigger.poll digest d.spool) }
    | _ => d
  | .dispatch outcome =>
    match d.phase with
    | .driving (event :: pending) => dispatchNext outcome event pending d
    | .driving [] => { d with phase := .idle }
    | _ => d
  | .append =>
    match d.phase with
    | .admitted event pending =>
      let (seen, log) := insertSeen event.id d.seen d.log
      { d with seen := seen, log := log, phase := .driving pending }
    | _ => d
  | .sweep =>
    match d.phase with
    | .idle => { d with phase := .sweeping (observableIds trigger digest d.spool) }
    | _ => d
  | .retain =>
    match d.phase with
    | .sweeping observable =>
      let dropped := unobservable d.seen observable
      if dropped = ∅ then { d with phase := .idle }
      else
        let seen := d.seen \ dropped
        { d with seen := seen, log := seen.sort (· ≤ ·), phase := .reclaiming dropped }
    | _ => d
  | .reclaim =>
    match d.phase with
    | .reclaiming dropped => { d with markers := d.markers \ dropped, phase := .idle }
    | _ => d
  | .restart => { d with seen := load d.log d.markers, phase := .idle }

def Daemon.after (trigger : FileDropTrigger) (digest : Digest) (d : Daemon) (history : List Event) :
    Daemon :=
  history.foldl (Daemon.next trigger digest) d

end Blut.Sensor
