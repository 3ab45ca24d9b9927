/-
  The cross-process lock of the GPU (`scheduler_lock.rs`: `acquire_exclusive_at`, `read_lock`,
  `write_lock`, `ExclusiveLock::drop`).

  Every process runs the code in atomic file steps and may be killed between two of them. A process
  removes the lock of a dead one in a step of its own, after it has read it and tested the pid; by
  then the path may hold the lock of another process that recovered the same file. Where no such
  step meets a newer lock, the lock excludes (`lock_excludes`).
-/
import Mathlib.Tactic

namespace Blut.Scheduler

/-! ## The code -/

inductive LockKind where
  | training
  | exclusiveInference
  deriving DecidableEq

structure LockInfo where
  holder : String
  kind : LockKind
  pid : Nat
  sinceUnix : Nat
  deriving DecidableEq

/-- The file at the path: who created it, and what its body parses to. It is created empty. -/
structure LockFile where
  owner : Nat
  body : Option LockInfo
  deriving DecidableEq

/-- The errors of `acquire_exclusive_at`. -/
inductive Refusal where
  | held (existing : LockInfo)
  | raced (existing : LockInfo)
  | createRace
  deriving DecidableEq

/-- The arguments of a call. -/
structure Call where
  holder : String
  kind : LockKind
  deriving DecidableEq

/-- The next file step of a process: in `acquire_exclusive_at`, in `write_lock`, or in the `drop` of
    its lock. -/
inductive Place where
  | idle (refused : Option Refusal)
  | reading (call : Call)
  | testing (call : Call) (existing : LockInfo)
  | unlinking (call : Call) (existing : LockInfo)
  | creating (call : Call)
  | rereading
  | retesting (existing : LockInfo)
  | writing (info : LockInfo)
  | holding (info : LockInfo)
  | dropping (info : LockInfo)
  | releasing (info : LockInfo)
  | dead
  deriving DecidableEq

structure World where
  file : Option LockFile
  place : Nat → Place

/-- `pid_alive`. Pids are not reused. -/
def World.alive (w : World) (pid : Nat) : Bool := w.place pid ≠ .dead

/-- `read_lock`. -/
def World.readLock (w : World) : Option LockInfo := w.file.bind LockFile.body

/-- One step of a process: the file afterwards, and where the process goes on. -/
def World.advance (w : World) (pid now : Nat) : Place → Option LockFile × Place
  | .reading call =>
    match w.readLock with
    | some existing => (w.file, .testing call existing)
    | none => (w.file, .creating call)
  | .testing call existing =>
    if w.alive existing.pid then (w.file, .idle (some (.held existing)))
    else (w.file, .unlinking call existing)
  | .unlinking call _ => (none, .creating call)
  | .creating call =>
    match w.file with
    | some file => (some file, .rereading)
    | none => (some ⟨pid, none⟩, .writing ⟨call.holder, call.kind, pid, now⟩)
  | .rereading =>
    match w.readLock with
    | some existing => (w.file, .retesting existing)
    | none => (w.file, .idle (some .createRace))
  | .retesting existing =>
    (w.file, .idle (some (if w.alive existing.pid then .raced existing else .createRace)))
  | .writing info =>
    -- the handle is of the file this process created, wherever the path leads by now
    (w.file.map fun file => if file.owner = pid then ⟨pid, some info⟩ else file, .holding info)
  | .dropping info =>
    match w.readLock with
    | some disk =>
      if disk.pid = info.pid ∧ disk.sinceUnix = info.sinceUnix then (w.file, .releasing info)
      else (w.file, .idle none)
    | none => (w.file, .idle none)
  | .releasing _ => (none, .idle none)
  | place => (w.file, place)

inductive Act where
  | acquire (pid : Nat) (call : Call)
  | step (pid now : Nat)
  | drop (pid : Nat)
  | kill (pid : Nat)

def Act.pid : Act → Nat
  | .acquire pid _ | .step pid _ | .drop pid | .kill pid => pid

/-- What an act makes of the file and of the place of its process. -/
def World.effect (w : World) : Act → Option LockFile × Place
  | .acquire pid call =>
    match w.place pid with
    | .idle _ => (w.file, .reading call)
    | place => (w.file, place)
  | .step pid now => w.advance pid now (w.place pid)
  | .drop pid =>
    match w.place pid with
    | .holding info => (w.file, .dropping info)
    | place => (w.file, place)
  | .kill _ => (w.file, .dead)

def World.next (w : World) (act : Act) : World where
  file := (w.effect act).1
  place := Function.update w.place act.pid (w.effect act).2

def World.after (w : World) (acts : List Act) : World := acts.foldl World.next w

/-- No process has started, and the path is empty or holds the lock of a dead process. -/
structure World.Initial (w : World) : Prop where
  places : ∀ pid, w.place pid = .idle none ∨ w.place pid = .dead
  file : ∀ file, w.file = some file → ∃ info, file = ⟨info.pid, some info⟩ ∧
    w.alive info.pid = false

/-- The process has an `ExclusiveLock`, and is alive. -/
def World.Holds (w : World) (pid : Nat) : Prop :=
  ∃ info, w.place pid = .holding info ∨ w.place pid = .dropping info ∨ w.place pid = .releasing info

/-- A process that removes a stale lock removes the one it has read, or nothing. -/
def World.removesStale (w : World) : Act → Bool
  | .step pid _ =>
    match w.place pid with
    | .unlinking _ existing => w.file.all fun file => file.body = some existing
    | _ => true
  | _ => true

/-- And so in every act of a run. -/
def World.obeys : World → List Act → Bool
  | _, [] => true
  | w, act :: acts => w.removesStale act && (w.next act).obeys acts

/-! ## The invariant -/

/-- The file that a process relies on. -/
def Place.relies (pid : Nat) : Place → Option LockFile
  | .writing _ => some ⟨pid, none⟩
  | .holding info | .dropping info | .releasing info => some ⟨pid, some info⟩
  | _ => none

structure World.Invariant (w : World) : Prop where
  relied : ∀ pid file, (w.place pid).relies pid = some file → w.file = some file
  body : ∀ file info, w.file = some file → file.body = some info → info.pid = file.owner
  writing : ∀ pid info, w.place pid = .writing info → info.pid = pid
  stale : ∀ pid call existing, w.place pid = .unlinking call existing → w.alive existing.pid = false

variable {w : World} {act : Act} {pid now : Nat}

theorem World.Initial.invariant (h : w.Initial) : w.Invariant where
  relied pid file hfile := by
    rcases h.places pid with hplace | hplace <;> simp [hplace, Place.relies] at hfile
  body file info hfile hbody := by
    obtain ⟨info', rfl, -⟩ := h.file file hfile
    rw [Option.some.inj hbody]
  writing pid info hplace := by
    rcases h.places pid with hidle | hidle <;> simp [hidle] at hplace
  stale pid call existing hplace := by
    rcases h.places pid with hidle | hidle <;> simp [hidle] at hplace

theorem Place.relies_owner {place : Place} {file : LockFile} (h : place.relies pid = some file) :
    file.owner = pid ∧ place ≠ .dead := by
  cases place with
  | writing _ | holding _ | dropping _ | releasing _ => exact ⟨by rw [← Option.some.inj h], nofun⟩
  | _ => exact nomatch h

/-- An act of another process that meets the condition leaves the file that a process relies on. -/
theorem World.Invariant.untouched (h : w.Invariant) (hact : w.removesStale act = true)
    {file : LockFile} (hrelies : (w.place pid).relies pid = some file) (hother : act.pid ≠ pid) :
    (w.effect act).1 = w.file := by
  obtain ⟨howner, halive⟩ := Place.relies_owner hrelies
  have hfile := h.relied pid file hrelies
  have hsole : ∀ other file', (w.place other).relies other = some file' → other = pid := by
    intro other file' hrelies'
    rw [← howner, ← (Place.relies_owner hrelies').1,
      Option.some.inj (hfile.symm.trans (h.relied other file' hrelies'))]
  cases act with
  | acquire other call => simp only [World.effect]; split <;> rfl
  | drop other => simp only [World.effect]; split <;> rfl
  | kill other => rfl
  | step other now =>
    simp only [World.effect]
    cases hplace : w.place other with
    | unlinking call existing =>
      -- the pid it has tested is that of the owner, who lives
      have hbody : file.body = some existing := by simpa [World.removesStale, hplace, hfile]
        using hact
      have hdead := h.stale other call existing hplace
      rw [h.body file existing hfile hbody, howner] at hdead
      simp [World.alive, halive] at hdead
    | creating call => simp [World.advance, hfile]
    | writing info | releasing info => exact absurd (hsole other _ (by rw [hplace]; rfl)) hother
    | reading _ | rereading => cases hread : w.readLock <;> simp [World.advance, hread]
    | testing _ existing => cases hlive : w.alive existing.pid <;> simp [World.advance, hlive]
    | dropping _ =>
      simp only [World.advance]
      split
      · split_ifs <;> rfl
      · rfl
    | retesting _ | idle _ | holding _ | dead => rfl

/-- The dead stay dead. -/
theorem World.alive_next {other : Nat} (h : w.alive other = false) :
    (w.next act).alive other = false := by
  simp only [World.alive, ne_eq, decide_not, Bool.not_eq_false', decide_eq_true_eq] at h ⊢
  show Function.update w.place act.pid (w.effect act).2 other = .dead
  by_cases hsame : other = act.pid
  · subst hsame
    rw [Function.update_self]
    cases act <;> simp_all [World.effect, World.advance, Act.pid]
  · rw [Function.update_of_ne hsame, h]

/-- What an act leaves of the file, and for its own process. -/
theorem World.Invariant.own (h : w.Invariant) (act : Act) :
    (∀ file, (w.effect act).2.relies act.pid = some file → (w.effect act).1 = some file) ∧
      (∀ file info, (w.effect act).1 = some file → file.body = some info → info.pid = file.owner) ∧
      (∀ info, (w.effect act).2 = .writing info → info.pid = act.pid) ∧
      ∀ call existing, (w.effect act).2 = .unlinking call existing →
        w.alive existing.pid = false := by
  have hrelied := h.relied act.pid
  have hbody := h.body
  have hwriting := h.writing act.pid
  have hstale := h.stale act.pid
  cases act with
  | acquire pid call | drop pid =>
    simp only [World.effect, Act.pid] at *
    cases hplace : w.place pid <;> simp_all [Place.relies]
  | kill pid => exact ⟨nofun, hbody, nofun, nofun⟩
  | step pid now =>
    simp only [World.effect, Act.pid] at *
    cases hplace : w.place pid with
    | writing info =>
      rw [hplace] at hrelied
      have hfile : (w.advance pid now (.writing info)).1 = some ⟨pid, some info⟩ := by
        simp [World.advance, hrelied _ rfl]
      refine ⟨fun file hfile' => hfile.trans hfile',
        fun file info' hfile' hinfo => ?_, nofun, nofun⟩
      cases hfile.symm.trans hfile'
      cases hinfo
      exact hwriting info hplace
    | creating call =>
      cases hfile : w.file with
      | some file => simp_all [World.advance, Place.relies]
      | none =>
        simp only [World.advance, hfile]
        refine ⟨fun file hfile' => hfile', fun file info hfile' hinfo => ?_,
          fun info hinfo => ?_, nofun⟩
        · cases hfile'
          cases hinfo
        · cases hinfo
          rfl
    | reading _ | rereading => cases hread : w.readLock <;> simp_all [World.advance, Place.relies]
    | testing _ existing =>
      cases hlive : w.alive existing.pid <;> simp_all [World.advance, Place.relies]
    | dropping info =>
      simp only [World.advance]
      split
      · split_ifs <;> simp_all [Place.relies]
      · simp_all [Place.relies]
    | _ => simp_all [World.advance, Place.relies]

theorem World.Invariant.next (h : w.Invariant) (hact : w.removesStale act = true) :
    (w.next act).Invariant := by
  obtain ⟨hrelied, hbody, hwriting, hstale⟩ := h.own act
  have hplace : ∀ pid, (w.next act).place pid =
      if pid = act.pid then (w.effect act).2 else w.place pid := fun pid => by
    simp [World.next, Function.update_apply]
  refine ⟨fun pid file hfile => ?_, hbody, fun pid info hinfo => ?_,
    fun pid call existing hunlink => ?_⟩
  · rw [hplace] at hfile
    split_ifs at hfile with hsame
    · exact hrelied file (hsame ▸ hfile)
    · exact (h.untouched hact hfile (Ne.symm hsame)).trans (h.relied pid file hfile)
  · rw [hplace] at hinfo
    split_ifs at hinfo with hsame
    · exact hsame ▸ hwriting info hinfo
    · exact h.writing pid info hinfo
  · rw [hplace] at hunlink
    split_ifs at hunlink with hsame
    · exact World.alive_next (hstale call existing hunlink)
    · exact World.alive_next (h.stale pid call existing hunlink)

/-! ## Runs -/

theorem World.Invariant.after {acts : List Act} (h : w.Invariant) (hacts : w.obeys acts = true) :
    (w.after acts).Invariant := by
  induction acts generalizing w with
  | nil => exact h
  | cons act acts ih =>
    rw [World.obeys, Bool.and_eq_true] at hacts
    exact ih (h.next hacts.1) hacts.2

theorem World.Holds.relies (h : w.Holds pid) :
    ∃ info, (w.place pid).relies pid = some ⟨pid, some info⟩ := by
  obtain ⟨info, hplace | hplace | hplace⟩ := h
  all_goals exact ⟨info, by rw [hplace]; rfl⟩

/-- In every run in which a process that removes a stale lock removes the one it has read, at most
    one live process has the lock, and no act of another touches its file. -/
theorem lock_excludes (hinitial : w.Initial) {acts : List Act} (hacts : w.obeys acts = true) :
    (∀ p q, (w.after acts).Holds p → (w.after acts).Holds q → p = q) ∧
      ∀ p act, (w.after acts).Holds p → act.pid ≠ p → (w.after acts).removesStale act = true →
        ∃ info, (w.after acts).file = some ⟨p, some info⟩ ∧
          ((w.after acts).next act).file = some ⟨p, some info⟩ := by
  have h := hinitial.invariant.after hacts
  refine ⟨fun p q hp hq => ?_, fun p act hp hother hact => ?_⟩
  · obtain ⟨info, hinfo⟩ := hp.relies
    obtain ⟨info', hinfo'⟩ := hq.relies
    have hsame := (h.relied p _ hinfo).symm.trans (h.relied q _ hinfo')
    exact congrArg LockFile.owner (Option.some.inj hsame)
  · obtain ⟨info, hinfo⟩ := hp.relies
    have hfile := h.relied p _ hinfo
    exact ⟨info, hfile, (h.untouched hact hinfo hother).trans hfile⟩

/-! ## Two processes recover one lock -/

/-- The lock of process 9, which is dead, and two processes. -/
def staleWorld : World where
  file := some ⟨9, some ⟨"lamu-train", .training, 9, 100⟩⟩
  place pid := if pid = 9 then .dead else .idle none

theorem staleWorld_initial : staleWorld.Initial where
  places pid := by
    by_cases h : pid = 9 <;> simp [staleWorld, h]
  file file hfile := by
    cases hfile
    exact ⟨⟨"lamu-train", .training, 9, 100⟩, rfl, by decide⟩

/-- One acquisition of a stale lock, in five steps. -/
def recovery (pid : Nat) : List Act :=
  .acquire pid ⟨"lamu-api", .exclusiveInference⟩ :: List.replicate 5 (.step pid 200)

theorem lock_excludes_recovery : (staleWorld.after (recovery 1)).Holds 1 ∧
    ∀ q, (staleWorld.after (recovery 1)).Holds q → 1 = q := by
  have hholds : (staleWorld.after (recovery 1)).Holds 1 := ⟨_, Or.inl rfl⟩
  exact ⟨hholds, fun q hq => (lock_excludes staleWorld_initial (by decide)).1 1 q hholds hq⟩

/-- Process 2 has read the lock of process 9 before process 1 replaced it, and removes the lock of
    process 1. -/
theorem two_processes_hold : staleWorld.Initial ∧ ∃ acts,
    (staleWorld.after acts).Holds 1 ∧ (staleWorld.after acts).Holds 2 :=
  ⟨staleWorld_initial, (recovery 2).take 3 ++ recovery 1 ++ List.replicate 3 (.step 2 200),
    ⟨_, Or.inl rfl⟩, ⟨_, Or.inl rfl⟩⟩

end Blut.Scheduler
