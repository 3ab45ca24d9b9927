/-
  The lifecycle of one execution attempt (`framework/execution.rs`: `ExecutionLifecycle`).

  A call works on the state under the lock and answers with a snapshot or an error. An assignment
  is current only with the highest generation seen, and a new one is above it
  (`Lifecycle.Advances`), so an assignment that was given up stays out (`assignment_fenced`).
-/
import Blut.Framework.CacheKey

namespace Blut.Framework

/-! ## The code -/

inductive ExecutionMode where
  | «local» | p2p | cloud

inductive ExecutionPhase where
  | preparing | uploadingInput | queued | assigned | running | uploadingOutput | downloadingOutput
  deriving DecidableEq

structure Assignment where
  owner : String
  generation : Nat
  deriving DecidableEq

variable {Failure : Type}

/-- What an execution delivers; of a stored artifact, the content id in its manifest. -/
structure ExecutionArtifact where
  contentId : Digest
  stored : Option Digest

inductive ExecutionTerminal (Failure : Type) where
  | succeeded (artifact : ExecutionArtifact) (wallTimeMs : Nat)
  | failed (failure : Failure)
  | cancelled (reason : String)
  | timedOut (phase : ExecutionPhase) (deadlineUnixMs : Nat)

structure ExecutionSnapshot (Failure : Type) where
  mode : ExecutionMode
  phase : ExecutionPhase
  assignment : Option Assignment
  terminal : Option (ExecutionTerminal Failure)

/-- `LifecycleState`: what the lock protects. -/
structure Lifecycle (Failure : Type) where
  snapshot : ExecutionSnapshot Failure
  maxGeneration : Nat

/-- `LifecycleError`, as far as the two calls return it. -/
inductive LifecycleError where
  | alreadyTerminal
  | illegalTransition (start next : ExecutionPhase)
  | assignmentRequired (phase : ExecutionPhase)
  | unexpectedAssignment (phase : ExecutionPhase)
  | staleAssignment
  | identityMismatch

def phaseRequiresAssignment : ExecutionPhase → Bool
  | .assigned | .running | .uploadingOutput | .downloadingOutput => true
  | _ => false

def legalTransition (start next : ExecutionPhase) : Bool :=
  start = next || match start, next with
    | .preparing, .uploadingInput | .preparing, .queued | .preparing, .assigned
    | .preparing, .running | .uploadingInput, .queued | .uploadingInput, .assigned
    | .uploadingInput, .running | .queued, .assigned | .assigned, .uploadingInput
    | .assigned, .running | .running, .queued | .running, .uploadingOutput
    | .running, .downloadingOutput | .uploadingOutput, .downloadingOutput => true
    | _, _ => false

namespace Lifecycle

def new (mode : ExecutionMode) : Lifecycle Failure := ⟨⟨mode, .preparing, none, none⟩, 0⟩

/-- The candidate is behind the current assignment, or another one of its generation. -/
def behindCurrent (state : Lifecycle Failure) (candidate : Assignment) : Bool :=
  state.snapshot.assignment.any fun current => candidate.generation < current.generation
    || candidate.generation = current.generation && candidate ≠ current

/-- The candidate is behind the highest generation, or has it without being current. -/
def behindMax (state : Lifecycle Failure) (candidate : Assignment) : Bool :=
  candidate.generation < state.maxGeneration
    || candidate.generation = state.maxGeneration
      && state.snapshot.assignment.all fun current => current ≠ candidate

/-- The state after a call and its answer. -/
abbrev Answer (Failure : Type) :=
  Lifecycle Failure × Except LifecycleError (ExecutionSnapshot Failure)

/-- Queueing gives the assignment up; otherwise one that is left out is inherited. -/
def nextAssignment (state : Lifecycle Failure) (next : ExecutionPhase)
    (assignment : Option Assignment) : Option Assignment :=
  if next = .queued then none else assignment.or state.snapshot.assignment

def transition (state : Lifecycle Failure) (next : ExecutionPhase)
    (assignment : Option Assignment) : Answer Failure :=
  if state.snapshot.terminal.isSome then (state, .error .alreadyTerminal)
  else if !legalTransition state.snapshot.phase next then
    (state, .error (.illegalTransition state.snapshot.phase next))
  else if next = .queued ∧ assignment.isSome then (state, .error (.unexpectedAssignment next))
  else
    let chosen := state.nextAssignment next assignment
    if phaseRequiresAssignment next ∧ chosen.isNone then (state, .error (.assignmentRequired next))
    else if chosen.any state.behindCurrent then (state, .error .staleAssignment)
    else if chosen.any state.behindMax then (state, .error .staleAssignment)
    else
      let snapshot := { state.snapshot with phase := next, assignment := chosen }
      (⟨snapshot, chosen.elim state.maxGeneration (max state.maxGeneration ·.generation)⟩,
        .ok snapshot)

/-- A success whose stored artifact has another content id. -/
def identityMismatch : ExecutionTerminal Failure → Bool
  | .succeeded artifact _ => artifact.stored.any (· ≠ artifact.contentId)
  | _ => false

def finish (state : Lifecycle Failure) (assignment : Option Assignment)
    (terminal : ExecutionTerminal Failure) : Answer Failure :=
  if state.snapshot.terminal.isSome then (state, .error .alreadyTerminal)
  else if assignment.any fun expected => state.snapshot.assignment ≠ some expected then
    (state, .error .staleAssignment)
  else if identityMismatch terminal then (state, .error .identityMismatch)
  else
    let snapshot := { state.snapshot with terminal := some terminal }
    ({ state with snapshot }, .ok snapshot)

inductive Call (Failure : Type) where
  | transition (next : ExecutionPhase) (assignment : Option Assignment)
  | finish (assignment : Option Assignment) (terminal : ExecutionTerminal Failure)

def call (state : Lifecycle Failure) : Call Failure → Answer Failure
  | .transition next assignment => state.transition next assignment
  | .finish assignment terminal => state.finish assignment terminal

def run (state : Lifecycle Failure) (calls : List (Call Failure)) : Lifecycle Failure :=
  calls.foldl (fun state c => (state.call c).1) state

/-! ## What one call does -/

variable {state later : Lifecycle Failure}

/-- The current assignment has the highest generation, and the phases that need one have one. -/
structure Invariant (state : Lifecycle Failure) : Prop where
  generation : ∀ a, state.snapshot.assignment = some a → a.generation = state.maxGeneration
  assigned : phaseRequiresAssignment state.snapshot.phase → state.snapshot.assignment.isSome

/-- From the first state to the second: an assignment that comes in is above all before it. -/
structure Advances (state later : Lifecycle Failure) : Prop where
  maxGeneration : state.maxGeneration ≤ later.maxGeneration
  fresh : ∀ a, later.snapshot.assignment = some a →
    state.snapshot.assignment = some a ∨ state.maxGeneration < a.generation

theorem Advances.rfl : Advances state state := ⟨le_rfl, fun _ => Or.inl⟩

theorem Advances.trans {middle : Lifecycle Failure} (h : Advances state middle)
    (h' : Advances middle later) : Advances state later where
  maxGeneration := h.maxGeneration.trans h'.maxGeneration
  fresh a ha := (h'.fresh a ha).elim (h.fresh a) fun hgen => .inr (h.maxGeneration.trans_lt hgen)

/-- A call fails and leaves the state as it is, or the execution was not over and it moves on. -/
theorem call_cases (state : Lifecycle Failure) (c : Call Failure) :
    (∃ e, state.call c = (state, .error e)) ∨
    (state.snapshot.terminal = none ∧ (state.call c).2 = .ok (state.call c).1.snapshot ∧
      Advances state (state.call c).1 ∧ (state.Invariant → (state.call c).1.Invariant)) := by
  cases c with
  | transition next assignment =>
    simp only [call, transition]
    generalize state.nextAssignment next assignment = chosen
    split_ifs with hterminal _ _ hneeded _ hbehind <;> try exact .inl ⟨_, rfl⟩
    refine .inr ⟨by simpa using hterminal, rfl, ?_⟩
    cases chosen with
    | none => exact ⟨⟨le_rfl, by simp⟩, fun _ => ⟨by simp, by simpa using hneeded⟩⟩
    | some candidate =>
      -- the check against the highest generation leaves the current assignment or a higher one
      have hmax : state.maxGeneration ≤ candidate.generation ∧
          (state.snapshot.assignment = some candidate ∨
            state.maxGeneration < candidate.generation) := by
        cases h : state.snapshot.assignment <;> grind [behindMax]
      refine ⟨⟨le_max_left _ _, fun a ha => ?_⟩, fun _ => ⟨fun a ha => ?_, fun _ => rfl⟩⟩ <;>
        cases ha
      · exact hmax.2
      · exact (max_eq_right hmax.1).symm
  | finish assignment terminal =>
    simp only [call, finish]
    split_ifs with hterminal <;> try exact .inl ⟨_, rfl⟩
    exact .inr ⟨by simpa using hterminal, rfl, ⟨le_rfl, fun _ => Or.inl⟩,
      fun h => ⟨h.generation, h.assigned⟩⟩

theorem call_terminal (h : state.snapshot.terminal.isSome) (c : Call Failure) :
    state.call c = (state, .error .alreadyTerminal) := by
  cases c <;> simp [call, transition, finish, h]

theorem finish_ok {given : Option Assignment} {terminal : ExecutionTerminal Failure}
    {snapshot : ExecutionSnapshot Failure} (h : (state.finish given terminal).2 = .ok snapshot) :
    (state.finish given terminal).1.snapshot.terminal = some terminal ∧
      ∀ a, given = some a → state.snapshot.assignment = some a := by
  simp only [finish] at h ⊢
  split_ifs at h ⊢ with _ hgiven
  exact ⟨rfl, by rintro a rfl; simpa using hgiven⟩

/-! ## Runs -/

theorem run_advances (calls : List (Call Failure)) :
    Advances state (state.run calls) ∧ (state.Invariant → (state.run calls).Invariant) := by
  induction calls generalizing state with
  | nil => exact ⟨.rfl, id⟩
  | cons c calls ih =>
    obtain ⟨hadv, hinv⟩ : Advances state (state.call c).1 ∧
        (state.Invariant → (state.call c).1.Invariant) := by
      obtain ⟨e, h⟩ | ⟨-, -, h⟩ := state.call_cases c
      · exact h ▸ ⟨.rfl, id⟩
      · exact h
    exact ⟨hadv.trans ih.1, ih.2 ∘ hinv⟩

theorem run_terminal (h : state.snapshot.terminal.isSome) (calls : List (Call Failure)) :
    state.run calls = state := by
  induction calls with
  | nil => rfl
  | cons c calls ih => simpa only [run, List.foldl_cons, call_terminal h] using ih

/-- Along every sequence of calls on a fresh lifecycle: a call that fails changes nothing; a phase
    that needs an assignment has one; a finish succeeds for the current assignment only, and every
    call after it fails; a different later assignment has a higher generation; and one that is no
    longer current never is again and cannot finish. -/
theorem assignment_fenced (mode : ExecutionMode) (calls : List (Call Failure)) :
    let state := (new mode).run calls
    (∀ c e, (state.call c).2 = .error e → (state.call c).1 = state) ∧
    (phaseRequiresAssignment state.snapshot.phase → state.snapshot.assignment.isSome) ∧
    (∀ given terminal snapshot, (state.finish given terminal).2 = .ok snapshot →
      (∀ a, given = some a → state.snapshot.assignment = some a) ∧
      ∀ after c, (state.finish given terminal).1.run after = (state.finish given terminal).1 ∧
        ((state.finish given terminal).1.run after).call c =
          ((state.finish given terminal).1, .error .alreadyTerminal)) ∧
    ∀ a, state.snapshot.assignment = some a → ∀ after,
      (∀ b, (state.run after).snapshot.assignment = some b → b ≠ a → a.generation < b.generation) ∧
      ((state.run after).snapshot.assignment ≠ some a → ∀ rest terminal,
        ((state.run after).run rest).snapshot.assignment ≠ some a ∧
        ∀ snapshot, (((state.run after).run rest).finish (some a) terminal).2 ≠ .ok snapshot) := by
  intro state
  have hinv : state.Invariant :=
    (run_advances calls).2 ⟨by simp [new], by simp [new, phaseRequiresAssignment]⟩
  refine ⟨fun c e h => ?_, hinv.assigned, fun given terminal snapshot h =>
    ⟨(finish_ok h).2, ?_⟩, ?_⟩
  · obtain ⟨_, hcall⟩ | ⟨-, hok, -⟩ := state.call_cases c
    · rw [hcall]
    · cases h.symm.trans hok
  · intro after c
    have hover := Option.isSome_of_eq_some (finish_ok h).1
    rw [run_terminal hover]
    exact ⟨rfl, call_terminal hover c⟩
  · intro a ha after
    have hafter : Advances state (state.run after) := (run_advances after).1
    refine ⟨fun b hb hne => ?_, fun hgone rest terminal => ?_⟩
    · obtain h | h := hafter.fresh b hb
      · cases ha.symm.trans h; exact absurd rfl hne
      · exact hinv.generation a ha ▸ h
    · have hout : ((state.run after).run rest).snapshot.assignment ≠ some a := by
        intro hback
        obtain h | h := (run_advances rest).1.fresh a hback
        · exact hgone h
        · exact absurd (hinv.generation a ha ▸ h) hafter.maxGeneration.not_gt
      exact ⟨hout, fun _ h => hout ((finish_ok h).2 a rfl)⟩

end Lifecycle

end Blut.Framework
