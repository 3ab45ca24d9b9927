/-
  Calls on a shared state whose steps interleave.

  A call is a sequence of atomic steps on the state; between two of its steps other calls may take
  theirs. A system keeps every call that was started, with the step it is at or what it returned.
  A run is a list of events, so every interleaving is one.
-/
import Mathlib.Tactic

namespace Blut.Lib.Interleaving

variable {σ C P R : Type}

/-- Where a call is: about to take a step, or finished. -/
inductive Status (P R : Type) where
  | running (phase : P)
  | done (result : R)
  deriving DecidableEq

structure System (σ C P R : Type) where
  state : σ
  calls : List (C × Status P R)

inductive Event (C : Type) where
  | start (call : C)
  | advance (i : Nat)

/-- The phase a call starts in, and its atomic steps. -/
structure Code (σ C P R : Type) where
  first : C → P
  step : C → P → σ → σ × Status P R

variable (code : Code σ C P R)

/-- One event. A call that is finished, or was never started, does not move. -/
def System.next (sys : System σ C P R) : Event C → System σ C P R
  | .start call => { sys with calls := sys.calls ++ [(call, .running (code.first call))] }
  | .advance i =>
    match sys.calls[i]? with
    | some (call, .running phase) =>
      let (state, status) := code.step call phase sys.state
      ⟨state, sys.calls.set i (call, status)⟩
    | _ => sys

def System.after (sys : System σ C P R) (events : List (Event C)) : System σ C P R :=
  events.foldl (System.next code) sys

/-- The system that has seen no call yet. -/
def System.idle (state : σ) : System σ C P R := ⟨state, []⟩

theorem System.after_append (sys : System σ C P R) (events events' : List (Event C)) :
    sys.after code (events ++ events') = (sys.after code events).after code events' :=
  List.foldl_append

/-- All that an event can do. -/
theorem System.next_cases (sys : System σ C P R) (e : Event C) :
    (∃ call, e = .start call ∧
      sys.next code e = ⟨sys.state, sys.calls ++ [(call, .running (code.first call))]⟩) ∨
    (∃ i call phase, e = .advance i ∧ sys.calls[i]? = some (call, .running phase) ∧
      sys.next code e = ⟨(code.step call phase sys.state).1,
        sys.calls.set i (call, (code.step call phase sys.state).2)⟩) ∨
    sys.next code e = sys := by
  cases e with
  | start call => exact .inl ⟨call, rfl, rfl⟩
  | advance i =>
    match hcall : sys.calls[i]? with
    | some (call, .running phase) =>
      exact .inr (.inl ⟨i, call, phase, rfl, hcall, by simp only [System.next, hcall]⟩)
    | some (call, .done result) =>
      exact .inr (.inr (by simp only [System.next, hcall]))
    | none => exact .inr (.inr (by simp only [System.next, hcall]))

variable {sys : System σ C P R} {i : Nat} {call : C} {result : R}

/-- A property that starting an admissible call and taking a step keep holds in every state
    reached. -/
theorem System.after_induction (I : System σ C P R → Prop) (Admissible : C → Prop)
    (hstart : ∀ sys call, Admissible call → I sys →
      I ⟨sys.state, sys.calls ++ [(call, .running (code.first call))]⟩)
    (hstep : ∀ sys i call phase, sys.calls[i]? = some (call, .running phase) → I sys →
      I ⟨(code.step call phase sys.state).1,
        sys.calls.set i (call, (code.step call phase sys.state).2)⟩)
    {events : List (Event C)} (hevents : ∀ call, Event.start call ∈ events → Admissible call)
    (h : I sys) : I (sys.after code events) := by
  unfold System.after
  induction events generalizing sys with
  | nil => exact h
  | cons e events ih =>
    refine ih (fun call hcall => hevents call (List.mem_cons_of_mem _ hcall)) ?_
    obtain ⟨call, rfl, heq⟩ | ⟨i, call, phase, rfl, hcall, heq⟩ | heq :=
      sys.next_cases code e
    · rw [heq]
      exact hstart sys call (hevents call List.mem_cons_self) h
    · rw [heq]
      exact hstep sys i call phase hcall h
    · rw [heq]
      exact h

/-! ## What a call returned stays -/

/-- A step of a running call keeps the finished ones. -/
theorem mem_set_of_done {calls : List (C × Status P R)} {other : C} {phase : P}
    {status : Status P R} (hcall : calls[i]? = some (call, .running phase))
    (h : (other, .done result) ∈ calls) : (other, .done result) ∈ calls.set i (call, status) := by
  obtain ⟨j, hj⟩ := List.mem_iff_getElem?.mp h
  have hne : i ≠ j := by
    rintro rfl
    rw [hcall] at hj
    cases hj
  exact List.mem_iff_getElem?.mpr ⟨j, by rw [List.getElem?_set_ne hne, hj]⟩

theorem System.next_done (e : Event C) (h : sys.calls[i]? = some (call, .done result)) :
    (sys.next code e).calls[i]? = some (call, .done result) := by
  have hlt : i < sys.calls.length := (List.getElem?_eq_some_iff.mp h).1
  obtain ⟨started, rfl, heq⟩ | ⟨j, other, phase, rfl, hother, heq⟩ | heq :=
    sys.next_cases code e
  · rw [heq, List.getElem?_append_left hlt]
    exact h
  · have hne : j ≠ i := by
      rintro rfl
      rw [h] at hother
      cases hother
    rw [heq, List.getElem?_set_ne hne]
    exact h
  · rw [heq]
    exact h

theorem System.after_done (events : List (Event C))
    (h : sys.calls[i]? = some (call, .done result)) :
    (sys.after code events).calls[i]? = some (call, .done result) := by
  unfold System.after
  induction events generalizing sys with
  | nil => exact h
  | cons e events ih => exact ih (System.next_done code e h)

/-- If a step that does not finish a call successfully leaves the state alone, then so does every
    step of a call that fails. -/
theorem System.failed_call_quiet {Failed : R → Prop}
    (hquiet : ∀ call phase state,
      (∀ result, (code.step call phase state).2 = .done result → Failed result) →
        (code.step call phase state).1 = state)
    {before later : List (Event C)}
    (hresult : (sys.after code (before ++ .advance i :: later)).calls[i]? =
      some (call, .done result))
    (hfailed : Failed result) :
    (sys.after code (before ++ [.advance i])).state = (sys.after code before).state := by
  rw [System.after_append] at hresult ⊢
  generalize sys.after code before = mid at hresult ⊢
  have hlater : (mid.next code (.advance i)).after code later =
      mid.after code (.advance i :: later) := rfl
  show (mid.next code (.advance i)).state = mid.state
  obtain ⟨_, hstart, -⟩ | ⟨j, other, phase, hj, hother, heq⟩ | heq :=
    mid.next_cases code (.advance i)
  · cases hstart
  · cases hj
    rw [heq]
    refine hquiet other phase mid.state fun returned hdone => ?_
    have hlt : i < mid.calls.length := (List.getElem?_eq_some_iff.mp hother).1
    have hnow : (mid.next code (.advance i)).calls[i]? = some (other, .done returned) := by
      rw [heq, List.getElem?_set_self hlt, hdone]
    have hend := System.after_done code later hnow
    rw [hlater, hresult] at hend
    cases hend
    exact hfailed
  · rw [heq]

end Blut.Lib.Interleaving
