/-
  Sequences of moves.

  A program takes several moves of one member at a time. `Acts` is such a sequence: it says what
  became of the member's own part by the states at its ends, and that the others' parts stayed.
  The invariants hold along it, those that need honest acknowledgements where these are honest.
-/
import Blut.Lib.Replication.Commitment

namespace Blut.Lib.Replication

variable {M E : Type} {termOf : E → ℕ} {members : List M}

/-! ## Invariants together -/

/-- The invariants that need no honesty. -/
structure Elected (termOf : E → ℕ) (members : List M) (s : State M E) : Prop where
  voting : Voting members s
  leading : Leading termOf s

/-- All of them. -/
structure Safe (termOf : E → ℕ) (members : List M) (s : State M E) : Prop extends
    Elected termOf members s where
  safety : Safety termOf members s
  committing : Committing termOf members s

theorem Safe.empty : Safe termOf members (State.empty : State M E) :=
  ⟨⟨Voting.empty, Leading.empty⟩, Safety.empty, Committing.empty⟩

/-- Nothing said is taken back, over any number of moves. -/
structure Extends (s s' : State M E) : Prop where
  stood : s.stood ⊆ s'.stood
  cast : s.cast ⊆ s'.cast
  led : s.led ⊆ s'.led
  offers : s.offers ⊆ s'.offers
  acks : s.acks ⊆ s'.acks

variable {s s' s'' : State M E} {w v : M} {honest : Prop}

theorem Grows.extends (h : Grows s s') : Extends s s' :=
  ⟨h.stood, h.cast, h.led, h.offers, h.acks⟩

theorem Extends.refl (s : State M E) : Extends s s :=
  ⟨subset_rfl, subset_rfl, subset_rfl, subset_rfl, subset_rfl⟩

theorem Extends.trans (h : Extends s s') (h' : Extends s' s'') : Extends s s'' where
  stood := h.stood.trans h'.stood
  cast := h.cast.trans h'.cast
  led := h.led.trans h'.led
  offers := h.offers.trans h'.offers
  acks := h.acks.trans h'.acks

theorem Same.refl (s : State M E) (w : M) : Same s s w := ⟨rfl, rfl, rfl, rfl, rfl⟩

theorem Same.trans (h : Same s s' w) (h' : Same s' s'' w) : Same s s'' w where
  term := h'.term.trans h.term
  ballot := h'.ballot.trans h.ballot
  role := h'.role.trans h.role
  log := h'.log.trans h.log
  commit := h'.commit.trans h.commit

variable [DecidableEq M]

theorem Elected.step (h : Elected termOf members s) (hstep : Step termOf members v s s') :
    Elected termOf members s' :=
  ⟨h.voting.step hstep, h.leading.step h.voting hstep⟩

theorem Safe.step (h : Safe termOf members s) (hstep : Step termOf members v s s')
    (hhonest : Honest s s') : Safe termOf members s' ∧ ∀ w, s.committed w <+: s'.committed w := by
  obtain ⟨hcommitting, hmono⟩ := h.committing.step h.safety h.leading h.voting hstep
  exact ⟨⟨h.toElected.step hstep, h.safety.step h.leading h.voting hstep hhonest, hcommitting⟩,
    hmono⟩

/-! ## Moves of one member -/

/-- A sequence of moves of `v`, with honest acknowledgements where `honest` holds. -/
inductive Acts (termOf : E → ℕ) (members : List M) (honest : Prop) (v : M) :
    State M E → State M E → Prop
  | none (s : State M E) : Acts termOf members honest v s s
  | next {s s' s'' : State M E} (h : Acts termOf members honest v s s')
      (hstep : Step termOf members v s' s'') (hhonest : honest → Honest s' s'') :
    Acts termOf members honest v s s''

section

variable (h : Acts termOf members honest v s s')
include h

/-- A move that acknowledges nothing is honest. -/
theorem Acts.move (hstep : Step termOf members v s' s'') (hacks : s''.acks = s'.acks) :
    Acts termOf members honest v s s'' :=
  h.next hstep fun _ _ _ _ hm => Or.inl (hacks ▸ hm)

theorem Acts.trans (h' : Acts termOf members honest v s' s'') :
    Acts termOf members honest v s s'' := by
  induction h' with
  | none => exact h
  | next _ hstep hhonest ih => exact ih.next hstep hhonest

theorem Acts.extends : Extends s s' := by
  induction h with
  | none => exact Extends.refl s
  | next _ hstep _ ih => exact ih.trans hstep.grows.extends

theorem Acts.same (hw : w ≠ v) : Same s s' w := by
  induction h with
  | none => exact Same.refl s w
  | next _ hstep _ ih => exact ih.trans (hstep.same hw)

theorem Acts.elected (hs : Elected termOf members s) :
    Elected termOf members s' := by
  induction h with
  | none => exact hs
  | next _ hstep _ ih => exact ih.step hstep

end

/-- Along honest moves nothing committed is lost. -/
theorem Acts.safe (h : Acts termOf members True v s s') (hs : Safe termOf members s) :
    Safe termOf members s' ∧ (∀ w, s.committed w <+: s'.committed w)
      ∧ ∀ t P, Agreed termOf members s t P → Agreed termOf members s' t P := by
  induction h with
  | none => exact ⟨hs, fun _ => List.prefix_refl _, fun _ _ hP => hP⟩
  | next _ hstep hhonest ih =>
    obtain ⟨hsafe, hmono, hagreed⟩ := ih
    obtain ⟨hsafe', hmono'⟩ := hsafe.step hstep (hhonest trivial)
    exact ⟨hsafe', fun w => (hmono w).trans (hmono' w),
      fun t P hP => (hagreed t P hP).mono hstep.grows le_rfl⟩

end Blut.Lib.Replication
