/-
  Work handed out on leases.

  A ledger says of every item whether it waits, is held under a token until some time, or is
  settled. Items are added once, taken while they wait, given back when their lease is due, and
  settled once. A history of moves tells where every item is (`Tells`, `Moves.tells`): an item is
  held under the token of its last taking exactly while it was not given back and is not settled
  (`held`, `kept`), and it is settled at most once (`settled`).
-/
import Mathlib.Tactic

namespace Blut.Lib.Leasing

variable {I A R : Type}

inductive Phase (A R : Type) where
  | waiting
  | held (token : A) (due : Nat)
  | settled (result : R)

abbrev Ledger (I A R : Type) := I → Option (Phase A R)

inductive Move (I A R : Type) where
  | add (item : I)
  | take (item : I) (token : A) (due : Nat)
  | giveBack (item : I) (now : Nat)
  | settle (item : I) (result : R)

variable [DecidableEq I]

inductive Step : Move I A R → Ledger I A R → Ledger I A R → Prop
  | add {L : Ledger I A R} {i : I} (h : L i = none) :
    Step (.add i) L (Function.update L i (some .waiting))
  | take {L : Ledger I A R} {i : I} (token : A) (due : Nat) (h : L i = some .waiting) :
    Step (.take i token due) L (Function.update L i (some (.held token due)))
  | giveBack {L : Ledger I A R} {i : I} {token : A} {due : Nat} (now : Nat)
      (h : L i = some (.held token due)) (hdue : due ≤ now) :
    Step (.giveBack i now) L (Function.update L i (some .waiting))
  | settle {L : Ledger I A R} {i : I} (result : R)
      (h : L i = some .waiting ∨ ∃ token due, L i = some (.held token due)) :
    Step (.settle i result) L (Function.update L i (some (.settled result)))

/-- The moves lead from one ledger to another. -/
inductive Moves : List (Move I A R) → Ledger I A R → Ledger I A R → Prop
  | nil (L : Ledger I A R) : Moves [] L L
  | cons {move : Move I A R} {moves : List (Move I A R)} {L L' L'' : Ledger I A R}
      (h : Step move L L') (hrest : Moves moves L' L'') : Moves (move :: moves) L L''

variable {moves history : List (Move I A R)} {L L' : Ledger I A R} {move : Move I A R} {i : I}

theorem Moves.append {moves' : List (Move I A R)} {L'' : Ledger I A R} (h : Moves moves L L')
    (h' : Moves moves' L' L'') : Moves (moves ++ moves') L L'' := by
  induction h with
  | nil => exact h'
  | cons hstep _ ih => exact Moves.cons hstep (ih h')

theorem Moves.single (h : Step move L L') : Moves [move] L L' :=
  Moves.cons h (Moves.nil L')

/-! ## Reading a history -/

def Move.taking (i : I) : Move I A R → Option (A × Nat)
  | .take item token due => if item = i then some (token, due) else none
  | _ => none

def Move.settlement (i : I) : Move I A R → Option R
  | .settle item result => if item = i then some result else none
  | _ => none

/-- Token and due time of the last taking of an item. -/
def lastTaking (i : I) (history : List (Move I A R)) : Option (A × Nat) :=
  (history.filterMap (Move.taking i)).getLast?

def settlements (i : I) (history : List (Move I A R)) : List R :=
  history.filterMap (Move.settlement i)

theorem lastTaking_concat (i : I) (history : List (Move I A R)) (move : Move I A R) :
    lastTaking i (history ++ [move]) = (move.taking i).or (lastTaking i history) := by
  unfold lastTaking
  rw [List.filterMap_append]
  cases h : move.taking i with
  | none => simp [h]
  | some taking => simp [h]

theorem settlements_concat (i : I) (history : List (Move I A R)) (move : Move I A R) :
    settlements i (history ++ [move]) = settlements i history ++ (move.settlement i).toList := by
  unfold settlements
  rw [List.filterMap_append]
  cases h : move.settlement i with
  | none => simp [h]
  | some result => simp [h]

/-- What a history says of where an item is. -/
structure Tells (history : List (Move I A R)) (i : I) (phase : Option (Phase A R)) : Prop where
  /-- what was never added is not there -/
  known : phase = none ↔ .add i ∉ history
  untouched : phase = none → lastTaking i history = none
  /-- what is held is so by its last taking -/
  held : ∀ token due, phase = some (.held token due) → lastTaking i history = some (token, due)
  unsettled : (∀ result, phase ≠ some (.settled result)) → settlements i history = []
  settled : ∀ result, phase = some (.settled result) → settlements i history = [result]
  /-- a last taking that was not given back and not settled still holds -/
  kept : ∀ token due, lastTaking i history = some (token, due) →
    (∀ now, .giveBack i now ∈ history → now < due) → settlements i history = [] →
    phase = some (.held token due)

theorem Tells.empty (i : I) : Tells ([] : List (Move I A R)) i none where
  known := ⟨fun _ => List.not_mem_nil, fun _ => rfl⟩
  untouched := fun _ => rfl
  held := fun _ _ h => nomatch h
  unsettled := fun _ => rfl
  settled := fun _ h => nomatch h
  kept := fun _ _ h => nomatch h

/-- The item of a move. -/
def Move.item : Move I A R → I
  | .add item => item
  | .take item _ _ => item
  | .giveBack item _ => item
  | .settle item _ => item

omit [DecidableEq I] in
theorem mem_concat_of_other {move' : Move I A R} (hother : move.item ≠ i) (hmove : move'.item = i) :
    move' ∈ history ++ [move] ↔ move' ∈ history := by
  constructor
  · intro h
    rcases List.mem_append.mp h with h | h
    · exact h
    · rw [List.mem_singleton.mp h] at hmove
      exact absurd hmove hother
  · exact List.mem_append_left _

theorem taking_of_other (hother : move.item ≠ i) : move.taking i = none := by
  cases move with
  | take item token due => exact if_neg hother
  | _ => rfl

theorem settlement_of_other (hother : move.item ≠ i) : move.settlement i = none := by
  cases move with
  | settle item result => exact if_neg hother
  | _ => rfl

/-- A move changes the ledger at its item only. -/
theorem Step.other (h : Step move L L') (hother : move.item ≠ i) : L' i = L i := by
  cases h <;> exact Function.update_of_ne (Ne.symm hother) _ _

theorem Tells.other {phase : Option (Phase A R)} (h : Tells history i phase)
    (hother : move.item ≠ i) : Tells (history ++ [move]) i phase := by
  have htaking : lastTaking i (history ++ [move]) = lastTaking i history := by
    rw [lastTaking_concat, taking_of_other hother, Option.none_or]
  have hsettled : settlements i (history ++ [move]) = settlements i history := by
    rw [settlements_concat, settlement_of_other hother, Option.toList_none, List.append_nil]
  constructor
  · rw [mem_concat_of_other hother rfl]
    exact h.known
  · rw [htaking]
    exact h.untouched
  · rw [htaking]
    exact h.held
  · rw [hsettled]
    exact h.unsettled
  · rw [hsettled]
    exact h.settled
  · rw [htaking, hsettled]
    intro token due htaken hback
    exact h.kept token due htaken fun now hmem =>
      hback now ((mem_concat_of_other hother rfl).mpr hmem)

/-- The item was added before any other move of it. -/
theorem Tells.mem_add {phase : Phase A R} (h : Tells history i (some phase)) (move : Move I A R) :
    .add i ∈ history ++ [move] := by
  by_contra hmem
  have hnone := h.known.mpr fun hold => hmem (List.mem_append_left _ hold)
  cases hnone

/-- One more move of the item. -/
theorem Tells.step (h : Tells history move.item (L move.item)) (hstep : Step move L L') :
    Tells (history ++ [move]) move.item (L' move.item) := by
  cases hstep with
  | @add L i hnone =>
    have huntouched := h.untouched hnone
    have hopen := h.unsettled fun result heq => nomatch hnone.symm.trans heq
    simp only [Move.item, Function.update_self]
    refine ⟨⟨(fun heq => nomatch heq),
        fun hmem => absurd (List.mem_append_right _ List.mem_cons_self) hmem⟩,
      (fun heq => nomatch heq), (fun _ _ heq => nomatch heq), fun _ => ?_,
      (fun _ heq => nomatch heq), fun token due htaken => ?_⟩
    · rw [settlements_concat]
      exact (List.append_nil _).trans hopen
    · rw [lastTaking_concat] at htaken
      exact nomatch huntouched.symm.trans htaken
  | @take L i token due hwaiting =>
    simp only [Move.item] at h ⊢
    rw [hwaiting] at h
    rw [Function.update_self]
    have hopen := h.unsettled fun result heq => nomatch heq
    have htaking : lastTaking i (history ++ [.take i token due]) = some (token, due) := by
      rw [lastTaking_concat]
      simp [Move.taking]
    refine ⟨⟨(fun heq => nomatch heq), fun hmem => absurd (h.mem_add _) hmem⟩,
      (fun heq => nomatch heq), fun token' due' heq => ?_, fun _ => ?_,
      (fun _ heq => nomatch heq), fun token' due' htaken _ _ => ?_⟩
    · cases heq
      exact htaking
    · rw [settlements_concat]
      exact (List.append_nil _).trans hopen
    · rw [htaking] at htaken
      cases htaken
      rfl
  | @giveBack L i token due now hheld hdue =>
    simp only [Move.item] at h ⊢
    rw [hheld] at h
    rw [Function.update_self]
    have hopen := h.unsettled fun result heq => nomatch heq
    have htaking := h.held token due rfl
    refine ⟨⟨(fun heq => nomatch heq), fun hmem => absurd (h.mem_add _) hmem⟩,
      (fun heq => nomatch heq), (fun _ _ heq => nomatch heq), fun _ => ?_,
      (fun _ heq => nomatch heq), fun token' due' htaken hback _ => ?_⟩
    · rw [settlements_concat]
      exact (List.append_nil _).trans hopen
    · -- this very move came when the lease was due
      rw [lastTaking_concat] at htaken
      have hsame : some (token, due) = some (token', due') := htaking.symm.trans htaken
      cases hsame
      exact absurd hdue (Nat.not_le_of_lt (hback now (by simp)))
  | @settle L i result hphase =>
    simp only [Move.item] at h ⊢
    rw [Function.update_self]
    have hopen : settlements i history = [] := by
      refine h.unsettled fun other heq => ?_
      rcases hphase with hwaiting | ⟨token, due, hheld⟩
      · exact nomatch hwaiting.symm.trans heq
      · exact nomatch hheld.symm.trans heq
    have hnow : settlements i (history ++ [.settle i result]) = [result] := by
      rw [settlements_concat, hopen]
      simp [Move.settlement]
    have hknown : .add i ∈ history ++ [.settle i result] := by
      rcases hphase with hwaiting | ⟨token, due, hheld⟩
      · rw [hwaiting] at h
        exact h.mem_add _
      · rw [hheld] at h
        exact h.mem_add _
    refine ⟨⟨(fun heq => nomatch heq), fun hmem => absurd hknown hmem⟩, (fun heq => nomatch heq),
      (fun _ _ heq => nomatch heq), fun hno => absurd rfl (hno result), fun other heq => ?_,
      fun _ _ _ _ hnone => ?_⟩
    · cases heq
      exact hnow
    · rw [hnow] at hnone
      cases hnone

theorem Moves.tells (h : ∀ i, Tells history i (L i)) (hmoves : Moves moves L L') :
    ∀ i, Tells (history ++ moves) i (L' i) := by
  induction hmoves generalizing history with
  | nil =>
    rw [List.append_nil]
    exact h
  | @cons move moves L L' L'' hstep _ ih =>
    have hnext : ∀ i, Tells (history ++ [move]) i (L' i) := by
      intro i
      by_cases hi : move.item = i
      · subst hi
        exact (h move.item).step hstep
      · rw [hstep.other hi]
        exact (h i).other hi
    have hrest := ih hnext
    rw [List.append_assoc] at hrest
    exact hrest

/-- Moves keep what is settled. -/
theorem Moves.settled (hmoves : Moves moves L L') {result : R} (h : L i = some (.settled result)) :
    L' i = some (.settled result) := by
  induction hmoves with
  | nil => exact h
  | @cons move moves L L' L'' hstep _ ih =>
    refine ih ?_
    by_cases hi : move.item = i
    · subst hi
      cases hstep with
      | add hnone => exact nomatch hnone.symm.trans h
      | take token due hwaiting => exact nomatch hwaiting.symm.trans h
      | giveBack now hheld hdue => exact nomatch hheld.symm.trans h
      | settle other hphase =>
        rcases hphase with hwaiting | ⟨token, due, hheld⟩
        · exact nomatch hwaiting.symm.trans h
        · exact nomatch hheld.symm.trans h
    · rw [hstep.other hi]
      exact h

end Blut.Lib.Leasing
