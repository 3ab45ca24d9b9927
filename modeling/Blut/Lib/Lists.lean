/-
  Facts about lists that the models share.
-/
import Mathlib.Tactic

namespace Blut.Lib

variable {α β : Type}

/-- A list of lookups that all succeed. -/
theorem getElem?_filterMap_isSome {f : α → Option β} {xs : List α}
    (h : ∀ x ∈ xs, (f x).isSome = true) (i : Nat) : (xs.filterMap f)[i]? = xs[i]?.bind f := by
  induction xs generalizing i with
  | nil => simp
  | cons x xs ih =>
    obtain ⟨y, hy⟩ := Option.isSome_iff_exists.mp (h x List.mem_cons_self)
    rw [List.filterMap_cons, hy]
    cases i with
    | zero => simp [hy]
    | succ i => simpa using ih (fun z hz => h z (List.mem_cons_of_mem _ hz)) i

theorem idxOf_range {i n : Nat} (h : i < n) : (List.range n).idxOf i = i := by
  have hget := List.nodup_range.idxOf_getElem i (by simpa using h)
  rwa [List.getElem_range] at hget

theorem sum_length_filter_le [DecidableEq β] (f : α → β) (s : Finset β) (xs : List α) :
    ∑ k ∈ s, (xs.filter fun x => f x = k).length ≤ xs.length := by
  induction xs with
  | nil => simp
  | cons x xs ih =>
    have hsplit (k : β) : ((x :: xs).filter fun x => f x = k).length =
        (if f x = k then 1 else 0) + (xs.filter fun x => f x = k).length := by
      by_cases h : f x = k <;> simp [h, Nat.add_comm]
    have hone : (∑ k ∈ s, if f x = k then 1 else 0) ≤ 1 := by
      rw [Finset.sum_ite_eq]
      split <;> simp
    rw [Finset.sum_congr rfl fun k _ => hsplit k, Finset.sum_add_distrib, List.length_cons]
    omega

/-! ## Lookups -/

section Lookups

variable {κ : Type} [DecidableEq κ] {l : List (κ × α)} {k : κ} {v : α}

theorem lookup_cons_eq (k : κ) (e : κ × α) (l : List (κ × α)) :
    (e :: l).lookup k = if k = e.1 then some e.2 else l.lookup k := by
  rw [List.lookup_cons]
  by_cases h : k = e.1
  · simp [h]
  · simp [h, beq_eq_false_iff_ne.mpr h]

theorem lookup_eq_none : l.lookup k = none ↔ k ∉ l.map Prod.fst := by
  simp only [List.lookup_eq_none_iff, bne_iff_ne, List.mem_map, not_exists, not_and]
  exact forall₂_congr fun _ _ => ne_comm

theorem mem_of_lookup (h : l.lookup k = some v) : (k, v) ∈ l := by
  obtain ⟨before, after, rfl, -⟩ := List.lookup_eq_some_iff.mp h
  simp

theorem lookup_eq_some (hl : (l.map Prod.fst).Nodup) : l.lookup k = some v ↔ (k, v) ∈ l := by
  refine ⟨mem_of_lookup, fun h => ?_⟩
  cases hv : l.lookup k with
  | none => exact absurd (List.mem_map_of_mem h) (lookup_eq_none.mp hv)
  | some v' => rw [Prod.mk.inj (List.inj_on_of_nodup_map hl (mem_of_lookup hv) h rfl) |>.2]

end Lookups

/-! ## Runs from events -/

section Replay

variable {σ E : Type} (step : σ → E → Option σ) (allowed : σ → E → Prop)
  [∀ s event, Decidable (allowed s event)]

/-- The states that a list of events leads through, the latest first. -/
def replay : List σ → List E → Option (List σ)
  | [], _ => none
  | run, [] => some run
  | s :: past, event :: events =>
    if allowed s event then do
      let next ← step s event
      replay (next :: s :: past) events
    else none

variable {step allowed} {P : List σ → Prop}
  (hstep : ∀ {s next : σ} {past : List σ} (event : E), P (s :: past) → allowed s event →
    step s event = some next → P (next :: s :: past))
include hstep

/-- What every allowed step keeps holds of the states that the events lead through. -/
theorem replay_induction {run run' : List σ} {events : List E} (hrun : P run)
    (h : replay step allowed run events = some run') : P run' := by
  induction events generalizing run with
  | nil =>
    cases run with
    | nil => exact absurd h (by simp [replay])
    | cons s past =>
      obtain rfl := Option.some.inj h
      exact hrun
  | cons event events ih =>
    cases run with
    | nil => exact absurd h (by simp [replay])
    | cons s past =>
      unfold replay at h
      split_ifs at h with hallowed
      obtain ⟨next, hnext, h⟩ := Option.bind_eq_some_iff.mp h
      exact ih (hstep event hrun hallowed hnext) h

/-- The same, with what holds in the last state. -/
theorem replay_last {p : σ → Prop} [DecidablePred p] {run : List σ} {events : List E} (hrun : P run)
    (h : ((replay step allowed run events).bind List.head?).any (p ·) = true) :
    ∃ run', P run' ∧ ∃ s ∈ run', p s := by
  obtain ⟨s, hs, hp⟩ := (Option.any_eq_true _ _).mp h
  obtain ⟨run', hrun', hs⟩ := Option.bind_eq_some_iff.mp hs
  exact ⟨run', replay_induction hstep hrun hrun', s, List.mem_of_head? hs, of_decide_eq_true hp⟩

end Replay

/-! ## Occurrences -/

theorem filterMap_range_getElem? (xs : List α) :
    (List.range xs.length).filterMap (fun i => xs[i]?) = xs := by
  induction xs with
  | nil => rfl
  | cons x xs ih =>
    rw [List.length_cons, List.range_succ_eq_map]
    show x :: List.filterMap _ (List.map _ _) = _
    rw [List.filterMap_map]
    exact congrArg (x :: ·) ih

/-- A value that also occurs outside some places occurs more often in the whole. -/
theorem count_lt_of_outside [DecidableEq α] {xs : List α} {places : List Nat} {m : Nat} {x : α}
    (hnodup : places.Nodup) (hrange : ∀ i ∈ places, i < xs.length) (hm : m ∉ places)
    (hx : xs[m]? = some x) : (places.filterMap fun i => xs[i]?).count x < xs.count x := by
  have hmem : (m :: places) ⊆ List.range xs.length := by
    intro i hi
    rw [List.mem_range]
    rcases List.mem_cons.mp hi with rfl | hi
    · exact (List.getElem?_eq_some_iff.mp hx).1
    · exact hrange i hi
  obtain ⟨l, hperm, hsub⟩ := List.subperm_of_subset (List.nodup_cons.mpr ⟨hm, hnodup⟩) hmem
  have hle := (hsub.filterMap fun i => xs[i]?).count_le x
  rw [(hperm.filterMap _).count_eq, filterMap_range_getElem?, List.filterMap_cons_some hx,
    List.count_cons_self] at hle
  exact hle

/-! ## The first element without a property -/

section Split

variable {before after before' after' : List α} {x x' : α}

theorem split_unique {p : α → Prop} (h : before ++ x :: after = before' ++ x' :: after')
    (hbefore : ∀ y ∈ before, p y) (hx : ¬ p x) (hbefore' : ∀ y ∈ before', p y) (hx' : ¬ p x') :
    before = before' ∧ x = x' ∧ after = after' := by
  classical
  have htake : ∀ {l : List α} {m : α} {l' : List α}, (∀ y ∈ l, p y) → ¬ p m →
      (l ++ m :: l').takeWhile (fun y => decide (p y)) = l := by
    intro l m l' hl hm
    rw [List.takeWhile_append_of_pos (by simpa using hl),
      List.takeWhile_cons_of_neg (by simpa using hm), List.append_nil]
  obtain rfl : before = before' := by rw [← htake hbefore hx, h, htake hbefore' hx']
  obtain ⟨rfl, rfl⟩ := List.cons.inj (List.append_cancel_left h)
  exact ⟨rfl, rfl, rfl⟩

variable {slot : α → Option β}

theorem findSome_reverse_split (hafter : ∀ y ∈ after, slot y = none) :
    (before ++ x :: after).reverse.findSome? slot =
      (slot x).or (before.reverse.findSome? slot) := by
  have hnone : after.reverse.findSome? slot = none := by
    rw [List.findSome?_eq_none_iff]
    exact fun y hy => hafter y (List.mem_reverse.mp hy)
  rw [List.reverse_append, List.reverse_cons, List.findSome?_append, List.findSome?_append, hnone,
    Option.none_or, List.findSome?_singleton]

/-- Where every element has something the last one is found. -/
theorem findSome_reverse_all (hall : ∀ y ∈ before, (slot y).isSome = true) :
    before.reverse.findSome? slot = before.getLast?.bind slot := by
  rcases List.eq_nil_or_concat before with rfl | ⟨init, last, rfl⟩
  · rfl
  · obtain ⟨v, hv⟩ := Option.isSome_iff_exists.mp (hall last (by simp))
    rw [List.concat_eq_append, List.reverse_append, List.reverse_singleton, List.singleton_append,
      List.findSome?_cons, hv, List.getLast?_concat]
    exact hv.symm

/-- What is found, without where it was found. -/
theorem findSome_slot (l : List α) :
    (l.findSome? fun y => (slot y).map fun v => (y, v)).map Prod.snd = l.findSome? slot := by
  induction l with
  | nil => rfl
  | cons y l ih =>
    rw [List.findSome?_cons, List.findSome?_cons]
    cases slot y with
    | none => exact ih
    | some v => rfl

end Split

end Blut.Lib
