/-
  The grid sampler (`hpo/surrogate.rs`: `GridSampler`).

  A call decodes its number, modulo the number of points, with the level counts of the dimensions as
  radices. In one round every tuple of levels comes up exactly once. A product that does not fit in
  64 bits is capped, and the points before the cap are still distinct (`grid_exhaustive`).
-/
import Blut.Lib.MixedRadix
import Blut.GraphCore.Model

namespace Blut.Hpo

open Blut.Lib
open Blut.GraphCore (checkedMul)

/-! ## The code -/

/-- The dimensions of a search space, in the order of their names. -/
abbrev SearchSpace (Dist : Type) := BTreeMap String Dist

structure GridSampler where
  cursor : Nat

def GridSampler.new : GridSampler := ⟨0⟩

/-- An entry of an overlay, with the position of its level. -/
structure Pick (Value : Type) where
  name : String
  position : Nat
  value : Value

variable {Dist Value : Type} (levelsFor : Dist → List Value)

def productSize (space : SearchSpace Dist) : Nat :=
  ((space.values.map fun dist => max (levelsFor dist).length 1).foldlM checkedMul 1).getD
    (2 ^ 64 - 1)

/-- The loop of `ask`. An index out of range is `none`. -/
def decode : List (String × Dist) → Nat → Option (List (Pick Value))
  | [], _ => some []
  | (name, dist) :: dims, rem => do
    let levels := levelsFor dist
    let radix := max levels.length 1
    let position := min (rem % radix) (levels.length - 1)
    let value ← levels[position]?
    let rest ← decode dims (rem / radix)
    return ⟨name, position, value⟩ :: rest

def GridSampler.ask (space : SearchSpace Dist) (sampler : GridSampler) :
    Option (List (Pick Value)) × GridSampler :=
  let total := productSize levelsFor space
  let idx := if total = 0 then 0 else sampler.cursor % total
  (decode levelsFor space.entries idx, ⟨(sampler.cursor + 1) % 2 ^ 64⟩)

/-- What ask number `n` of a fresh sampler picks. -/
def asked (space : SearchSpace Dist) (n : Nat) : Option (List (Pick Value)) :=
  (GridSampler.ask levelsFor space
    ((fun sampler => (GridSampler.ask levelsFor space sampler).2)^[n] .new)).1

/-- The tuple of level positions of ask number `n`. -/
def askedTuple (space : SearchSpace Dist) (n : Nat) : Option (List Nat) :=
  (asked levelsFor space n).map (List.map Pick.position)

/-! ## One round -/

def levelCounts (space : SearchSpace Dist) : List Nat :=
  space.values.map fun dist => (levelsFor dist).length

theorem foldlM_checkedMul {counts : List Nat} (hpos : ∀ n ∈ counts, 0 < n) {acc : Nat}
    (hacc : acc < 2 ^ 64) : counts.foldlM checkedMul acc =
      if acc * counts.prod < 2 ^ 64 then some (acc * counts.prod) else none := by
  induction counts generalizing acc with
  | nil =>
    rw [List.prod_nil, mul_one, if_pos hacc]
    rfl
  | cons n counts ih =>
    obtain ⟨hn, hpos⟩ := List.forall_mem_cons.mp hpos
    rw [List.foldlM_cons, List.prod_cons, ← mul_assoc]
    by_cases hfits : acc * n < 2 ^ 64
    · rw [checkedMul, if_pos hfits]
      exact ih hpos hfits
    · rw [checkedMul, if_neg hfits, if_neg]
      · rfl
      · have hle := Nat.le_mul_of_pos_right (acc * n) (List.prod_pos hpos)
        omega

section

variable {levelsFor} {space : SearchSpace Dist}
  (hlevels : ∀ dist ∈ space.values, levelsFor dist ≠ [])

theorem decode_eq_some {dims : List (String × Dist)} (h : ∀ dim ∈ dims, levelsFor dim.2 ≠ [])
    (rem : Nat) : ∃ picks, decode levelsFor dims rem = some picks ∧
      picks.map Pick.position = digits (dims.map fun dim => (levelsFor dim.2).length) rem ∧
      List.Forall₂ (fun dim pick => pick.name = dim.1 ∧
        (levelsFor dim.2)[pick.position]? = some pick.value) dims picks := by
  induction dims generalizing rem with
  | nil => exact ⟨[], rfl, rfl, .nil⟩
  | cons dim dims ih =>
    obtain ⟨hne, hrest⟩ := List.forall_mem_cons.mp h
    have hpos := List.length_pos_of_ne_nil hne
    obtain ⟨picks, hpicks, hdigits, hvalues⟩ := ih hrest (rem / (levelsFor dim.2).length)
    have hlt := Nat.mod_lt rem hpos
    have hmin : min (rem % (levelsFor dim.2).length) ((levelsFor dim.2).length - 1) =
        rem % (levelsFor dim.2).length := by omega
    refine ⟨⟨dim.1, rem % (levelsFor dim.2).length, _⟩ :: picks, ?_, by simp [digits, hdigits],
      .cons ⟨rfl, List.getElem?_eq_getElem hlt⟩ hvalues⟩
    simp [decode, Nat.max_eq_left hpos, hmin, hpicks, hlt]

include hlevels in
theorem productSize_eq : productSize levelsFor space =
    if (levelCounts levelsFor space).prod < 2 ^ 64 then (levelCounts levelsFor space).prod
    else 2 ^ 64 - 1 := by
  have hpos : ∀ n ∈ levelCounts levelsFor space, 0 < n := by
    simpa [levelCounts, List.length_pos_iff] using hlevels
  have hcounts : (space.values.map fun dist => max (levelsFor dist).length 1) =
      levelCounts levelsFor space :=
    List.map_congr_left fun dist hdist =>
      Nat.max_eq_left (List.length_pos_of_ne_nil (hlevels dist hdist))
  rw [productSize, hcounts, foldlM_checkedMul hpos (by decide), one_mul]
  split <;> rfl

theorem cursor_iterate (n : Nat) :
    ((fun sampler => (GridSampler.ask levelsFor space sampler).2)^[n] .new).cursor =
      n % 2 ^ 64 := by
  induction n with
  | zero => rfl
  | succ n ih => rw [Function.iterate_succ_apply', GridSampler.ask, ih, Nat.mod_add_mod]

include hlevels

theorem asked_eq_some (n : Nat) : ∃ picks, asked levelsFor space n = some picks ∧
    picks.map Pick.position =
      digits (levelCounts levelsFor space) (n % 2 ^ 64 % productSize levelsFor space) ∧
    List.Forall₂ (fun dim pick => pick.name = dim.1 ∧
      (levelsFor dim.2)[pick.position]? = some pick.value) space.entries picks := by
  have hne : productSize levelsFor space ≠ 0 := by
    have hpos : 0 < (levelCounts levelsFor space).prod :=
      List.prod_pos (by simpa [levelCounts, List.length_pos_iff] using hlevels)
    rw [productSize_eq hlevels]
    split <;> omega
  rw [asked, GridSampler.ask, if_neg hne, cursor_iterate, levelCounts,
    BTreeMap.values, List.map_map]
  exact decode_eq_some (fun dim hdim => hlevels _ (List.mem_map_of_mem hdim)) _

/-- Every tuple of levels comes up once in a round, and the rounds are alike; of a space too large
    to count, no point before the cap comes up twice. -/
theorem grid_exhaustive :
    (∀ n, ∃ picks, asked levelsFor space n = some picks ∧
      List.Forall₂ (fun dim pick => pick.name = dim.1 ∧
        (levelsFor dim.2)[pick.position]? = some pick.value) space.entries picks) ∧
    ((levelCounts levelsFor space).prod < 2 ^ 64 →
      (∀ positions, List.Forall₂ (· < ·) positions (levelCounts levelsFor space) →
        ∃! n, n < (levelCounts levelsFor space).prod ∧
          askedTuple levelsFor space n = some positions) ∧
      ∀ n, n + (levelCounts levelsFor space).prod < 2 ^ 64 →
        askedTuple levelsFor space (n + (levelCounts levelsFor space).prod) =
          askedTuple levelsFor space n) ∧
    (2 ^ 64 ≤ (levelCounts levelsFor space).prod → ∀ n < 2 ^ 64 - 1, ∀ m < 2 ^ 64 - 1,
      askedTuple levelsFor space n = askedTuple levelsFor space m → n = m) := by
  have htuple : ∀ n, askedTuple levelsFor space n =
      some (digits (levelCounts levelsFor space) (n % 2 ^ 64 % productSize levelsFor space)) := by
    intro n
    obtain ⟨picks, hasked, hdigits, -⟩ := asked_eq_some hlevels n
    rw [askedTuple, hasked, Option.map_some, hdigits]
  simp only [htuple, Option.some.injEq, productSize_eq hlevels]
  generalize hcounts : levelCounts levelsFor space = counts
  refine ⟨fun n => ?_, fun hfits => ⟨fun positions hrange => ?_, fun n hn => ?_⟩,
    fun hlarge n hn m hm h => ?_⟩
  · obtain ⟨picks, hasked, -, hvalues⟩ := asked_eq_some hlevels n
    exact ⟨picks, hasked, hvalues⟩
  · have hbelow : ∀ n < counts.prod, n % 2 ^ 64 % counts.prod = n := fun n hn => by
      rw [Nat.mod_eq_of_lt (hn.trans hfits), Nat.mod_eq_of_lt hn]
    rw [if_pos hfits]
    refine ⟨number counts positions, ⟨number_lt hrange, ?_⟩, ?_⟩
    · rw [hbelow _ (number_lt hrange), digits_number hrange]
    · rintro n ⟨hn, rfl⟩
      rw [hbelow n hn, number_digits, Nat.mod_eq_of_lt hn]
  · rw [if_pos hfits, Nat.mod_eq_of_lt hn, Nat.mod_eq_of_lt (by omega : n < 2 ^ 64),
      Nat.add_mod_right]
  · have hsame := mod_eq_of_digits_eq h
    have hbelow : ∀ k < 2 ^ 64 - 1, k % 2 ^ 64 % (2 ^ 64 - 1) % counts.prod = k := fun k hk => by
      rw [Nat.mod_eq_of_lt (by omega : k < 2 ^ 64), Nat.mod_eq_of_lt hk,
        Nat.mod_eq_of_lt (by omega)]
    rwa [if_neg (not_lt.mpr hlarge), hbelow n hn, hbelow m hm] at hsame

end

/-- A dimension of two levels and one of three. -/
def sampleSpace : SearchSpace Nat := BTreeMap.ofList [("lr", 2), ("opt", 3)]

theorem grid_exhaustive_pair :
    ∃! n, n < 6 ∧ askedTuple List.range sampleSpace n = some [1, 2] := by
  have hlevels : ∀ dist ∈ sampleSpace.values, List.range dist ≠ [] := by decide +kernel
  have hcounts : levelCounts List.range sampleSpace = [2, 3] := by decide +kernel
  have hround := (grid_exhaustive hlevels).2.1
  rw [hcounts] at hround
  exact (hround (by decide)).1 [1, 2] (by simp)

end Blut.Hpo
