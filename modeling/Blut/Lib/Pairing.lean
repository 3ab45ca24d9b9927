/-
  Two lists related element by element (`List.Forall₂`): partners of a member, numbering, and
  keys that are distinct on one side because they are on the other.
-/
import Mathlib.Tactic

namespace Blut.Lib

variable {α β γ δ : Type} {R : α → β → Prop}

variable {xs : List α} {ys : List β}

section

variable {f : α → Option β}

variable (h : List.Forall₂ R xs ys)
include h

theorem forall₂_getElem? {i : Nat} {x : α} (hx : xs[i]? = some x) :
    ∃ y, ys[i]? = some y ∧ R x y := by
  induction h generalizing i with
  | nil => exact absurd hx (by simp)
  | @cons a b xs ys hab _ ih =>
    cases i with
    | zero =>
      rw [List.getElem?_cons_zero] at hx
      exact ⟨b, rfl, Option.some.inj hx ▸ hab⟩
    | succ i => exact ih hx

theorem forall₂_getElem?_right {i : Nat} {y : β} (hy : ys[i]? = some y) :
    ∃ x, xs[i]? = some x ∧ R x y :=
  forall₂_getElem? h.flip hy

theorem exists_right_of_forall₂ {x : α} (hx : x ∈ xs) : ∃ y ∈ ys, R x y := by
  obtain ⟨i, hi⟩ := List.mem_iff_getElem?.mp hx
  obtain ⟨y, hy, hxy⟩ := forall₂_getElem? h hi
  exact ⟨y, List.mem_of_getElem? hy, hxy⟩

theorem exists_left_of_forall₂ {y : β} (hy : y ∈ ys) : ∃ x ∈ xs, R x y :=
  exists_right_of_forall₂ h.flip hy

omit h in
/-- Rewriting one element keeps a reflexive relation to the list. -/
theorem forall₂_modify {R : α → α → Prop} (hrefl : ∀ x, R x x) {f : α → α} (hf : ∀ x, R x (f x))
    (xs : List α) (i : Nat) : List.Forall₂ R xs (xs.modify i f) := by
  induction xs generalizing i with
  | nil =>
    rw [List.modify_nil]
    exact .nil
  | cons x xs ih =>
    cases i with
    | zero =>
      rw [List.modify_zero_cons]
      exact .cons (hf x) (List.forall₂_same.mpr fun y _ => hrefl y)
    | succ i =>
      rw [List.modify_succ_cons]
      exact .cons (hrefl x) (ih i)

omit h in
theorem forall₂_trans {R : α → α → Prop} (htrans : ∀ x y z, R x y → R y z → R x z) {ys zs : List α}
    (h : List.Forall₂ R xs ys) (h' : List.Forall₂ R ys zs) : List.Forall₂ R xs zs := by
  induction h generalizing zs with
  | nil =>
    cases h'
    exact .nil
  | cons hxy _ ih =>
    cases h' with
    | cons hyz hrest => exact .cons (htrans _ _ _ hxy hyz) (ih hrest)

theorem forall₂_imp_mem {S : α → β → Prop}
    (himp : ∀ x ∈ xs, ∀ y ∈ ys, R x y → S x y) : List.Forall₂ S xs ys := by
  induction h with
  | nil => exact List.Forall₂.nil
  | @cons x y xs ys hxy _ ih =>
    refine List.Forall₂.cons (himp x List.mem_cons_self y List.mem_cons_self hxy) (ih ?_)
    exact fun x hx y hy => himp x (List.mem_cons_of_mem _ hx) y (List.mem_cons_of_mem _ hy)

theorem map_eq_of_forall₂ {f : α → γ} {g : β → γ}
    (hfg : ∀ x ∈ xs, ∀ y ∈ ys, R x y → f x = g y) : xs.map f = ys.map g := by
  rw [← List.forall₂_eq_eq_eq, List.forall₂_map_left_iff, List.forall₂_map_right_iff]
  exact forall₂_imp_mem h hfg

omit h in
theorem mapM_isSome (h : ∀ x ∈ xs, (f x).isSome = true) :
    (xs.mapM f).isSome = true := by
  induction xs with
  | nil => rfl
  | cons x xs ih =>
    obtain ⟨y, hy⟩ := Option.isSome_iff_exists.mp (h x List.mem_cons_self)
    obtain ⟨ys, hys⟩ := Option.isSome_iff_exists.mp (ih fun z hz => h z (List.mem_cons_of_mem _ hz))
    rw [List.mapM_cons, hy, hys]
    rfl

omit h in
theorem forall₂_of_mapM (h : xs.mapM f = some ys) :
    List.Forall₂ (fun x y => f x = some y) xs ys := by
  induction xs generalizing ys with
  | nil =>
    rw [List.mapM_nil] at h
    obtain rfl := Option.some.inj h
    exact List.Forall₂.nil
  | cons x xs ih =>
    rw [List.mapM_cons] at h
    obtain ⟨y, hy, h⟩ := Option.bind_eq_some_iff.mp h
    obtain ⟨rest, hrest, h⟩ := Option.bind_eq_some_iff.mp h
    obtain rfl := Option.some.inj h
    exact List.Forall₂.cons hy (ih hrest)

theorem forall₂_zipIdx (k : Nat) : List.Forall₂ (fun x y => R x y.1) xs (ys.zipIdx k) := by
  induction h generalizing k with
  | nil => exact List.Forall₂.nil
  | cons hxy _ ih => exact List.Forall₂.cons hxy (ih (k + 1))

/-- Keys of the right elements are distinct when they determine distinct keys on the left. -/
theorem nodup_map_of_forall₂ {f : α → γ} {g : β → δ} (hnd : (xs.map f).Nodup)
    (hdet : ∀ x y x' y', x ∈ xs → x' ∈ xs → R x y → R x' y' → g y = g y' → f x = f x') :
    (ys.map g).Nodup := by
  induction h with
  | nil => simp
  | @cons x y xs ys hxy hrest ih =>
    rw [List.map_cons, List.nodup_cons] at hnd ⊢
    refine ⟨fun hmem => ?_, ih hnd.2 fun a b a' b' ha ha' =>
      hdet a b a' b' (List.mem_cons_of_mem _ ha) (List.mem_cons_of_mem _ ha')⟩
    obtain ⟨y', hy', heq⟩ := List.mem_map.mp hmem
    obtain ⟨x', hx', hxy'⟩ := exists_left_of_forall₂ hrest hy'
    have hsame := hdet x y x' y' List.mem_cons_self (List.mem_cons_of_mem _ hx') hxy hxy' heq.symm
    exact hnd.1 (hsame ▸ List.mem_map_of_mem hx')

end

end Blut.Lib
