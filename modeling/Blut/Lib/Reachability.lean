/-
  A depth-first sweep with a stack and a set of the nodes seen.

  `sweep` is the loop `while let Some(node) = stack.pop() { if seen.insert(node) {
  stack.extend(next(node)) } }` with fuel. With the fuel of `reach` the stack runs empty: the result
  holds what it started from (`subset_reach`), everything in it was seen before or can be reached
  from the stack (`reach_path`), and it is closed under `next` when the nodes seen before were
  (`reach_spec`).
-/
import Mathlib.Tactic

namespace Blut.Lib

variable {κ : Type}

/-- What was seen is closed up to what is still to be looked at. -/
def ClosedUpTo (next : κ → List κ) (todo : List κ) (seen : Set κ) : Prop :=
  ∀ x ∈ seen, ∀ y ∈ next x, y ∈ seen ∨ y ∈ todo

section Closing

variable {next : κ → List κ} {node : κ} {todo todo' : List κ} {seen seen' : Set κ}

theorem ClosedUpTo.skip (h : ClosedUpTo next (node :: todo) seen) (hnode : node ∈ seen) :
    ClosedUpTo next todo seen := by
  intro x hx y hy
  rcases h x hx y hy with hmem | hmem
  · exact .inl hmem
  · rcases List.mem_cons.mp hmem with rfl | hmem
    · exact .inl hnode
    · exact .inr hmem

theorem ClosedUpTo.visit (h : ClosedUpTo next (node :: todo) seen)
    (hseen : ∀ x, x ∈ seen' ↔ x = node ∨ x ∈ seen) (htodo : ∀ x ∈ todo, x ∈ todo')
    (hnode : ∀ y ∈ next node, y ∈ seen' ∨ y ∈ todo') : ClosedUpTo next todo' seen' := by
  intro x hx y hy
  rcases (hseen x).mp hx with rfl | hx
  · exact hnode y hy
  · rcases h x hx y hy with hmem | hmem
    · exact .inl ((hseen y).mpr (.inr hmem))
    · exact (List.mem_cons.mp hmem).imp (fun heq => (hseen y).mpr (.inl heq)) (htodo y)

end Closing

variable [DecidableEq κ]

/-- The loop; the top of the stack is the head of the list. -/
def sweep (next : κ → List κ) : Nat → List κ → Finset κ → Finset κ
  | _, [], seen => seen
  | 0, _ :: _, seen => seen
  | fuel + 1, node :: stack, seen =>
    if node ∈ seen then sweep next fuel stack seen
    else sweep next fuel ((next node).reverse ++ stack) (insert node seen)

/-- The sweep with fuel enough for every node of the domain to be entered once. -/
def reach (next : κ → List κ) (domain : Finset κ) (stack : List κ) (seen : Finset κ) :
    Finset κ :=
  sweep next (stack.length + ∑ node ∈ domain, (next node).length) stack seen

theorem subset_sweep (next : κ → List κ) (fuel : Nat) (stack : List κ) (seen : Finset κ) :
    seen ⊆ sweep next fuel stack seen := by
  induction fuel generalizing stack seen with
  | zero => cases stack <;> exact Finset.Subset.refl seen
  | succ fuel ih =>
    cases stack with
    | nil => exact Finset.Subset.refl seen
    | cons node stack =>
      unfold sweep
      split_ifs with hseen
      · exact ih stack seen
      · exact (Finset.subset_insert node seen).trans (ih _ _)

/-- `y` can be reached from `x`. -/
abbrev Reaches (next : κ → List κ) : κ → κ → Prop :=
  Relation.ReflTransGen fun x y => y ∈ next x

variable {x : κ}

theorem sweep_path (next : κ → List κ) (fuel : Nat) (stack : List κ) (seen : Finset κ)
    (hx : x ∈ sweep next fuel stack seen) : x ∈ seen ∨ ∃ s ∈ stack, Reaches next s x := by
  induction fuel generalizing stack seen with
  | zero => cases stack <;> exact Or.inl hx
  | succ fuel ih =>
    cases stack with
    | nil => exact Or.inl hx
    | cons node stack =>
      unfold sweep at hx
      split_ifs at hx with hseen
      · rcases ih stack seen hx with h | ⟨s, hs, hpath⟩
        · exact Or.inl h
        · exact Or.inr ⟨s, List.mem_cons_of_mem _ hs, hpath⟩
      · rcases ih _ _ hx with h | ⟨s, hs, hpath⟩
        · rcases Finset.mem_insert.mp h with rfl | h
          · exact Or.inr ⟨x, List.mem_cons_self, Relation.ReflTransGen.refl⟩
          · exact Or.inl h
        · rcases List.mem_append.mp hs with hs | hs
          · have hedge : s ∈ next node := List.mem_reverse.mp hs
            exact Or.inr ⟨node, List.mem_cons_self, Relation.ReflTransGen.head hedge hpath⟩
          · exact Or.inr ⟨s, List.mem_cons_of_mem _ hs, hpath⟩

/-! ## Enough fuel -/

/-- The children still to be pushed by the nodes of the domain that were not seen. -/
def unpushed (next : κ → List κ) (domain seen : Finset κ) : Nat :=
  ∑ node ∈ domain \ seen, (next node).length

theorem unpushed_insert (next : κ → List κ) {domain seen : Finset κ} {node : κ}
    (hmem : node ∈ domain) (hseen : node ∉ seen) :
    unpushed next domain seen = (next node).length + unpushed next domain (insert node seen) := by
  unfold unpushed
  have hsplit : domain \ seen = insert node (domain \ insert node seen) := by
    ext x
    by_cases hx : x = node
    · subst hx
      simp [hmem, hseen]
    · simp [hx]
  rw [hsplit, Finset.sum_insert (by simp)]

variable {next : κ → List κ} {domain : Finset κ}

/-- With enough fuel the stack ends up in the result, which is closed under `next`. -/
theorem sweep_closed (hnext : ∀ x ∈ domain, ∀ y ∈ next x, y ∈ domain) (fuel : Nat)
    {stack : List κ} {seen : Finset κ} (hstack : ∀ x ∈ stack, x ∈ domain)
    (hfuel : stack.length + unpushed next domain seen ≤ fuel)
    (hclosed : ClosedUpTo next stack seen) :
    (∀ x ∈ stack, x ∈ sweep next fuel stack seen) ∧
      ∀ x ∈ sweep next fuel stack seen, ∀ y ∈ next x, y ∈ sweep next fuel stack seen := by
  induction fuel generalizing stack seen with
  | zero =>
    have hnil : stack = [] := List.length_eq_zero_iff.mp (by omega)
    subst hnil
    refine ⟨by simp, fun x hx y hy => ?_⟩
    exact (hclosed x hx y hy).resolve_right List.not_mem_nil
  | succ fuel ih =>
    cases stack with
    | nil =>
      refine ⟨by simp, fun x hx y hy => ?_⟩
      exact (hclosed x hx y hy).resolve_right List.not_mem_nil
    | cons node stack =>
      have hnode := hstack node List.mem_cons_self
      rw [List.length_cons] at hfuel
      unfold sweep
      split_ifs with hseen
      · have hrest := @ih stack seen (fun x hx => hstack x (List.mem_cons_of_mem _ hx)) (by omega)
          (hclosed.skip hseen)
        refine ⟨fun x hx => ?_, hrest.2⟩
        rcases List.mem_cons.mp hx with rfl | hx
        · exact subset_sweep next fuel stack seen hseen
        · exact hrest.1 x hx
      · have hpush := unpushed_insert next hnode hseen
        have hrest := @ih ((next node).reverse ++ stack) (insert node seen)
          (fun x hx => by
            rcases List.mem_append.mp hx with hx | hx
            · exact hnext node hnode x (List.mem_reverse.mp hx)
            · exact hstack x (List.mem_cons_of_mem _ hx))
          (by rw [List.length_append, List.length_reverse]; omega)
          (hclosed.visit (fun _ => Finset.mem_insert) (fun _ => List.mem_append_right _)
            fun y hy => .inr (List.mem_append_left _ (List.mem_reverse.mpr hy)))
        refine ⟨fun x hx => ?_, hrest.2⟩
        rcases List.mem_cons.mp hx with rfl | hx
        · exact subset_sweep next fuel _ _ (Finset.mem_insert_self _ _)
        · exact hrest.1 x (List.mem_append_right _ hx)

/-! ## The sweep from a set that is closed -/

theorem subset_reach (stack : List κ) (seen : Finset κ) : seen ⊆ reach next domain stack seen :=
  subset_sweep next _ stack seen

theorem reach_path {stack : List κ} {seen : Finset κ} (hx : x ∈ reach next domain stack seen) :
    x ∈ seen ∨ ∃ s ∈ stack, Reaches next s x :=
  sweep_path next _ stack seen hx

section Closed

variable (hnext : ∀ x ∈ domain, ∀ y ∈ next x, y ∈ domain) {stack : List κ} {seen : Finset κ}
  (hstack : ∀ x ∈ stack, x ∈ domain) (hclosed : ∀ x ∈ seen, ∀ y ∈ next x, y ∈ seen)

include hnext hstack hclosed

theorem reach_spec :
    (∀ x ∈ stack, x ∈ reach next domain stack seen) ∧
      ∀ x ∈ reach next domain stack seen, ∀ y ∈ next x, y ∈ reach next domain stack seen := by
  have hle : unpushed next domain seen ≤ ∑ node ∈ domain, (next node).length :=
    Finset.sum_le_sum_of_subset Finset.sdiff_subset
  exact sweep_closed hnext _ hstack (by omega) fun x hx y hy => Or.inl (hclosed x hx y hy)

theorem mem_reach_of_path {s : κ} (hs : s ∈ stack) (hpath : Reaches next s x) :
    x ∈ reach next domain stack seen := by
  obtain ⟨hstart, hstep⟩ := reach_spec hnext hstack hclosed
  induction hpath with
  | refl => exact hstart s hs
  | tail _ hedge ih => exact hstep _ ih _ hedge

/-- The sweep adds exactly what can be reached. -/
theorem mem_reach_iff :
    x ∈ reach next domain stack seen ↔ x ∈ seen ∨ ∃ s ∈ stack, Reaches next s x := by
  constructor
  · exact reach_path
  · rintro (hx | ⟨s, hs, hpath⟩)
    · exact subset_reach stack seen hx
    · exact mem_reach_of_path hnext hstack hclosed hs hpath

end Closed

end Blut.Lib
