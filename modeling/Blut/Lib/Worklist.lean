/-
  A search with a queue.

  `worklist` is the loop `while let Some(cur) = queue.pop_front() { if !seen.insert(cur) { continue
  } .. queue.push_back(each next of cur that was not seen) }` with fuel; `none` means the fuel ran
  out. It returns what was seen, in order. It does return (`worklist_isSome`), and what it returns
  is what can be reached from the queue (`mem_worklist`).
-/
import Blut.Lib.Reachability

namespace Blut.Lib

variable {κ : Type} [DecidableEq κ]

/-- What a node that is seen for the first time adds to the queue. -/
def pushed (next : κ → List κ) (seen : List κ) (cur : κ) : List κ :=
  (next cur).filter fun y => y ∉ seen ++ [cur]

def worklist (next : κ → List κ) : Nat → List κ → List κ → Option (List κ)
  | _, [], seen => some seen
  | 0, _ :: _, _ => none
  | fuel + 1, cur :: queue, seen =>
    if cur ∈ seen then worklist next fuel queue seen
    else worklist next fuel (queue ++ pushed next seen cur) (seen ++ [cur])

variable {next : κ → List κ} {queue seen out : List κ} {fuel : Nat}

/-- The loop does not run out of fuel when there is a step for every entry of the queue and for
    every child still to be pushed. -/
theorem worklist_isSome (domain : Finset κ) (hnext : ∀ x ∈ domain, ∀ y ∈ next x, y ∈ domain)
    (fuel : Nat) (hqueue : ∀ x ∈ queue, x ∈ domain)
    (hfuel : queue.length + unpushed next domain seen.toFinset ≤ fuel) :
    ∃ out, worklist next fuel queue seen = some out := by
  induction fuel generalizing queue seen with
  | zero =>
    have hnil : queue = [] := List.length_eq_zero_iff.mp (by omega)
    subst hnil
    exact ⟨seen, rfl⟩
  | succ fuel ih =>
    cases queue with
    | nil => exact ⟨seen, rfl⟩
    | cons cur queue =>
      have hcur := hqueue cur List.mem_cons_self
      have hrest : ∀ x ∈ queue, x ∈ domain := fun x hx => hqueue x (List.mem_cons_of_mem _ hx)
      rw [List.length_cons] at hfuel
      rw [worklist]
      split_ifs with hseen
      · exact ih hrest (by omega)
      · refine ih ?_ ?_
        · intro x hx
          rcases List.mem_append.mp hx with hx | hx
          · exact hrest x hx
          · exact hnext cur hcur x (List.mem_of_mem_filter hx)
        · have hpush := unpushed_insert next hcur (by simpa using hseen : cur ∉ seen.toFinset)
          have hfewer : (pushed next seen cur).length ≤ (next cur).length :=
            List.length_filter_le _ _
          have hset : (seen ++ [cur]).toFinset = insert cur seen.toFinset := by
            ext x
            simp
          rw [hset, List.length_append]
          omega

theorem ClosedUpTo.push {cur : κ} (h : ClosedUpTo next (cur :: queue) {x | x ∈ seen}) :
    ClosedUpTo next (queue ++ pushed next seen cur) {x | x ∈ seen ++ [cur]} := by
  refine h.visit (fun x => by simp [or_comm]) (fun _ => List.mem_append_left _) fun y hy => ?_
  by_cases hseen : y ∈ seen ++ [cur]
  · exact .inl hseen
  · exact .inr (List.mem_append_right _ (List.mem_filter.mpr ⟨hy, by simpa using hseen⟩))

/-- The result holds what was seen and queued, and is closed. -/
theorem worklist_closed (h : worklist next fuel queue seen = some out)
    (hclosed : ClosedUpTo next queue {x | x ∈ seen}) :
    (∀ x ∈ seen, x ∈ out) ∧ (∀ x ∈ queue, x ∈ out) ∧ ∀ x ∈ out, ∀ y ∈ next x, y ∈ out := by
  induction fuel generalizing queue seen with
  | zero =>
    cases queue with
    | nil =>
      cases h
      exact ⟨fun _ hx => hx, fun _ hx => (nomatch hx),
        fun x hx y hy => (hclosed x hx y hy).resolve_right List.not_mem_nil⟩
    | cons cur queue => cases h
  | succ fuel ih =>
    cases queue with
    | nil =>
      cases h
      exact ⟨fun _ hx => hx, fun _ hx => (nomatch hx),
        fun x hx y hy => (hclosed x hx y hy).resolve_right List.not_mem_nil⟩
    | cons cur queue =>
      rw [worklist] at h
      split_ifs at h with hseen
      · obtain ⟨hsub, hqueue, hrest⟩ := ih h (hclosed.skip hseen)
        refine ⟨hsub, fun x hx => ?_, hrest⟩
        rcases List.mem_cons.mp hx with rfl | hx
        · exact hsub _ hseen
        · exact hqueue x hx
      · obtain ⟨hsub, hqueue, hrest⟩ := ih h hclosed.push
        refine ⟨fun x hx => hsub x (List.mem_append_left _ hx), fun x hx => ?_, hrest⟩
        rcases List.mem_cons.mp hx with rfl | hx
        · exact hsub _ (List.mem_append_right _ (List.mem_singleton.mpr rfl))
        · exact hqueue x (List.mem_append_left _ hx)

theorem worklist_path (h : worklist next fuel queue seen = some out) {x : κ} (hx : x ∈ out) :
    x ∈ seen ∨ ∃ q ∈ queue, Reaches next q x := by
  induction fuel generalizing queue seen with
  | zero =>
    cases queue with
    | nil => cases h; exact .inl hx
    | cons cur queue => cases h
  | succ fuel ih =>
    cases queue with
    | nil => cases h; exact .inl hx
    | cons cur queue =>
      rw [worklist] at h
      split_ifs at h with hseen
      · rcases ih h with hmem | ⟨q, hq, hpath⟩
        · exact .inl hmem
        · exact .inr ⟨q, List.mem_cons_of_mem _ hq, hpath⟩
      · rcases ih h with hmem | ⟨q, hq, hpath⟩
        · rcases List.mem_append.mp hmem with hmem | hmem
          · exact .inl hmem
          · rw [List.mem_singleton.mp hmem]
            exact .inr ⟨cur, List.mem_cons_self, .refl⟩
        · rcases List.mem_append.mp hq with hq | hq
          · exact .inr ⟨q, List.mem_cons_of_mem _ hq, hpath⟩
          · exact .inr ⟨cur, List.mem_cons_self, .head (List.mem_of_mem_filter hq) hpath⟩

/-- From one node, the search returns exactly what it reaches. -/
theorem mem_worklist {root : κ} (h : worklist next fuel [root] [] = some out) (x : κ) :
    x ∈ out ↔ Reaches next root x := by
  obtain ⟨-, hqueue, hclosed⟩ := worklist_closed h fun _ hx => (nomatch hx)
  constructor
  · intro hx
    rcases worklist_path h hx with hmem | ⟨q, hq, hpath⟩
    · exact (nomatch hmem)
    · rwa [List.mem_singleton.mp hq] at hpath
  · intro hpath
    induction hpath with
    | refl => exact hqueue root (List.mem_singleton.mpr rfl)
    | tail _ hstep ih => exact hclosed _ ih _ hstep

end Blut.Lib
