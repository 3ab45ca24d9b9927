/-
  Evaluation of a dependency graph along an order.

  Every node has a rule that computes its value from the values of the nodes it reads. Evaluating
  the nodes one after the other, in an order in which every edge goes forward, gives the one
  environment that satisfies all rules at once (`evalAlong_fix`).
-/
import Blut.Lib.TopologicalSort

namespace Blut.Lib

variable {κ α : Type} [LinearOrder κ]

/-- The environment with one more node evaluated. -/
def evalStep (rule : κ → (κ → Option α) → α) (env : κ → Option α) (node : κ) : κ → Option α :=
  Function.update env node (some (rule node env))

/-- The environment after the nodes of the order. -/
def evalAlong (rule : κ → (κ → Option α) → α) (order : List κ) : κ → Option α :=
  order.foldl (evalStep rule) fun _ => none

/-- The rule of a node depends on the sources of its edges only. -/
def Reads (rule : κ → (κ → Option α) → α) (edges : List (κ × κ)) : Prop :=
  ∀ node env env', (∀ src, (src, node) ∈ edges → env src = env' src) →
    rule node env = rule node env'

variable {order : List κ} {node : κ}

theorem foldl_evalStep_of_not_mem (rule : κ → (κ → Option α) → α) (h : node ∉ order)
    (env : κ → Option α) : order.foldl (evalStep rule) env node = env node := by
  induction order generalizing env with
  | nil => rfl
  | cons first order ih =>
    rw [List.mem_cons, not_or] at h
    have hrest := ih h.2 (evalStep rule env first)
    unfold evalStep at hrest
    rw [Function.update_of_ne h.1] at hrest
    exact hrest

theorem evalAlong_of_not_mem (rule : κ → (κ → Option α) → α) (h : node ∉ order) :
    evalAlong rule order node = none :=
  foldl_evalStep_of_not_mem rule h _

/-- A node has its value once it was evaluated, whatever is evaluated after it. -/
theorem evalAlong_append_of_mem (rule : κ → (κ → Option α) → α) {before after : List κ}
    (hnd : (before ++ after).Nodup) (h : node ∈ before) :
    evalAlong rule (before ++ after) node = evalAlong rule before node := by
  unfold evalAlong
  rw [List.foldl_append]
  refine foldl_evalStep_of_not_mem rule (fun hafter => ?_) _
  exact (List.nodup_append.mp hnd).2.2 node h node hafter rfl

theorem evalAlong_split (rule : κ → (κ → Option α) → α) {before after : List κ}
    (hnd : (before ++ node :: after).Nodup) :
    evalAlong rule (before ++ node :: after) node = some (rule node (evalAlong rule before)) := by
  have hafter : node ∉ after := (List.nodup_cons.mp (List.nodup_append.mp hnd).2.1).1
  unfold evalAlong
  rw [List.foldl_append, List.foldl_cons, foldl_evalStep_of_not_mem rule hafter]
  exact Function.update_self _ _ _

/-- Every node of the order satisfies its rule in the environment of the whole order. -/
theorem evalAlong_fix {rule : κ → (κ → Option α) → α} {edges : List (κ × κ)} (hnd : order.Nodup)
    (htop : Topological edges order) (hreads : Reads rule edges) (h : node ∈ order) :
    evalAlong rule order node = some (rule node (evalAlong rule order)) := by
  obtain ⟨before, after, hsplit⟩ := List.append_of_mem h
  have hsrc : ∀ src, (src, node) ∈ edges → evalAlong rule before src =
      evalAlong rule order src := by
    intro src hedge
    have hmem := htop before node after hsplit src hedge
    rw [hsplit] at hnd ⊢
    exact (evalAlong_append_of_mem rule hnd hmem).symm
  rw [← hreads node _ _ hsrc]
  rw [hsplit] at hnd ⊢
  exact evalAlong_split rule hnd

end Blut.Lib
