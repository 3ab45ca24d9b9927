/-
  Single-flight with fused groups.

  Only the key of the first member of a task is entered in `inflight_keys`. The keys of the other
  members meet no key of another task: `internal_linear_fusion_groups` forms a group only if the
  static identity of each later member occurs nowhere outside the group (`identity_ne_of_outside`),
  and two tasks in flight have no node in common.
-/
import Blut.Lib.Lists
import Blut.Framework.Confluence
import Mathlib.Order.CompletePartialOrder

namespace Blut.Framework

open Blut.Lib

variable {V Key A Id : Type}

/-! ## Identities -/

variable {group : List Nat} {id : Nat}

variable [DecidableEq Id] [DecidableEq A] {plan : CompiledPlan V} {policy : FusionPolicy A Id}

omit [DecidableEq A] [DecidableEq Id] in
theorem Grouped.lt {groups : List (List Nat)} (h : Grouped plan groups) {g : List Nat}
    (hg : g ∈ groups) (hid : id ∈ g) : id < plan.nodes.length :=
  lt_of_chain (h.chain g hg) (h.long g hg) hid

theorem accepts_of_mem (h : group ∈ plan.internalLinearFusionGroups policy) :
    policy.tailCanCollide plan.nodes group = false := by
  have haccept := (List.mem_filter.mp h).2
  unfold FusionPolicy.accepts at haccept
  simp only [Bool.and_eq_true, Bool.not_eq_true'] at haccept
  exact haccept.1.2

/-- No node outside a group has the identity of one of its later members. -/
theorem identity_ne_of_outside (hg : group ∈ plan.internalLinearFusionGroups policy) {m : Nat}
    {node node' : PlanNode} (hid : id ∈ group.tail) (hm : m ∉ group)
    (hnode : plan.nodes[id]? = some node) (hnode' : plan.nodes[m]? = some node') :
    policy.staticId node ≠ policy.staticId node' := by
  intro hsame
  have hgroups := grouped_internal plan policy
  have hno := accepts_of_mem hg
  unfold FusionPolicy.tailCanCollide at hno
  simp only [List.any_eq_false] at hno
  have hlast := hno id hid
  rw [List.getElem?_map, hnode] at hlast
  refine hlast (decide_eq_true (count_lt_of_outside ?_ ?_ hm ?_))
  · exact (List.nodup_flatten.mp hgroups.apart).1 group hg
  · intro id hmem
    rw [List.length_map]
    exact hgroups.lt hg hmem
  · rw [List.getElem?_map, hnode', hsame]
    rfl

/-! ## The tasks in flight -/

/-- The keys a task can run under: its own, and those of the later members for any input. -/
def Setup.keysOf (setup : Setup V Key) (task : Task V Key) : Set Key :=
  {key | key = task.key ∨ ∃ id ∈ task.tail, ∃ node, setup.plan.nodes[id]? = some node ∧
    ∃ input, key = setup.runtime.nodeCacheKey node input}

/-- The key of a task is that of its first member, a node of the plan when there are groups. -/
def Setup.KeyedByHead (setup : Setup V Key) (task : Task V Key) : Prop :=
  ∃ node input, (setup.groups ≠ [] → setup.plan.nodes[task.head]? = some node) ∧
    task.key = setup.runtime.nodeCacheKey node input

section Flight

variable [DecidableEq Key] {setup : Setup V Key} {s s' : Coordinator V Key} {move : Move V}
  {allowed : Coordinator V Key → Move V → Prop}

/-- With groups there is neither a fan-out nor a control policy: the graph stays the plan's. -/
theorem Reachable.nodes_eq (hgroups : setup.groups ≠ []) (h : Reachable setup allowed s) :
    s.nodes = setup.plan.nodes ∧ s.pendingSpawns = [] := by
  have hexp := (setup.grouped.plain hgroups).1
  induction h with
  | start => exact ⟨rfl, rfl⟩
  | @step s s' move _ _ hstep ih =>
    obtain ⟨hnodes, hpending⟩ := ih
    cases Setup.moves_of_step hstep with
    | drain hok =>
      simp only [Setup.drain, hpending]
      exact ⟨hnodes, rfl⟩
    | dispatch node hok hready =>
      simp only [Setup.dispatch, Setup.admit]
      split
      · exact ⟨hnodes, hpending⟩
      · split
        · exact ⟨hnodes, hpending⟩
        · exact ⟨hnodes, hpending⟩
        · split <;> exact ⟨hnodes, hpending⟩
    | finish index task result hget hpossible =>
      obtain ⟨-, hsame, hkept⟩ := setup.process_kept (s.without index) task result
      exact ⟨hsame.trans hnodes, (hkept hexp).trans hpending⟩
    | suggest subplan hcontrol =>
      exact absurd ((setup.uncontrolled hgroups).symm.trans hcontrol) (by decide)

theorem Reachable.keyedByHead (h : Reachable setup allowed s) :
    ∀ task ∈ s.join, setup.KeyedByHead task := by
  induction h with
  | start => exact fun _ h => absurd h List.not_mem_nil
  | @step s s' move hreach _ hstep ih =>
    rcases Setup.step_starts hstep with ⟨-, hsub⟩ | ⟨task, hstart⟩
    · exact fun task htask => ih task (hsub.subset htask)
    · intro task' htask'
      rw [hstart.join, List.mem_append, List.mem_singleton] at htask'
      rcases htask' with hmem | rfl
      · exact ih task' hmem
      · obtain ⟨node, hnode, hkey⟩ := hstart.key
        exact ⟨node, task'.input, fun hgroups => (hreach.nodes_eq hgroups).1 ▸ hnode, hkey⟩

end Flight

section Keys

variable {setup : Setup V Key} {s : Coordinator V Key} {task task' : Task V Key}

/-- With groups every key of a task is the key of a node of the plan among its members. -/
theorem Setup.KeyedByHead.member (h : setup.KeyedByHead task) (hgroups : setup.groups ≠ [])
    {key : Key} (hkey : key ∈ setup.keysOf task) : ∃ m ∈ task.members, ∃ node input,
      setup.plan.nodes[m]? = some node ∧ key = setup.runtime.nodeCacheKey node input := by
  rcases hkey with rfl | ⟨id, hid, node, hnode, input, heq⟩
  · obtain ⟨node, input, hnode, heq⟩ := h
    exact ⟨task.head, List.mem_cons_self, node, input, hnode hgroups, heq⟩
  · exact ⟨id, List.mem_cons_of_mem _ hid, node, input, hnode, heq⟩

variable (hfuses : setup.groups = [] ∨ setup.groups = setup.plan.internalLinearFusionGroups policy)
  (hstatic : ∀ node node' input input', setup.runtime.nodeCacheKey node input =
    setup.runtime.nodeCacheKey node' input' → policy.staticId node = policy.staticId node')
include hfuses hstatic

/-- The key of a later member is no key of a task without a member in common. -/
theorem Setup.KeyedByHead.tail_apart (h : setup.KeyedByHead task')
    (htail : task.tail = setup.tailOf task.head) (hapart : task.members.Disjoint task'.members)
    {node : PlanNode} {input : V} (hid : id ∈ task.tail)
    (hnode : setup.plan.nodes[id]? = some node) :
    setup.runtime.nodeCacheKey node input ∉ setup.keysOf task' := by
  intro hkey
  rcases setup.tailOf_spec task.head with hg | ⟨hnil, -⟩
  · rw [← htail] at hg
    have hgroups := List.ne_nil_of_mem hg
    obtain ⟨m, hm, node', input', hnode', heq⟩ := h.member hgroups hkey
    rw [hfuses.resolve_left hgroups] at hg
    exact identity_ne_of_outside hg hid (fun hin => hapart hin hm) hnode hnode'
      (hstatic _ _ _ _ heq)
  · rw [htail, hnil] at hid
    exact absurd hid List.not_mem_nil

theorem Settled.keys_disjoint (hs : Settled setup s)
    (hkeyed : ∀ task ∈ s.join, setup.KeyedByHead task) :
    s.join.Pairwise fun task task' => Disjoint (setup.keysOf task) (setup.keysOf task') := by
  have hkeys : s.join.Pairwise fun task task' => task.key ≠ task'.key := by
    have hnodup := hs.keyed.keys
    unfold Coordinator.holders at hnodup
    rw [List.map_map] at hnodup
    exact List.pairwise_map.mp hnodup
  have happart := (List.nodup_flatMap.mp hs.busy.nodup).2
  refine (hkeys.and happart).imp_of_mem ?_
  rintro task task' htask htask' ⟨hne, hapart⟩
  rw [Set.disjoint_left]
  rintro key hkey hkey'
  rcases hkey with rfl | ⟨id, hid, node, hnode, input, rfl⟩
  · rcases hkey' with heq | ⟨id, hid, node, hnode, input, heq⟩
    · exact hne heq
    · exact Setup.KeyedByHead.tail_apart hfuses hstatic (hkeyed task htask) (hs.tails task' htask')
        hapart.symm hid hnode (Or.inl heq.symm)
  · exact Setup.KeyedByHead.tail_apart hfuses hstatic (hkeyed task' htask') (hs.tails task htask)
      hapart hid hnode hkey'

end Keys

/-- No two tasks in flight can run nodes with equal keys, whatever the finishing order: the gates
    are apart in every plan that `PlanSpec` and `from_components` build. -/
theorem fused_single_flight [DecidableEq Key] {setup : Setup V Key} {s : Coordinator V Key}
    {allowed : Coordinator V Key → Move V → Prop}
    (hfuses : setup.groups = [] ∨ setup.groups = setup.plan.internalLinearFusionGroups policy)
    (hgates : GatesApart setup.plan)
    (hstatic : ∀ node node' input input', setup.runtime.nodeCacheKey node input =
      setup.runtime.nodeCacheKey node' input' → policy.staticId node = policy.staticId node')
    (h : Reachable setup allowed s) :
    s.join.Pairwise fun task task' => Disjoint (setup.keysOf task) (setup.keysOf task') := by
  induction h with
  | start => exact List.Pairwise.nil
  | @step s s' move hreach hallowed hstep ih =>
    rcases Setup.step_starts hstep with ⟨-, hsub⟩ | ⟨task, hstart⟩
    · -- an error ends the accounting, but from then on tasks only leave
      exact ih.sublist hsub
    · have hreach' := hreach.step hallowed hstep
      exact (hreach'.settled hgates hstart.error.2).keys_disjoint hfuses hstatic hreach'.keyedByHead

/-- A chain of two nodes, and a node of its own. -/
def fusedPlan : CompiledPlan Nat where
  nodes := [sampleNode "scan" "unit" "rows", sampleNode "clean" "rows" "rows",
    sampleNode "probe" "unit" "rows"]
  edges := [⟨0, 1⟩]
  initial := fun id => if id = 0 ∨ id = 2 then some 0 else none
  expansions := []
  conditionGates := []
  inRange := by decide
  gated := by decide
  seeded := by
    intro id v h
    split_ifs at h with hid
    rcases hid with rfl | rfl <;> decide

def fusedPolicy : FusionPolicy Unit String where
  requestFor := fun _ => some ()
  staticId := fun node => node.stage.name

def fusedSetup : Setup Nat (String × Nat) := { sampleSetup with
  plan := fusedPlan
  order := [0, 2, 1]
  groups := fusedPlan.internalLinearFusionGroups fusedPolicy
  ordered := by decide +kernel
  grouped := grouped_internal _ _
  uncontrolled := fun _ => rfl }

theorem fusedSetup_run :
    (fusedSetup.run [.dispatch 0, .dispatch 2] fusedSetup.start).isSome = true := by
  decide +kernel

theorem fused_single_flight_chain :
    ∃ s, Reachable fusedSetup (fun _ _ => True) s ∧ s.join.map Task.members = [[0, 1], [2]] ∧
      s.join.Pairwise fun task task' =>
        Disjoint (fusedSetup.keysOf task) (fusedSetup.keysOf task') := by
  have hreach := Reachable.start.run (Option.some_get fusedSetup_run).symm
  refine ⟨_, hreach, by decide +kernel, ?_⟩
  have hfuses : fusedSetup.groups = [] ∨ fusedSetup.groups =
      fusedSetup.plan.internalLinearFusionGroups fusedPolicy := Or.inr rfl
  exact fused_single_flight hfuses (GatesApart.of_one fusedSetup.ordered (by decide))
    (fun _ _ _ _ h => congrArg Prod.fst h) hreach

end Blut.Framework
