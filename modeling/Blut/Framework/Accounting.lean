/-
  Every node is accounted for once.

  `Settled` holds in every state of the loop without an error (`Reachable.settled`), an error is
  kept and nothing starts after it. The main result is read off from that: no node starts twice, a
  node starts when its inputs are there and its gate has let it through, and when the loop ends
  the completed and the pruned nodes are all of them.
-/
import Blut.Framework.Finish
import Blut.Framework.Injection

namespace Blut.Framework

open Blut.Lib

variable {V Key : Type}

/-! ## One gate -/

variable {n : Nat} {order : List Nat} {plan : CompiledPlan V} {edges : List PlanEdge}

/-- An order of data edges and gates leaves no way from the target of a gate to its selector. -/
theorem Ordered.gate_apart {gates : List CompiledConditionGate} (h : Ordered edges gates n order)
    (hedges : edgesInRange edges n) (hgates : gatesInRange gates n) {g : CompiledConditionGate}
    (hg : g ∈ gates) :
    ¬ Relation.ReflTransGen (fun a b => (⟨a, b⟩ : PlanEdge) ∈ edges) g.target g.condition := by
  intro hpath
  have hwf := wellFounded_of_topological h.nodup h.topological fun e he => (h.mem e.2).mpr <| by
    rcases mem_arcsOf.mp he with he | ⟨g', hg', -, ht⟩
    · exact (hedges _ he).2
    · exact ht ▸ (hgates g' hg').2
  have hback : Relation.ReflTransGen (fun a b => (a, b) ∈ arcsOf edges gates) g.target
      g.condition :=
    Relation.ReflTransGen.mono (fun _ _ he => mem_arcsOf.mpr (Or.inl he)) _ _ hpath
  have hcycle : Relation.TransGen (fun a b => (a, b) ∈ arcsOf edges gates) g.target g.target :=
    Relation.TransGen.tail' hback (mem_arcsOf.mpr (Or.inr ⟨g, hg, rfl, rfl⟩))
  exact hwf.transGen.irrefl.irrefl _ hcycle

theorem GatesApart.of_none (h : plan.conditionGates = []) : GatesApart plan :=
  ⟨by simp [h], by simp [h]⟩

theorem GatesApart.of_one (horder : plan.topoOrder = .ok order)
    (hone : plan.conditionGates.length ≤ 1) : GatesApart plan := by
  rcases hgates : plan.conditionGates with _ | ⟨gate, rest⟩
  · exact .of_none hgates
  · obtain rfl : rest = [] := by simpa [hgates] using hone
    have hsame : ∀ g ∈ plan.conditionGates, g = gate := by simp [hgates]
    refine ⟨by simp [hgates], fun g hg g' hg' => ?_⟩
    rw [hsame g' hg', ← hsame g hg]
    exact (topoOrder_eq_ok horder).gate_apart plan.inRange plan.gated hg

/-! ## One move -/

section Moves

variable [DecidableEq Key] {setup : Setup V Key} {s s' : Coordinator V Key} {move : Move V}

/-- What each move does, and when it can be made. -/
inductive Setup.Moves (setup : Setup V Key) (s : Coordinator V Key) :
    Move V → Coordinator V Key → Prop
  | drain (hok : s.firstError = none) : setup.Moves s .drain (setup.drain s)
  | dispatch (node : Nat) (hok : s.firstError = none) (hready : node ∈ s.ready) :
    setup.Moves s (.dispatch node) (setup.dispatch s node)
  | finish (index : Nat) (task : Task V Key) (result : TaskResult V)
    (hget : s.join[index]? = some task) (hpossible : setup.possible task result) :
    setup.Moves s (.finish index result) (setup.process (s.without index) task result)
  | suggest (subplan : CompiledPlan V) (hcontrol : setup.ctx.control = true) :
    setup.Moves s (.suggest subplan)
      { s with pendingSpawns := s.pendingSpawns ++ [⟨subplan, [], none⟩] }

theorem Setup.moves_of_step (hstep : setup.step s move = some s') : setup.Moves s move s' := by
  cases move <;> simp only [Setup.step] at hstep <;> split at hstep
  case drain.isTrue hok =>
    cases hstep
    exact .drain (Option.isNone_iff_eq_none.mp hok)
  case dispatch.isTrue hguard =>
    cases hstep
    exact .dispatch _ (Option.isNone_iff_eq_none.mp hguard.1) hguard.2.2
  case h_1 task hget =>
    split at hstep
    · cases hstep
      exact .finish _ task _ hget ‹_›
    · cases hstep
  case suggest.isTrue hguard =>
    cases hstep
    exact .suggest _ hguard.1
  all_goals cases hstep

/-- The task of a ready node starts, without an error. -/
structure Setup.Starts (setup : Setup V Key) (s s' : Coordinator V Key)
    (task : Task V Key) : Prop where
  ready : task.head ∈ s.ready
  tail : task.tail = setup.tailOf task.head
  key : ∃ node, s.nodes[task.head]? = some node ∧
    task.key = setup.runtime.nodeCacheKey node task.input
  join : s'.join = s.join ++ [task]
  started : s'.started = s.started ++ task.members
  error : s.firstError = none ∧ s'.firstError = none

theorem Setup.dispatch_cases (setup : Setup V Key) {n : Nat} (hready : n ∈ s.ready)
    (hnone : s.firstError = none) :
    ((setup.dispatch s n).started = s.started ∧ (setup.dispatch s n).join = s.join) ∨
      ∃ task, setup.Starts s (setup.dispatch s n) task := by
  unfold Setup.dispatch
  split
  · exact Or.inl ⟨rfl, rfl⟩
  · unfold Setup.admit
    split
    · exact Or.inl ⟨rfl, rfl⟩
    · exact Or.inl ⟨rfl, rfl⟩
    · rename_i node input hnode _
      dsimp only
      split
      · exact Or.inl ⟨rfl, rfl⟩
      · exact Or.inr ⟨_, hready, rfl, ⟨node, expect_eq_ok.mp hnode, rfl⟩, rfl, rfl, hnone, hnone⟩

/-- A move starts the task of a ready node, or starts nothing and takes at most a task away. -/
theorem Setup.step_starts (hstep : setup.step s move = some s') :
    (s'.started = s.started ∧ s'.join.Sublist s.join) ∨ ∃ task, setup.Starts s s' task := by
  cases Setup.moves_of_step hstep with
  | drain hok =>
    obtain ⟨hstarted, hjoin⟩ := setup.drain_kept s
    exact Or.inl ⟨hstarted, hjoin ▸ List.Sublist.refl _⟩
  | dispatch node hok hready =>
    refine (setup.dispatch_cases hready hok).imp_left ?_
    exact fun ⟨hstarted, hjoin⟩ => ⟨hstarted, hjoin ▸ List.Sublist.refl _⟩
  | finish index task result hget hpossible =>
    obtain ⟨⟨hstarted, hjoin⟩, -⟩ := setup.process_kept (s.without index) task result
    exact Or.inl ⟨hstarted, hjoin ▸ List.eraseIdx_sublist _ _⟩
  | suggest subplan hcontrol => exact Or.inl ⟨rfl, List.Sublist.refl _⟩

/-- One move keeps the invariant, and an error once recorded stays. -/
theorem Settled.step (hgates : GatesApart setup.plan)
    (h : s.firstError = none → Settled setup s) (hstep : setup.step s move = some s')
    (hok : s'.firstError = none) : s.firstError = none ∧ Settled setup s' := by
  cases Setup.moves_of_step hstep with
  | drain hnone => exact ⟨hnone, (h hnone).drain hgates hok⟩
  | dispatch node hnone hready => exact ⟨hnone, (h hnone).dispatch hgates hready hok⟩
  | finish index task result hget hpossible =>
    have hnone : (s.without index).firstError = none := setup.process_error _ task result hok
    exact ⟨hnone, (h hnone).process hgates hget hpossible hok⟩
  | suggest subplan hcontrol => exact ⟨hok, { h hok with }⟩

/-! ## Runs -/

variable {allowed : Coordinator V Key → Move V → Prop}

theorem Reachable.settled (hgates : GatesApart setup.plan) (h : Reachable setup allowed s)
    (hok : s.firstError = none) : Settled setup s := by
  induction h with
  | start => exact settled_start setup
  | step _ _ hstep ih => exact (Settled.step hgates ih hstep hok).2

/-- No node starts twice, whether or not the loop fails. -/
theorem Reachable.started_nodup (hgates : GatesApart setup.plan) (h : Reachable setup allowed s) :
    s.started.Nodup := by
  induction h with
  | start => exact List.nodup_nil
  | @step s s' move hreach _ hstep ih =>
    rcases Setup.step_starts hstep with ⟨hsame, -⟩ | ⟨task, hstart⟩
    · rw [hsame]
      exact ih
    · have hs := hreach.settled hgates hstart.error.1
      rw [hstart.started, Task.members, hstart.tail]
      refine List.nodup_append'.mpr ⟨ih, setup.group_nodup task.head, fun n hn hn' => ?_⟩
      exact hs.group_fresh (Or.inl hstart.ready) n hn' hn

/-! ## What a start needs -/

/-- A node is not pruned, its selector said yes, and its inputs are there; a later member of a
    task reads the member before it and nothing else. -/
structure MayStart (setup : Setup V Key) (s : Coordinator V Key) (task : Task V Key) (n : Nat) :
    Prop where
  kept : n ∉ s.pruned
  gate : ∀ g ∈ setup.plan.conditionGates, g.target = n →
    ∃ v, (g.condition, v) ∈ s.outcomes ∧ setup.runtime.decision v = some g.when
  inputs : (∀ p ∈ predecessors s.edges n, p ∈ s.completed) ∨
    ∃ p, [p, n] <:+: task.members ∧ predecessors s.edges n = [p]

omit [DecidableEq Key] in
theorem Layout.predecessors_eq {nodes : List PlanNode} (h : Layout plan nodes edges order)
    (hn : n < plan.nodes.length) :
    predecessors edges n = predecessors plan.edges n := by
  obtain ⟨extra, hextra, hout⟩ := h.edges_eq
  have hnone : extra.filter (fun e => e.dst = n) = [] := by
    rw [List.filter_eq_nil_iff]
    intro e he
    have hle := (hout e he).2
    have hne : ¬ e.dst = n := by omega
    simpa using hne
  unfold predecessors
  rw [hextra, List.filter_append, hnone, List.append_nil]

omit [DecidableEq Key] in
/-- The members of the task of a ready node may start. -/
theorem Settled.mayStart (hgates : GatesApart setup.plan) (h : Settled setup s) {task : Task V Key}
    (hready : task.head ∈ s.ready) (htail : task.tail = setup.tailOf task.head)
    (hn : n ∈ task.members) : MayStart setup s task n := by
  have hwait : s.Waiting task.head := Or.inl hready
  have hopen := h.sound.waiting_open task.head hwait
  have hmembers : task.members = task.head :: setup.tailOf task.head := by
    unfold Task.members
    rw [htail]
  rw [hmembers] at hn
  have hkept := h.group_kept hgates hwait n hn
  by_cases hne : n = task.head
  · subst hne
    exact ⟨hkept, fun g hg ht => h.values.passed g hg (ht ▸ hopen.2 g.condition ⟨g, hg, rfl, ht⟩),
      Or.inl fun p hp => hopen.1 p (mem_predecessors.mp hp)⟩
  · have hmem : n ∈ (task.head :: setup.tailOf task.head).tail :=
      (List.mem_cons.mp hn).resolve_left hne
    obtain ⟨p, hin⟩ := tail_mem_iff.mp hmem
    rcases setup.tailOf_spec task.head with hgroup | ⟨hnil, -⟩
    · have hlinked := linked_of_neighbours (setup.grouped.chain _ hgroup) hin
      refine ⟨hkept, fun g hg _ => ?_, Or.inr ⟨p, hmembers ▸ hin, ?_⟩⟩
      · -- with a gate in the plan there are no groups
        rw [(setup.grouped.plain (List.ne_nil_of_mem hgroup)).2] at hg
        exact absurd hg List.not_mem_nil
      · rw [h.layout.predecessors_eq (setup.plan.inRange _ hlinked.edge).2]
        exact hlinked.pred
    · rw [hnil] at hmem
      exact absurd hmem List.not_mem_nil

/-! ## The end of the loop -/

/-- Completed and pruned nodes are all the nodes, none is both, and nothing waits. -/
structure Accounted (s : Coordinator V Key) : Prop where
  once : s.completed.Nodup
  apart : ∀ n ∈ s.completed, n ∉ s.pruned
  all : ∀ n, n ∈ s.order ↔ n ∈ s.completed ∨ n ∈ s.pruned
  ready : s.ready = ∅
  deferred : ∀ key, s.deferred key = []

omit [DecidableEq Key] in
theorem Settled.accounted (hgates : GatesApart setup.plan) (h : Settled setup s) (hdone : s.Done)
    (hok : s.firstError = none) : Accounted s := by
  obtain ⟨hjoin, hend⟩ := hdone
  obtain ⟨-, hready⟩ := hend.resolve_left fun herror => herror hok
  have hdeferred : ∀ key, s.deferred key = [] := by
    intro key
    rw [List.eq_nil_iff_forall_not_mem]
    intro n hn
    simpa [Coordinator.holders, hjoin] using h.keyed.behind n key hn
  have hwait : ∀ n, ¬ s.Waiting n := by
    rintro n (hn | ⟨key, hn⟩)
    · simp [hready] at hn
    · simp [hdeferred key] at hn
  have hended : ∀ n ∈ s.started, n ∈ s.completed ∨ n ∈ s.pruned := by
    intro n hn
    by_contra hno
    rw [not_or] at hno
    simpa [Coordinator.running, hjoin] using (h.busy.mem n).mpr ⟨hn, hno⟩
  refine ⟨h.busy.completed_nodup, h.sound.completed_kept, fun n => ?_, hready, hdeferred⟩
  rw [h.layout.ordered.mem]
  constructor
  · exact h.sound.accounts (setup.network_wf hgates h.layout) hwait (fun _ hn => hn)
      (fun c t hg hc => ⟨c, hg, hc⟩) hended
  · rintro (hc | hp)
    · exact h.sound.started_mem n (h.sound.completed_started n hc)
    · exact h.sound.pruned_mem n hp

/-- Each node's task starts at most once, and only when it may; when the loop ends without an
    error every node has completed or was pruned. -/
theorem every_node_accounted_once (hone : setup.plan.conditionGates.length ≤ 1)
    (h : Reachable setup allowed s) :
    s.started.Nodup ∧
    (∀ move s', setup.step s move = some s' → ∀ n ∈ s'.started, n ∉ s.started →
      ∃ task ∈ s'.join, n ∈ task.members ∧ MayStart setup s task n) ∧
    (s.Done → s.firstError = none → Accounted s) := by
  have hgates := GatesApart.of_one setup.ordered hone
  refine ⟨h.started_nodup hgates, fun move s' hstep n hn hnew => ?_, fun hdone hok =>
    (h.settled hgates hok).accounted hgates hdone hok⟩
  rcases Setup.step_starts hstep with ⟨hsame, -⟩ | ⟨task, hstart⟩
  · rw [hsame] at hn
    exact absurd hn hnew
  · rw [hstart.started, List.mem_append] at hn
    have hmember := hn.resolve_left hnew
    refine ⟨task, ?_, hmember,
      (h.settled hgates hstart.error.1).mayStart hgates hstart.ready hstart.tail hmember⟩
    rw [hstart.join]
    exact List.mem_append_right _ (List.mem_singleton_self task)

end Moves

/-! ## A run -/

def sampleNode (name : String) (input output : String) : PlanNode where
  stage := {
    name := name, inputKind := input, outputKind := output, isAdvisory := false
    deterministic := true, executionBoundary := .inProcess, supportsInProcessHandoff := true }
  canonArgs := ""
  memoryGib := 0
  partition := none

/-- Two equal roots; the selector reads the first, and so does the target. -/
def samplePlan : CompiledPlan Nat where
  nodes := [sampleNode "load" "unit" "rows", sampleNode "choose" "rows" "blut.branch-decision",
    sampleNode "train" "rows" "model", sampleNode "load" "unit" "rows"]
  edges := [⟨0, 1⟩, ⟨0, 2⟩]
  initial := fun id => if id = 0 ∨ id = 3 then some 0 else none
  expansions := []
  conditionGates := [⟨1, 2, true⟩]
  inRange := by decide
  gated := by decide
  seeded := by
    intro id v h
    split_ifs at h with hid
    rcases hid with rfl | rfl <;> decide

def sampleSetup : Setup Nat (String × Nat) where
  plan := samplePlan
  ctx := {
    maxInFlight := 2, control := false, strictAdvisory := false, memoryBudgetGib := 4
    resolveInjectedPlan := fun _ => .ok () }
  runtime := {
    tuple := List.sum, decision := fun v => if v = 1 then some true else some false
    decisionError := fun _ => "", children := fun _ => none, childrenError := fun _ => ""
    nodeCacheKey := fun node input => (node.stage.name, input) }
  order := [0, 3, 1, 2]
  groups := []
  ordered := by decide +kernel
  grouped := grouped_nil _
  uncontrolled := fun h => absurd rfl h

theorem sampleSetup_uncontrolled :
    ([] : List (List Nat)) ≠ [] → sampleSetup.ctx.control = false := fun _ => rfl

/-- The second root waits behind the first, which has its key; the selector lets the target run. -/
def sampleMoves : List (Move Nat) :=
  [.dispatch 0, .dispatch 3, .finish 0 (.finished [5]), .dispatch 1, .dispatch 3,
    .finish 1 (.finished [5]), .finish 0 (.finished [1]), .dispatch 2, .finish 0 (.finished [9])]

theorem sampleMoves_run : (sampleSetup.run sampleMoves sampleSetup.start).isSome = true := by
  decide +kernel

theorem every_node_accounted_once_sample :
    ∃ s, Reachable sampleSetup (fun _ _ => True) s ∧ s.completed = [0, 3, 1, 2] ∧
      s.started.Nodup ∧ Accounted s := by
  have hreach := Reachable.start.run (Option.some_get sampleMoves_run).symm
  have hall := every_node_accounted_once (by decide) hreach
  refine ⟨_, hreach, by decide +kernel, hall.1, hall.2.2 ⟨?_, Or.inr ⟨?_, ?_⟩⟩ ?_⟩ <;>
    decide +kernel

end Blut.Framework
