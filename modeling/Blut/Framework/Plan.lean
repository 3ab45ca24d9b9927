/-
  Compiled plans (`framework/plan.rs`).

  A plan is a list of nodes, whose positions are their ids, typed data edges between them, the
  artifacts its roots are seeded with, and boolean gates that let a node run only when another
  one decided so. That edges and gates stay inside the plan is a field of `CompiledPlan`.
  `topoOrder` is Kahn's algorithm with a queue over edges and gates together; when it returns,
  every edge and every gate goes forward in the order (`topoOrder_eq_ok`).
-/
import Blut.Lib.TopologicalSort

namespace Blut.Framework

open Blut.Lib

inductive StageExecutionBoundary where
  | opaqueWork
  | inProcess
  | subprocess
  deriving DecidableEq

/-- What planning and scheduling ask of a stage (`StageDyn`). -/
structure Stage where
  name : String
  inputKind : String
  outputKind : String
  isAdvisory : Bool
  deterministic : Bool
  executionBoundary : StageExecutionBoundary
  supportsInProcessHandoff : Bool
  deriving DecidableEq

/-- Times in nanoseconds. -/
inductive Backoff where
  | none
  | fixed (wait : Nat)
  | exponential (base multX100 cap : Nat)
  deriving DecidableEq

inductive RetryOn where
  | transient
  | allErrors
  | outOfMemoryOnly
  deriving DecidableEq

structure RetryPolicy where
  maxAttempts : Nat
  backoff : Backoff
  retryOn : RetryOn
  deriving DecidableEq

structure StageTimeout where
  soft : Option Nat
  hard : Option Nat
  deriving DecidableEq

/-- A node; its id is its position. `memoryGib` is `stage.memory_gib_for(args)`. -/
structure PlanNode where
  stage : Stage
  canonArgs : String
  memoryGib : Nat
  partition : Option String
  retry : Option RetryPolicy := none
  timeout : Option StageTimeout := none
  priority : Option Int := none
  pure : Bool := false
  deriving DecidableEq

structure PlanEdge where
  src : Nat
  dst : Nat
  deriving DecidableEq

/-- `target` may run only when the decision of `condition` equals `when`. -/
structure CompiledConditionGate where
  condition : Nat
  target : Nat
  when : Bool
  deriving DecidableEq

inductive PlanError where
  | empty
  | cycle (node : Nat)
  | stageFailed (idx : Nat) (stage : String) (source : String)
  | cancelled
  | rootNotGraphInput (stage got : String)
  | kindBreak (fromStage outKind toStage inKind : String)
  | badMergeArity (stage expectedKind : String) (got : Nat)
  | edgeOutOfRange (src dst : Nat) (nNodes : Nat)
  | duplicateEdge (src dst : Nat)
  | other (message : String)
  deriving DecidableEq

def edgesInRange (edges : List PlanEdge) (n : Nat) : Prop :=
  ∀ e ∈ edges, e.src < n ∧ e.dst < n

def gatesInRange (gates : List CompiledConditionGate) (n : Nat) : Prop :=
  ∀ g ∈ gates, g.condition < n ∧ g.target < n

/-- The sub-plan of a map fan-out; its one root takes a list element. -/
structure CompiledTemplate where
  root : Nat
  nodes : List PlanNode
  edges : List PlanEdge
  elemKind : String
  inRange : edgesInRange edges nodes.length

structure MapExpansion where
  parent : Nat
  template : CompiledTemplate
  label : Option String

/-! ## Neighbours -/

variable {p : Nat}

/-- The sources of the edges into a node, in the order of the edges. -/
def predecessors (edges : List PlanEdge) (node : Nat) : List Nat :=
  (edges.filter fun e => e.dst = node).map PlanEdge.src

def successors (edges : List PlanEdge) (node : Nat) : List Nat :=
  (edges.filter fun e => e.src = node).map PlanEdge.dst

/-- `condition_targets`: the gates that a node decides. -/
def gatesOf (gates : List CompiledConditionGate) (condition : Nat) : List CompiledConditionGate :=
  gates.filter fun g => g.condition = condition

variable {edges edges' : List PlanEdge} {n : Nat} {gates : List CompiledConditionGate}

theorem exists_edge : (∃ e ∈ edges, e.src = p ∧ e.dst = n) ↔ ⟨p, n⟩ ∈ edges := by
  constructor
  · rintro ⟨e, he, rfl, rfl⟩
    exact he
  · exact fun h => ⟨_, h, rfl, rfl⟩

@[simp] theorem mem_predecessors : p ∈ predecessors edges n ↔ ⟨p, n⟩ ∈ edges := by
  rw [← exists_edge]
  simp [predecessors, and_assoc, and_comm]

@[simp] theorem mem_successors : n ∈ successors edges p ↔ ⟨p, n⟩ ∈ edges := by
  rw [← exists_edge]
  simp [successors, and_assoc]

@[simp] theorem mem_gatesOf {c : Nat} {g : CompiledConditionGate} :
    g ∈ gatesOf gates c ↔ g ∈ gates ∧ g.condition = c := by
  simp [gatesOf]

/-! ## Plans -/

/-- A plan. Its edges and gates stay inside it, and only roots are seeded. -/
structure CompiledPlan (V : Type) where
  nodes : List PlanNode
  edges : List PlanEdge
  initial : Nat → Option V
  expansions : List MapExpansion
  conditionGates : List CompiledConditionGate
  inRange : edgesInRange edges nodes.length
  gated : gatesInRange conditionGates nodes.length
  seeded : ∀ id v, initial id = some v → id < nodes.length ∧ predecessors edges id = []

variable {V : Type}

def CompiledTemplate.instantiate (template : CompiledTemplate) : CompiledPlan V where
  nodes := template.nodes
  edges := template.edges
  initial := fun _ => none
  expansions := []
  conditionGates := []
  inRange := template.inRange
  gated := by simp [gatesInRange]
  seeded := by simp

/-! ## The topological order -/

variable {plan : CompiledPlan V}

/-- Data edges, then gates. -/
def arcsOf (edges : List PlanEdge) (gates : List CompiledConditionGate) : List (Nat × Nat) :=
  edges.map (fun e => (e.src, e.dst)) ++ gates.map fun g => (g.condition, g.target)

def CompiledPlan.arcs (plan : CompiledPlan V) : List (Nat × Nat) :=
  arcsOf plan.edges plan.conditionGates

theorem mem_arcsOf {a b : Nat} : (a, b) ∈ arcsOf edges gates ↔
      ⟨a, b⟩ ∈ edges ∨ ∃ g ∈ gates, g.condition = a ∧ g.target = b := by
  simp [arcsOf, exists_edge]

theorem arcs_inRange (plan : CompiledPlan V) {a b : Nat} (h : (a, b) ∈ plan.arcs) :
    a < plan.nodes.length ∧ b < plan.nodes.length := by
  rcases mem_arcsOf.mp h with he | ⟨g, hg, rfl, rfl⟩
  · exact plan.inRange _ he
  · exact plan.gated g hg

/-- The nodes with the number of arcs into each. -/
def CompiledPlan.indegrees (plan : CompiledPlan V) : BTreeMap Nat Nat :=
  BTreeMap.ofList ((List.range plan.nodes.length).map fun i =>
    (i, plan.arcs.countP fun arc => decide (arc.2 = i)))

/-- The first node an arc from an unvisited node points to. -/
def offender (arcs : List (Nat × Nat)) (n : Nat) (order : List Nat) : Nat :=
  ((List.range n).find? fun i => decide (0 < unvisitedInto arcs order i)).getD 0

/-- Kahn's algorithm; ready nodes wait in a queue. -/
def CompiledPlan.topoOrder (plan : CompiledPlan V) : Outcome PlanError (List Nat) := do
  reject (plan.nodes.length = 0) .empty
  let order ← kahn Worklist.queue .panic
    (fun node => (plan.arcs.filter fun arc => arc.1 = node).map Prod.snd) plan.indegrees
  reject (order.length ≠ plan.nodes.length)
    (.cycle (offender plan.arcs plan.nodes.length order))
  return order

theorem keys_indegrees (plan : CompiledPlan V) (v : Nat) :
    v ∈ plan.indegrees.keys ↔ v < plan.nodes.length := by
  rw [BTreeMap.mem_keys_iff, ← BTreeMap.contains_iff]
  unfold CompiledPlan.indegrees
  rw [BTreeMap.contains_ofList]
  simp

theorem get?_indegrees (plan : CompiledPlan V) {v : Nat} (hv : v < plan.nodes.length) :
    plan.indegrees.get? v = some (plan.arcs.countP fun arc => decide (arc.2 = v)) := by
  unfold CompiledPlan.indegrees
  rw [BTreeMap.get?_ofList_eq_some]
  · exact List.mem_map.mpr ⟨v, List.mem_range.mpr hv, rfl⟩
  · rw [List.map_map]
    have hid : (Prod.fst ∘ fun i => (i, plan.arcs.countP fun arc => decide (arc.2 = i))) = id := rfl
    rw [hid, List.map_id]
    exact List.nodup_range

/-- The order of a plan: every node once, every edge and gate forward. -/
structure Ordered (edges : List PlanEdge) (gates : List CompiledConditionGate) (n : Nat)
    (order : List Nat) : Prop where
  nodup : order.Nodup
  mem : ∀ v, v ∈ order ↔ v < n
  topological : Topological (arcsOf edges gates) order

/-- What the algorithm visits is the order, if it is every node. -/
theorem topoOrder_visits (plan : CompiledPlan V) : ∃ result : List Nat, result.Nodup ∧
    (∀ v ∈ result, v ∈ List.range plan.nodes.length) ∧ Topological plan.arcs result ∧
    (∀ v ∈ List.range plan.nodes.length, v ∉ result → ∃ src, (src, v) ∈ plan.arcs ∧ src ∉ result) ∧
    ∀ order, plan.topoOrder = .ok order ↔
      plan.nodes.length ≠ 0 ∧ result.length = plan.nodes.length ∧ result = order := by
  obtain ⟨result, hrun, hnd, hmem, htop, hwaits⟩ := @kahn_spec Nat _ PlanError plan.arcs
    plan.indegrees _ .panic (fun _ => List.Perm.refl _)
    (fun e he => (keys_indegrees plan e.2).mpr (arcs_inRange plan he).2)
    (fun v hv => get?_indegrees plan ((keys_indegrees plan v).mp hv)) Worklist.queue
  simp only [keys_indegrees, ← List.mem_range] at hmem hwaits
  refine ⟨result, hnd, hmem, htop, hwaits, fun order => ?_⟩
  unfold CompiledPlan.topoOrder
  rw [hrun]
  simp [reject_bind_eq_ok]

theorem topoOrder_eq_ok {order : List Nat} (h : plan.topoOrder = .ok order) :
    Ordered plan.edges plan.conditionGates plan.nodes.length order := by
  obtain ⟨result, hnd, hmem, htop, -, hiff⟩ := topoOrder_visits plan
  obtain ⟨-, hlength, rfl⟩ := (hiff order).mp h
  -- as many distinct nodes below `n` as there are
  have hperm := (List.subperm_of_subset hnd hmem).perm_of_length_le
    (by rw [List.length_range, hlength])
  exact ⟨hnd, fun v => hperm.mem_iff.trans List.mem_range, htop⟩

/-! ## Building plans -/

/-- One edge of `from_erased_graph`: inside the plan, and not a repetition. -/
def checkEdge (n : Nat) (seen : List PlanEdge) (e : PlanEdge) :
    Outcome PlanError (List PlanEdge) := do
  reject (e.src ≥ n || e.dst ≥ n) (.edgeOutOfRange e.src e.dst n)
  reject (seen.contains e) (.duplicateEdge e.src e.dst)
  return e :: seen

/-- The kind of the artifact that a node with `k` predecessors takes. -/
def tupleKind (k : Nat) : String := "tuple<" ++ toString k ++ ">"

def unitKind : String := "()"

/-- The kind check of one node against its predecessors. -/
def checkKind (nodes : List PlanNode) (edges : List PlanEdge)
    (id : Nat) : Outcome PlanError Unit := do
  let stage ← expect (nodes[id]?.map PlanNode.stage)
  match predecessors edges id with
  | [] => reject (stage.inputKind ≠ unitKind) (.rootNotGraphInput stage.name stage.inputKind)
  | [only] => do
    let source ← expect (nodes[only]?.map PlanNode.stage)
    reject (source.outputKind ≠ stage.inputKind)
      (.kindBreak source.name source.outputKind stage.name stage.inputKind)
  | many =>
    reject (stage.inputKind ≠ tupleKind many.length)
      (.badMergeArity stage.name stage.inputKind many.length)

instance (edges : List PlanEdge) (n : Nat) : Decidable (edgesInRange edges n) := by
  unfold edgesInRange
  infer_instance

instance (gates : List CompiledConditionGate) (n : Nat) : Decidable (gatesInRange gates n) := by
  unfold gatesInRange
  infer_instance

/-- The unit artifact under every root. -/
def rootSeeds (unit : V) (edges : List PlanEdge) (n : Nat) (id : Nat) : Option V :=
  if id < n ∧ predecessors edges id = [] then some unit else none

theorem rootSeeds_seeded {unit : V} (id : Nat) (v : V) (h : rootSeeds unit edges n id = some v) :
    id < n ∧ predecessors edges id = [] := by
  unfold rootSeeds at h
  split_ifs at h with hroot
  exact hroot

/-- The plan of a checked graph, without gates and expansions. -/
def erasedPlan (unit : V) (nodes : List PlanNode) (edges : List PlanEdge)
    (h : edgesInRange edges nodes.length) : CompiledPlan V where
  nodes := nodes
  edges := edges
  initial := rootSeeds unit edges nodes.length
  expansions := []
  conditionGates := []
  inRange := h
  gated := by simp [gatesInRange]
  seeded := rootSeeds_seeded

/-- `CompiledPlan::from_erased_graph`. An edge out of range is an error above and an index out of
    bounds below. -/
def fromErasedGraph (unit : V) (nodes : List PlanNode) (edges : List PlanEdge) :
    Outcome PlanError (CompiledPlan V) := do
  reject (nodes.length = 0) .empty
  let _ ← edges.foldlM (checkEdge nodes.length) []
  (List.range nodes.length).forM (checkKind nodes edges)
  if h : edgesInRange edges nodes.length then do
    let plan := erasedPlan unit nodes edges h
    let _ ← plan.topoOrder
    return plan
  else .error .panic

theorem fromErasedGraph_eq_ok {unit : V} {nodes : List PlanNode}
    (h : fromErasedGraph unit nodes edges = .ok plan) :
    ∃ hin, plan = erasedPlan unit nodes edges hin ∧ ∃ order, plan.topoOrder = .ok order := by
  unfold fromErasedGraph at h
  obtain ⟨-, h⟩ := reject_bind_eq_ok.mp h
  obtain ⟨_, -, h⟩ := bind_eq_ok.mp h
  obtain ⟨_, -, h⟩ := bind_eq_ok.mp h
  split_ifs at h with hin
  obtain ⟨order, horder, h⟩ := bind_eq_ok.mp h
  have hplan : erasedPlan unit nodes edges hin = plan := by simpa using h
  exact ⟨hin, hplan.symm, order, hplan ▸ horder⟩

/-- `with_condition_gates`. -/
def CompiledPlan.withConditionGates (plan : CompiledPlan V) (gates : List CompiledConditionGate) :
    Outcome PlanError (CompiledPlan V) := do
  gates.forM fun gate =>
    reject (gate.condition ≥ plan.nodes.length || gate.target ≥ plan.nodes.length)
      (.edgeOutOfRange gate.condition gate.target plan.nodes.length)
  if h : gatesInRange gates plan.nodes.length then do
    let plan := { plan with conditionGates := gates, gated := h }
    let _ ← plan.topoOrder
    return plan
  else .error .panic

structure ExecutionOverrides where
  retry : Option RetryPolicy
  timeout : Option StageTimeout
  priority : Option Int
  pure : Bool

def PlanNode.override (node : PlanNode) (overrides : ExecutionOverrides) : PlanNode :=
  { node with
    retry := overrides.retry.or node.retry
    timeout := overrides.timeout.or node.timeout
    priority := overrides.priority.or node.priority
    pure := overrides.pure }

/-- The nodes with the overrides at their positions. -/
def overrideNodes : List PlanNode → List ExecutionOverrides → List PlanNode
  | node :: nodes, first :: overrides => node.override first :: overrideNodes nodes overrides
  | nodes, [] => nodes
  | [], _ => []

@[simp] theorem length_overrideNodes (nodes : List PlanNode) (overrides : List ExecutionOverrides) :
    (overrideNodes nodes overrides).length = nodes.length := by
  induction nodes generalizing overrides with
  | nil => cases overrides <;> rfl
  | cons node nodes ih =>
    cases overrides with
    | nil => rfl
    | cons first overrides => simp [overrideNodes, ih]

/-- `apply_execution_overrides`. -/
def CompiledPlan.applyExecutionOverrides (plan : CompiledPlan V)
    (overrides : List ExecutionOverrides) : CompiledPlan V :=
  { plan with
    nodes := overrideNodes plan.nodes overrides
    inRange := by
      rw [length_overrideNodes]
      exact plan.inRange
    gated := by
      rw [length_overrideNodes]
      exact plan.gated
    seeded := by
      rw [length_overrideNodes]
      exact plan.seeded }

/-- `with_expansions`. -/
def CompiledPlan.withExpansions (plan : CompiledPlan V) (expansions : List MapExpansion) :
    CompiledPlan V :=
  { plan with expansions := expansions }

/-! ## Components side by side -/

def PlanEdge.shift (offset : Nat) (e : PlanEdge) : PlanEdge :=
  ⟨e.src + offset, e.dst + offset⟩

def CompiledConditionGate.shift (offset : Nat) (g : CompiledConditionGate) :
    CompiledConditionGate :=
  ⟨g.condition + offset, g.target + offset, g.when⟩

/-- The edges into a node of the first part. -/
theorem predecessors_append_left {id : Nat} (hid : id < n) :
    predecessors (edges ++ edges'.map (PlanEdge.shift n)) id = predecessors edges id := by
  have hnone : (edges'.map (PlanEdge.shift n)).filter (fun e => e.dst = id) = [] := by
    rw [List.filter_eq_nil_iff]
    intro e he
    obtain ⟨e', -, rfl⟩ := List.mem_map.mp he
    have hdst : ¬ e'.dst + n = id := by omega
    simp [PlanEdge.shift, hdst]
  unfold predecessors
  rw [List.filter_append, hnone, List.append_nil]

/-- The edges into a node of the second part. -/
theorem predecessors_append_right {id : Nat} (hedges : edgesInRange edges n) :
    predecessors (edges ++ edges'.map (PlanEdge.shift n)) (id + n) =
      (predecessors edges' id).map (· + n) := by
  have hnone : edges.filter (fun e => e.dst = id + n) = [] := by
    rw [List.filter_eq_nil_iff]
    intro e he
    have hdst := (hedges e he).2
    have hne : ¬ e.dst = id + n := by omega
    simpa using hne
  unfold predecessors
  rw [List.filter_append, hnone, List.nil_append, List.filter_map, List.map_map, List.map_map]
  have hsame : ((fun e : PlanEdge => decide (e.dst = id + n)) ∘ PlanEdge.shift n) =
      fun e => decide (e.dst = id) := by
    funext e
    simp [PlanEdge.shift]
  rw [hsame]
  rfl

theorem edgesInRange_append {k : Nat} (h : edgesInRange edges n) (h' : edgesInRange edges' k) :
    edgesInRange (edges ++ edges'.map (PlanEdge.shift n)) (n + k) := by
  refine List.forall_mem_append.mpr ⟨fun e he => ?_, List.forall_mem_map.mpr fun e he => ?_⟩
  · have hr := h e he
    omega
  · have hr := h' e he
    show e.src + n < n + k ∧ e.dst + n < n + k
    omega

theorem gatesInRange_append {gates' : List CompiledConditionGate} {k : Nat}
    (h : gatesInRange gates n) (h' : gatesInRange gates' k) :
    gatesInRange (gates ++ gates'.map (CompiledConditionGate.shift n)) (n + k) := by
  refine List.forall_mem_append.mpr ⟨fun g hg => ?_, List.forall_mem_map.mpr fun g hg => ?_⟩
  · have hr := h g hg
    omega
  · have hr := h' g hg
    show g.condition + n < n + k ∧ g.target + n < n + k
    omega

/-- An edge of two graphs side by side. -/
theorem mem_append_shift {edges edges' : List PlanEdge} {base n : Nat} :
    ⟨p, n⟩ ∈ edges ++ edges'.map (PlanEdge.shift base) ↔
      ⟨p, n⟩ ∈ edges ∨ ∃ p' n', ⟨p', n'⟩ ∈ edges' ∧ p = p' + base ∧ n = n' + base := by
  rw [List.mem_append, List.mem_map]
  refine or_congr_right ⟨?_, ?_⟩
  · rintro ⟨⟨p', n'⟩, he, ⟨⟩⟩
    exact ⟨p', n', he, rfl, rfl⟩
  · rintro ⟨p', n', he, rfl, rfl⟩
    exact ⟨⟨p', n'⟩, he, rfl⟩

/-- The plan with one more component, its ids moved past those already there. -/
def CompiledPlan.append (plan comp : CompiledPlan V) : CompiledPlan V where
  nodes := plan.nodes ++ comp.nodes
  edges := plan.edges ++ comp.edges.map (PlanEdge.shift plan.nodes.length)
  initial := fun id =>
    if id < plan.nodes.length then plan.initial id else comp.initial (id - plan.nodes.length)
  expansions := []
  conditionGates :=
    plan.conditionGates ++ comp.conditionGates.map (CompiledConditionGate.shift plan.nodes.length)
  inRange := by
    rw [List.length_append]
    exact edgesInRange_append plan.inRange comp.inRange
  gated := by
    rw [List.length_append]
    exact gatesInRange_append plan.gated comp.gated
  seeded := by
    intro id v h
    rw [List.length_append]
    split_ifs at h with hid
    · obtain ⟨hlt, hroot⟩ := plan.seeded id v h
      exact ⟨by omega, (predecessors_append_left hid).trans hroot⟩
    · obtain ⟨hlt, hroot⟩ := comp.seeded _ v h
      have hsum : id - plan.nodes.length + plan.nodes.length = id := by omega
      refine ⟨by omega, ?_⟩
      rw [← hsum, predecessors_append_right plan.inRange, hroot]
      rfl

def CompiledPlan.nothing : CompiledPlan V where
  nodes := []
  edges := []
  initial := fun _ => none
  expansions := []
  conditionGates := []
  inRange := by simp [edgesInRange]
  gated := by simp [gatesInRange]
  seeded := by simp

/-- `CompiledPlan::from_components`, with the first id of each component. -/
def fromComponents (components : List (CompiledPlan V)) : CompiledPlan V × List Nat :=
  components.foldl
    (fun (merged, offsets) comp => (merged.append comp, offsets ++ [merged.nodes.length]))
    (CompiledPlan.nothing, [])

theorem fromComponents_concat (parts : List (CompiledPlan V)) (part : CompiledPlan V) :
    (fromComponents (parts ++ [part])).1 = (fromComponents parts).1.append part := by
  unfold fromComponents
  rw [List.foldl_append]
  rfl

end Blut.Framework
