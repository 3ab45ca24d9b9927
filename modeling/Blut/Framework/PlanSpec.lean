/-
  Plans from a specification (`framework/plan_spec.rs`: `PlanSpec::compile`).

  A specification names its stages and may have map fan-outs, or one condition gate. The gate is
  accepted when its branch, the target with everything behind it, takes nothing from outside
  except at the target, and holds the one terminal of the plan.
-/
import Blut.Lib.Reachability
import Blut.Framework.Plan

namespace Blut.Framework

open Blut.Lib

/-! ## Specifications -/

/-- A stage as it is registered. -/
structure RegisteredStage where
  stage : Stage
  speculationSafe : Bool
  outputElementKind : Option String
  memoryGibFor : String → Nat

/-- `Registry::find_erased_stage`. -/
abbrev StageRegistry := String → Option RegisteredStage

/-- `args` are the canonical bytes of the arguments. -/
structure SpecNode where
  stage : String
  args : String
  retry : Option RetryPolicy := none
  timeout : Option StageTimeout := none
  priority : Option Int := none
  pure : Bool := false

/-- The template of a fan-out; `nested` when it has fan-outs or gates of its own. -/
structure TemplateSpec where
  name : String
  nodes : List SpecNode
  edges : List PlanEdge
  nested : Bool

structure MapSpec where
  parent : Nat
  template : TemplateSpec
  label : Option String

structure PlanSpec where
  name : String
  nodes : List SpecNode
  edges : List PlanEdge
  expansions : List MapSpec
  conditionGates : List CompiledConditionGate

inductive PlanSpecError where
  | unknownStage (name stage : String)
  | plan (name : String) (source : PlanError)
  | badMap (name : String) (parent : Nat) (detail : String)
  | badCondition (name : String) (condition target : Nat) (detail : String)
  | unsafePure (name : String) (node : Nat) (stage : String)

/-- The text of an error. -/
def PlanError.display : PlanError → String
  | .empty => "plan has no nodes"
  | .cycle node => s!"plan has a cycle (node {node})"
  | .stageFailed idx stage source => s!"plan stage '{stage}' (idx {idx}) failed: {source}"
  | .cancelled => "plan cancelled"
  | .rootNotGraphInput stage got =>
    s!"plan root stage '{stage}' must be graph-input (input_kind \"()\"), but it expects '{got}'"
  | .kindBreak fromStage outKind toStage inKind =>
    s!"kind break — stage '{fromStage}' outputs '{outKind}' but stage '{toStage}' expects '{inKind}'"
  | .badMergeArity stage expectedKind got =>
    s!"merge arity mismatch — stage '{stage}' expects input '{expectedKind}' but has {got} predecessors"
  | .edgeOutOfRange src dst nNodes =>
    s!"plan edge ({src}, {dst}) references a node out of range (plan has {nNodes} nodes)"
  | .duplicateEdge src dst => s!"plan has a duplicate edge ({src}, {dst})"
  | .other message => s!"plan: {message}"

def RegisteredStage.node (registered : RegisteredStage) (args : String) : PlanNode where
  stage := registered.stage
  canonArgs := args
  memoryGib := registered.memoryGibFor args
  partition := none

/-- `resolve_nodes`: the registered stages with their nodes. -/
def resolveNodes (name : String) (registry : StageRegistry) (nodes : List SpecNode) :
    Outcome PlanSpecError (List (RegisteredStage × PlanNode)) :=
  nodes.mapM fun spec => do
    let registered ← okOr (registry spec.stage) (.unknownStage name spec.stage)
    return (registered, registered.node spec.args)

/-! ## Condition gates -/

def decisionKind : String := "blut.branch-decision"

/-- The target of a gate and everything behind it. -/
def branchOf (edges : List PlanEdge) (n target : Nat) : Finset Nat :=
  reach (successors edges) (Finset.range n) [target] ∅

/-- The nodes without a data successor, the selector apart. -/
def terminalsOf (edges : List PlanEdge) (n condition : Nat) : List Nat :=
  (List.range n).filter fun id => id ≠ condition && (successors edges id).isEmpty

/-- A predecessor outside the branch. -/
def outsidePredecessor (edges : List PlanEdge) (branch : Finset Nat) (id : Nat) : Option Nat :=
  (predecessors edges id).find? fun p => p ∉ branch

/-- The node of the branch with an input from outside, the target apart. -/
def reconvergence (edges : List PlanEdge) (branch : Finset Nat) (target : Nat) :
    Option (Nat × Nat) :=
  (branch.sort (· ≤ ·)).findSome? fun id =>
    if id = target then none else (outsidePredecessor edges branch id).map fun p => (id, p)

/-- The stages that ask to be pure have to be safe to speculate on. -/
def PlanSpec.checkPure (spec : PlanSpec) (nodes : List (RegisteredStage × PlanNode)) :
    Outcome PlanSpecError Unit :=
  ((List.range spec.nodes.length).zip (spec.nodes.zip nodes)).forM
    fun (index, node, registered, _) =>
    reject (node.pure && (!registered.speculationSafe || !registered.stage.deterministic))
      (.unsafePure spec.name index registered.stage.name)

/-- The checks of the one gate. -/
def PlanSpec.checkGate (spec : PlanSpec) (nodes : List PlanNode) (gate : CompiledConditionGate) :
    Outcome PlanSpecError Unit := do
  let bad := fun detail => PlanSpecError.badCondition spec.name gate.condition gate.target detail
  reject (spec.conditionGates.length ≠ 1) (bad
    "v1 supports one exclusive condition gate per plan; use a later phi/select IR for multiple arms")
  reject (!spec.expansions.isEmpty) (bad
    "condition gates cannot be composed with map_output expansions in v1")
  let n := nodes.length
  reject (gate.condition ≥ n || gate.target ≥ n) (bad
    s!"node index out of range (plan has {n} nodes)")
  reject (gate.condition = gate.target) (bad "a condition cannot gate itself")
  let selector ← expect (nodes[gate.condition]?.map PlanNode.stage)
  let selectorName := selector.name
  let gotKind := selector.outputKind
  reject (gotKind ≠ decisionKind) (bad
    s!"condition stage '{selectorName}' outputs '{gotKind}', expected '{decisionKind}'")
  reject selector.isAdvisory (bad
    "the condition stage cannot be advisory because its decision is load-bearing")
  reject (spec.edges.any fun e => e.src = gate.condition && e.dst = gate.target) (bad
    "the condition relation must not also be a typed data edge")
  spec.edges.forM fun e =>
    let src := e.src
    let dst := e.dst
    reject (src ≥ n || dst ≥ n)
      (bad s!"data edge {src}->{dst} is out of range (plan has {n} nodes)")
  let branch := branchOf spec.edges n gate.target
  (reconvergence spec.edges branch gate.target).forM fun (id, outside) =>
    fail (bad
      s!"reconvergent node {id} also depends on outside node {outside}; v1 has no phi/select semantics")
  let terminals := terminalsOf spec.edges n gate.condition
  reject (terminals.length ≠ 1 || !(terminals.head?.any fun id => id ∈ branch)) (bad
    s!"v1 requires one gated terminal output, found terminals {terminals}")

/-- `compile_condition_gates`. -/
def PlanSpec.compileConditionGates (spec : PlanSpec) (nodes : List (RegisteredStage × PlanNode)) :
    Outcome PlanSpecError (List CompiledConditionGate) := do
  spec.checkPure nodes
  match spec.conditionGates.head? with
  | none => return []
  | some gate =>
    spec.checkGate (nodes.map Prod.snd) gate
    return [gate]

/-! ## Templates -/

/-- The kind check of a template node; a root takes the element. -/
def checkTemplateKind (elemKind : String) (nodes : List PlanNode)
    (edges : List PlanEdge) (id : Nat) :
    Outcome PlanError Unit := do
  let stage ← expect (nodes[id]?.map PlanNode.stage)
  let element := s!"<list element '{elemKind}'>"
  match predecessors edges id with
  | [] =>
    reject (stage.inputKind ≠ elemKind) (.kindBreak element elemKind stage.name stage.inputKind)
  | _ :: _ => checkKind nodes edges id

def templateRoots (edges : List PlanEdge) (n : Nat) : List Nat :=
  (List.range n).filter fun id => (predecessors edges id).isEmpty

/-- `CompiledPlan::from_erased_template`. -/
def fromErasedTemplate (elemKind : String) (nodes : List PlanNode) (edges : List PlanEdge) :
    Outcome PlanError CompiledTemplate := do
  reject (nodes.length = 0) .empty
  let _ ← edges.foldlM (checkEdge nodes.length) []
  (List.range nodes.length).forM (checkTemplateKind elemKind nodes edges)
  match templateRoots edges nodes.length with
  | [root] =>
    if h : edgesInRange edges nodes.length then do
      let template : CompiledTemplate := ⟨root, nodes, edges, elemKind, h⟩
      let _ ← (template.instantiate : CompiledPlan Unit).topoOrder
      return template
    else .error .panic
  | roots =>
    let found := roots.length
    fail (.other
      s!"a map template must have exactly one root (the element consumer), found {found}")

/-- One fan-out. -/
def PlanSpec.compileMap (spec : PlanSpec) (registry : StageRegistry)
    (nodes : List (RegisteredStage × PlanNode)) (map : MapSpec) :
      Outcome PlanSpecError MapExpansion := do
  let bad := fun detail => PlanSpecError.badMap spec.name map.parent detail
  let n := nodes.length
  let (parent, _) ← okOr nodes[map.parent]? (bad s!"parent index out of range (plan has {n} nodes)")
  let parentName := parent.stage.name
  let parentKind := parent.stage.outputKind
  let elemKind ← okOr parent.outputElementKind (bad
    s!"parent stage '{parentName}' does not output a list (its output is '{parentKind}')")
  reject (map.template.nested || map.template.nodes.any SpecNode.pure) (bad
    "nested maps, condition gates, and pure template nodes are not supported (v1)")
  let templateNodes ← resolveNodes map.template.name registry map.template.nodes
  let template ← mapErr (fun e => bad e.display)
    (fromErasedTemplate elemKind (templateNodes.map Prod.snd) map.template.edges)
  return { parent := map.parent, template := template, label := map.label }

/-! ## Compilation -/

def SpecNode.overrides (spec : SpecNode) : ExecutionOverrides where
  retry := spec.retry
  timeout := spec.timeout
  priority := spec.priority
  pure := spec.pure

/-- `PlanSpec::compile`. `unit` is the graph input. -/
def PlanSpec.compile {V : Type} (spec : PlanSpec) (unit : V) (registry : StageRegistry) :
    Outcome PlanSpecError (CompiledPlan V) := do
  let nodes ← resolveNodes spec.name registry spec.nodes
  let gates ← spec.compileConditionGates nodes
  let expansions ← spec.expansions.mapM (spec.compileMap registry nodes)
  let plan ← mapErr (PlanSpecError.plan spec.name)
    (fromErasedGraph unit (nodes.map Prod.snd) spec.edges)
  let plan := plan.applyExecutionOverrides (spec.nodes.map SpecNode.overrides)
  let plan ← mapErr (PlanSpecError.plan spec.name) (plan.withConditionGates gates)
  return plan.withExpansions expansions

/-! ## What a compiled specification is -/

section Compiled

variable {V : Type} {gates : List CompiledConditionGate} {plan : CompiledPlan V}

theorem withConditionGates_eq_ok {plan' : CompiledPlan V}
    (h : plan.withConditionGates gates = .ok plan') :
    ∃ hin : gatesInRange gates plan.nodes.length,
      plan' = { plan with conditionGates := gates, gated := hin } := by
  unfold CompiledPlan.withConditionGates at h
  obtain ⟨_, -, h⟩ := bind_eq_ok.mp h
  split_ifs at h with hin
  obtain ⟨order, -, h⟩ := bind_eq_ok.mp h
  exact ⟨hin, (Except.ok.inj h).symm⟩

/-- The gates of a specification are none, or the one that passed its checks. -/
theorem PlanSpec.compileConditionGates_eq_ok {spec : PlanSpec}
    {nodes : List (RegisteredStage × PlanNode)} (h : spec.compileConditionGates nodes = .ok gates) :
    (spec.conditionGates = [] ∧ gates = []) ∨
      ∃ gate, spec.conditionGates.head? = some gate ∧ gates = [gate] ∧
        spec.checkGate (nodes.map Prod.snd) gate = .ok () := by
  unfold PlanSpec.compileConditionGates at h
  obtain ⟨_, -, h⟩ := bind_eq_ok.mp h
  cases hhead : spec.conditionGates.head? with
  | none =>
    rw [hhead] at h
    exact Or.inl ⟨List.head?_eq_none_iff.mp hhead, (Except.ok.inj h).symm⟩
  | some gate =>
    rw [hhead] at h
    obtain ⟨_, hcheck, h⟩ := bind_eq_ok.mp h
    exact Or.inr ⟨gate, rfl, (Except.ok.inj h).symm, hcheck⟩

/-- A compiled specification: the checked graph with the gates and fan-outs. -/
theorem PlanSpec.compile_eq_ok {spec : PlanSpec} {unit : V} {registry : StageRegistry}
    (h : spec.compile unit registry = .ok plan) :
    ∃ nodes gates, resolveNodes spec.name registry spec.nodes = .ok nodes ∧
      spec.compileConditionGates nodes = .ok gates ∧
      plan.nodes = overrideNodes (nodes.map Prod.snd) (spec.nodes.map SpecNode.overrides) ∧
      plan.edges = spec.edges ∧ plan.conditionGates = gates ∧
      plan.initial = rootSeeds unit spec.edges plan.nodes.length ∧
      spec.expansions.mapM (spec.compileMap registry nodes) = .ok plan.expansions := by
  simp only [PlanSpec.compile, bind_eq_ok, mapErr_eq_ok] at h
  obtain ⟨nodes, hnodes, gates, hgates, expansions, hexpansions, base, hbase, gated, hgated, h⟩ := h
  obtain ⟨hin, rfl, -⟩ := fromErasedGraph_eq_ok hbase
  obtain ⟨hrange, rfl⟩ := withConditionGates_eq_ok hgated
  have hplan := Except.ok.inj h
  subst hplan
  refine ⟨nodes, gates, hnodes, hgates, rfl, rfl, rfl, ?_, hexpansions⟩
  show rootSeeds unit spec.edges (nodes.map Prod.snd).length = _
  rw [← length_overrideNodes (nodes.map Prod.snd) (spec.nodes.map SpecNode.overrides)]
  rfl

end Compiled

end Blut.Framework
