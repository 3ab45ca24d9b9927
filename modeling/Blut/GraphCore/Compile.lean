/-
  The compiler (`compile.rs`: `Compiler::compile`, `select_and_lower`, `align_feedback_layouts`,
  `lower_feedback`).

  After the graph passes every combination of one kernel per node is lowered, within the search
  limits, and the cheapest result is completed with its feedback edges and identities.
-/
import Blut.GraphCore.Lower

namespace Blut.GraphCore

open Blut.Lib

structure CompileLimits where
  maxSearchStates : Nat
  maxConversionStates : Nat
  maxSemanticNodes : Nat
  maxSteps : Nat
  maxBuffers : Nat
  maxSubgraphDepth : Nat
  maxSubgraphEntries : Nat
  maxFeedbackEdges : Nat
  maxPersistentStateBytes : Nat
  deriving DecidableEq

/-- `CompileLimits::default()`. -/
def CompileLimits.standard : CompileLimits :=
  { maxSearchStates := 65536
    maxConversionStates := 65536
    maxSemanticNodes := 65536
    maxSteps := 65536
    maxBuffers := 262144
    maxSubgraphDepth := 16
    maxSubgraphEntries := 65536
    maxFeedbackEdges := 65536
    maxPersistentStateBytes := 64 * 1024 * 1024 }

structure Compiler where
  registry : KernelRegistry
  realm : ExecutionRealm
  maxPeakBytes : Nat
  fuse : Bool
  limits : CompileLimits

/-- `Compiler::new`. -/
def Compiler.new (registry : KernelRegistry) (realm : ExecutionRealm) : Compiler :=
  { registry := registry
    realm := realm
    maxPeakBytes := 2 ^ 64 - 1
    fuse := true
    limits := CompileLimits.standard }

/-! ## Kernel selection -/

def KernelDescriptor.costKey (kernel : KernelDescriptor) : Nat ×ₗ Nat ×ₗ Digest ×ₗ Nat :=
  toLex (kernel.resources.peakBytes, toLex (kernel.resources.scratchBytes,
    toLex (kernel.implementationId, kernel.id)))

/-- The kernels for one node, cheapest first. -/
def nodeCandidates (registry : KernelRegistry) (target : Target) (nodeType : NodeTypeRef)
    (descriptor : NodeDescriptor) : List KernelDescriptor :=
  sortBy KernelDescriptor.costKey (registry.kernels.values.filter fun kernel =>
    kernel.implements = [nodeType]
      && kernel.target = target
      && kernel.determinism.ordinal ≤ descriptor.determinism.ordinal
      && fusedLayoutsCompatible descriptor descriptor kernel)

/-- `kernel_candidates`, in the order of the nodes. -/
def kernelCandidates (registry : KernelRegistry) (order : List NodeId)
    (nodes : BTreeMap NodeId NodeInstance) (target : Target) :
    Outcome CompileError (List (List KernelDescriptor)) :=
  order.mapM fun id => do
    let node ← nodes.index id
    let descriptor ← registry.descriptors.index node.key
    let candidates := nodeCandidates registry target node.typeRef descriptor
    reject candidates.isEmpty (.kernelUnavailable id target)
    return candidates

/-- The number of combinations, at most `max_search_states`. -/
def assignmentCount (maxSearchStates : Nat) (candidates : List (List KernelDescriptor)) :
    Outcome CompileError Nat :=
  candidates.foldlM (fun count options => do
    let count ← okOr (checkedMul count options.length) .searchLimitExceeded
    reject (count > maxSearchStates) .searchLimitExceeded
    return count) 1

/-- The combination of a given number: the mixed-radix digits, the last node's first. -/
def assignmentAt (candidates : List (List KernelDescriptor)) (ordinal : Nat) :
    Outcome CompileError (List KernelDescriptor) := do
  let (kernels, _) ← candidates.foldrM (fun options (kernels, remainder) => do
    let kernel ← expect options[remainder % options.length]?
    return (kernel :: kernels, remainder / options.length)) (([] : List KernelDescriptor), ordinal)
  return kernels

/-! ## Feedback -/

/-- The step that runs a node. -/
def stepOf (nodes : List CompiledNode) (node : NodeId) : Outcome CompileError Nat :=
  okOr (nodes.findIdx? fun step => step.semanticNodes.contains node) (.unknownNode node)

def portIndex (ports : List String) (port : PortRef) : Outcome CompileError Nat :=
  okOr (ports.findIdx? fun name => name = port.port) (.unknownPort port.node port.port)

/-- A port of a step: the step's index, the step and the port's index. -/
structure StepPort where
  index : Nat
  step : CompiledNode
  port : Nat

def outputOf (nodes : List CompiledNode) (port : PortRef) : Outcome CompileError StepPort := do
  let index ← stepOf nodes port.node
  let step ← expect nodes[index]?
  let position ← portIndex step.outputPorts port
  return { index := index, step := step, port := position }

def inputOf (nodes : List CompiledNode) (port : PortRef) : Outcome CompileError StepPort := do
  let index ← stepOf nodes port.node
  let step ← expect nodes[index]?
  let position ← portIndex step.inputPorts port
  return { index := index, step := step, port := position }

/-- The layouts of a port that the step's kernel supports too. -/
def stepLayouts (registry : KernelRegistry) (step : CompiledNode) (port : PortRef)
    (descriptor : PortDescriptor) (layoutsOf : KernelDescriptor → List Layout) :
    Outcome CompileError (List Layout) := do
  let kernel ← okOr (registry.kernels.get? step.kernel) (.invalidFeedback port.node port.port)
  return descriptor.layouts.filter fun layout => (layoutsOf kernel).contains layout

def setOutputLayout (nodes : List CompiledNode) (index port : Nat) (layout : Layout) :
    List CompiledNode :=
  nodes.modify index fun node => { node with
    outputContracts := node.outputContracts.modify port fun contract =>
      { contract with layout := layout } }

def setInputLayout (nodes : List CompiledNode) (index port : Nat) (layout : Layout) :
    List CompiledNode :=
  nodes.modify index fun node => { node with
    inputContracts := node.inputContracts.modify port fun contract =>
      { contract with layout := layout } }

/-- One source of `align_feedback_layouts` with its feedback edges: the common layout, chosen for
    the output and all the inputs. `none` is the early `return Ok(false)`. -/
def alignGroup (descriptors : NodeTable) (registry : KernelRegistry) (nodes : List CompiledNode)
    (source : PortRef) (edges : List FeedbackEdge) :
      Outcome CompileError (Option (List CompiledNode)) := do
  let producer ← outputOf nodes source
  let srcDescriptor ← descriptors.index source.node
  let output ← findPort srcDescriptor.outputs source.node source.port
  let layouts ← stepLayouts registry producer.step source output KernelDescriptor.outputLayouts
  let binding ← expect producer.step.outputBindings[producer.port]?
  let (layouts, consumers) ← edges.foldlM (fun (layouts, consumers) edge => do
    let consumer ← inputOf nodes edge.dst
    let dstDescriptor ← descriptors.index edge.dst.node
    let input ← findPort dstDescriptor.inputs edge.dst.node edge.dst.port
    let accepted ← stepLayouts registry consumer.step edge.dst input KernelDescriptor.inputLayouts
    return (layouts.filter fun layout => accepted.contains layout,
      consumers ++ [(consumer.index, consumer.port)])) (layouts, ([] : List (Nat × Nat)))
  let layouts := sortDedup layouts
  let contract ← expect producer.step.outputContracts[producer.port]?
  let selected := match binding with
    | .buffer _ => if layouts.contains contract.layout then some contract.layout else none
    | .terminal => layouts.head?
  return selected.map fun layout =>
    consumers.foldl (fun nodes (index, port) => setInputLayout nodes index port layout)
      (setOutputLayout nodes producer.index producer.port layout)

/-- `align_feedback_layouts`: the realigned steps, or `none` where no common layout exists. -/
def alignFeedbackLayouts (graph : Graph) (descriptors : NodeTable) (registry : KernelRegistry)
    (nodes : List CompiledNode) : Outcome CompileError (Option (List CompiledNode)) :=
  (BTreeMap.groupOn FeedbackEdge.src graph.feedback).entries.foldlM (fun nodes (source, edges) =>
    match nodes with
    | none => .ok none
    | some nodes => alignGroup descriptors registry nodes source edges) (some nodes)

/-- The contracts at the two ends of a feedback edge. -/
def feedbackContracts (nodes : List CompiledNode) (edge : FeedbackEdge) :
    Outcome CompileError (StepPort × StepPort × CompiledPortContract × CompiledPortContract) := do
  let producer ← outputOf nodes edge.src
  let consumer ← inputOf nodes edge.dst
  let output ← expect producer.step.outputContracts[producer.port]?
  let input ← expect consumer.step.inputContracts[consumer.port]?
  return (producer, consumer, output, input)

/-- `feedback_physical_compatible`, which stops at the first edge that is not. -/
def feedbackPhysicalCompatible (nodes : List CompiledNode) :
    List FeedbackEdge → Outcome CompileError Bool
  | [] => .ok true
  | edge :: edges => do
    let (_, _, output, input) ← feedbackContracts nodes edge
    if compiledPortContractSatisfies output input then feedbackPhysicalCompatible nodes edges
    else return false

/-- The steps, the feedback plans and their bytes. -/
structure FeedbackLowering where
  nodes : List CompiledNode
  plans : List FeedbackPlan
  stateBytes : Nat

def lowerFeedbackEdge (state : FeedbackLowering) (edge : FeedbackEdge) :
    Outcome CompileError FeedbackLowering := do
  let (producer, consumer, output, input) ← feedbackContracts state.nodes edge
  reject (!compiledPortContractSatisfies output input)
    (.invalidFeedback edge.dst.node edge.dst.port)
  let bytes ← okOr (checkedMul output.maxBytes edge.delay.invocations) .resourceOverflow
  let id := state.plans.length
  reject (id ≥ 2 ^ 32) .compileLimitExceeded
  let nodes ← expect (if consumer.port < consumer.step.inputBindings.length then
      some (state.nodes.set consumer.index { consumer.step with
        inputBindings := consumer.step.inputBindings.set consumer.port (.feedback id) })
    else none)
  let stateBytes ← okOr (checkedAdd state.stateBytes bytes) .resourceOverflow
  return {
    nodes := nodes
    plans := state.plans ++ [{
      id := id
      fromStep := producer.step.id
      fromPort := producer.port
      toStep := consumer.step.id
      toPort := consumer.port
      delay := edge.delay
      stateBytes := bytes }]
    stateBytes := stateBytes }

def lowerFeedback (graph : Graph) (nodes : List CompiledNode) (maxFeedbackEdges : Nat) :
    Outcome CompileError FeedbackLowering := do
  reject (graph.feedback.length > maxFeedbackEdges) .compileLimitExceeded
  let edges := sortBy FeedbackEdge.toKey graph.feedback
  match windowsAny (fun a b => decide (a.src = b.src ∧ a.dst = b.dst)) edges, edges with
  | true, first :: _ => fail (.invalidFeedback first.dst.node first.dst.port)
  | _, _ => edges.foldlM lowerFeedbackEdge { nodes := nodes, plans := [], stateBytes := 0 }

/-! ## The search over assignments -/

/-- The state of the loop of `select_and_lower`. -/
structure AssignmentSearch where
  best : Option Lowered
  sawLayoutFailure : Bool
  sawFeedbackFailure : Bool
  sawResourceFailure : Bool

/-- A lowered assignment within the limits, with its feedback layouts aligned, is compared with
    the best so far. -/
def considerLowered (graph : Graph) (descriptors : NodeTable) (registry : KernelRegistry)
    (search : AssignmentSearch) (lowered : Lowered) : Outcome CompileError AssignmentSearch := do
  match ← alignFeedbackLayouts graph descriptors registry lowered.nodes with
  | none => return { search with sawFeedbackFailure := true }
  | some nodes =>
    if ← feedbackPhysicalCompatible nodes graph.feedback then
      return { search with best := Lowered.better search.best { lowered with nodes := nodes } }
    else
      return { search with sawFeedbackFailure := true }

/-- One assignment of kernels to the nodes of the order. -/
def tryAssignment (compiler : Compiler) (graph : Graph) (order : List NodeId)
    (descriptors : NodeTable) (target : Target) (regionLimit : Nat)
    (candidates : List (List KernelDescriptor)) (search : AssignmentSearch) (ordinal : Nat) :
    Outcome CompileError AssignmentSearch := do
  let kernels ← assignmentAt candidates ordinal
  let context : PhysicalLowering :=
    { graph := graph
      order := order
      descriptors := descriptors
      kernels := BTreeMap.ofList (order.zip kernels)
      registry := compiler.registry
      target := target }
  let limits : PhysicalSearchLimits :=
    { regionCandidates := regionLimit
      conversionStates := compiler.limits.maxConversionStates
      maxPeakBytes := compiler.maxPeakBytes
      maxSteps := compiler.limits.maxSteps
      maxBuffers := compiler.limits.maxBuffers }
  match lowerPhysicalPlan context compiler.fuse limits with
  | .ok lowered =>
    if lowered.peak ≤ compiler.maxPeakBytes && lowered.nodes.length ≤ compiler.limits.maxSteps
        && lowered.buffers.length ≤ compiler.limits.maxBuffers then
      considerLowered graph descriptors compiler.registry search lowered
    else if lowered.nodes.length > compiler.limits.maxSteps
        || lowered.buffers.length > compiler.limits.maxBuffers then
      fail .compileLimitExceeded
    else
      return { search with sawResourceFailure := true }
  | .error (.err .resourceOverflow) => return { search with sawResourceFailure := true }
  | .error (.err (.layoutUnavailable _ _)) => return { search with sawLayoutFailure := true }
  | .error fault => .error fault

def selectAndLower (compiler : Compiler) (graph : Graph) (order : List NodeId)
    (instances : BTreeMap NodeId NodeInstance) (descriptors : NodeTable) (target : Target) :
    Outcome CompileError Lowered := do
  let candidates ← kernelCandidates compiler.registry order instances target
  let count ← assignmentCount compiler.limits.maxSearchStates candidates
  let regionLimit := compiler.limits.maxSearchStates / count
  reject (count = 0 || regionLimit = 0) .searchLimitExceeded
  let search ← (List.range count).foldlM
    (tryAssignment compiler graph order descriptors target regionLimit candidates)
    { best := none
      sawLayoutFailure := false
      sawFeedbackFailure := false
      sawResourceFailure := false }
  match search.best with
  | some lowered => return lowered
  | none =>
    if search.sawFeedbackFailure then do
      let feedback ← expect graph.feedback.head?
      fail (.invalidFeedback feedback.dst.node feedback.dst.port)
    else if search.sawResourceFailure then fail .resourceOverflow
    else do
      let first ← expect order.head?
      if search.sawLayoutFailure then fail (.layoutUnavailable first "physical-lowering")
      else fail (.kernelUnavailable first target)

/-! ## Compilation -/

/-- The descriptor of one node, with the checks `compile` makes on it. -/
def describeInstance (compiler : Compiler) (graph : Graph) (node : NodeInstance) :
    Outcome CompileError NodeDescriptor := do
  let descriptor ← okOr (compiler.registry.descriptors.get? node.key)
    (.unknownDescriptor node.descriptor node.descriptorVersion)
  let target := compiler.realm.target
  reject (!descriptor.targets.contains target) (.targetUnsupported node.id target)
  reject (descriptor.retryLimit > 0 && descriptor.effect = .atMostOnce) (.unsafeRetry node.id)
  reject ((descriptor.state.scope = .session || descriptor.state.scope = .durable)
    && graph.session.isNone) (.invalidState node.id)
  match descriptor.subgraph with
  | none => pure ()
  | some lowering => do
    validateSubgraphPath compiler.registry.subgraphs lowering.subgraph
      compiler.limits.maxSubgraphDepth compiler.limits.maxSubgraphEntries
    validateSubgraphLowering descriptor lowering compiler.registry.subgraphs
      compiler.registry.descriptors
  descriptor.capabilities.forM fun capability =>
    reject (!(BTreeSet.ofList graph.requiredCapabilities).contains capability)
      (.capabilityMissing capability)
  return descriptor

/-- The node with its canonical configuration. -/
def canonicalInstance (descriptors : NodeTable) (node : NodeInstance) :
    Outcome CompileError NodeInstance := do
  let descriptor ← descriptors.index node.id
  let config ← mapErr (.invalidConfig node.id) (descriptor.config.canonicalize node.config)
  return { node with config := config }

def invalidSessionContract (session : SessionContract) : Bool :=
  session.namespaceName = "" || session.maxConcurrentSessions = 0 || session.maxIdleMillis = 0

/-- Every node id occurs once. -/
def rejectDuplicateNodes (nodes : List NodeInstance) : Outcome CompileError Unit := do
  let _ ← nodes.foldlM (fun (seen : BTreeSet NodeId) node => do
    reject (seen.contains node.id) (.duplicateNode node.id)
    return BTreeSet.add seen node.id) BTreeMap.empty
  return ()

/-- The checks on the graph alone. -/
def checkGraph (compiler : Compiler) (graph : Graph) : Outcome CompileError Unit := do
  reject (graph.version ≠ 3) (.unsupportedGraphVersion graph.version)
  reject graph.nodes.isEmpty .emptyGraph
  reject ((graph.requiredProofs ++ graph.policy).any (fun name => name = "")
    || graph.requiredCapabilities.any (fun capability => capability = "")) .invalidGraphContract
  reject (graph.nodes.length > compiler.limits.maxSemanticNodes) .compileLimitExceeded
  rejectDuplicateNodes graph.nodes

/-- The normalized graph and the descriptors of its nodes. -/
def describeGraph (compiler : Compiler) (graph : Graph) :
    Outcome CompileError (Graph × NodeTable) := do
  checkGraph compiler graph
  let entries ← graph.nodes.mapM fun node => do
    let descriptor ← describeInstance compiler graph node
    return (node.id, descriptor)
  let descriptors := BTreeMap.ofList entries
  let nodes ← graph.nodes.mapM (canonicalInstance descriptors)
  reject (graph.session.any invalidSessionContract) .invalidSession
  reject (!graph.feedback.isEmpty && graph.session.isNone) .invalidSession
  let supplied := descriptors.values.flatMap NodeDescriptor.capabilities
  match (BTreeSet.ofList graph.requiredCapabilities).toList.find?
    (fun c => !supplied.contains c) with
  | some extra => fail (.capabilityUnsupported extra)
  | none => return ({ graph with nodes := nodes }, descriptors)

/-- The bytes that outlive an invocation. -/
def persistentBytes (nodes : List CompiledNode) (feedbackBytes maxBytes : Nat) :
    Outcome CompileError Nat := do
  let nodeBytes ← (nodes.filter fun node =>
      node.state.scope = .session || node.state.scope = .durable).foldlM (fun total node =>
    okOr (checkedAdd total node.state.maxBytes) .resourceOverflow) 0
  let bytes ← okOr (checkedAdd nodeBytes feedbackBytes) .resourceOverflow
  reject (bytes > maxBytes) .resourceOverflow
  return bytes

/-- `Compiler::compile`. -/
def compile (blake3 : Blake3) (compiler : Compiler) (graph : Graph) :
    Outcome CompileError AuthorizedPlan := do
  let (graph, descriptors) ← describeGraph compiler graph
  let nodes := BTreeMap.ofList (graph.nodes.map fun node => (node.id, node))
  let invocationPorts ← verifyEdges graph descriptors
  let order ← topologicalOrder graph
  let (proofs, policy, fidelity) ← propagateContracts graph order descriptors
  let lowered ← selectAndLower compiler graph order nodes descriptors compiler.realm.target
  let feedback ← lowerFeedback graph lowered.nodes compiler.limits.maxFeedbackEdges
  let persistent ← persistentBytes feedback.nodes feedback.stateBytes
    compiler.limits.maxPersistentStateBytes
  let graphId ← hashGraph blake3 graph descriptors
  let plan : CompiledPlan :=
    { schemaVersion := 3
      graphId := graphId
      planId := Digest.zero
      realm := compiler.realm
      order := order
      nodes := feedback.nodes
      buffers := lowered.buffers
      feedback := feedback.plans
      invocationPorts := invocationPorts
      propagatedProofs := proofs
      propagatedPolicy := policy
      resultingFidelity := fidelity
      peakBytes := lowered.peak
      persistentStateBytes := persistent
      session := graph.session }
  return { plan := { plan with planId := hashPlan blake3 plan } }

end Blut.GraphCore
