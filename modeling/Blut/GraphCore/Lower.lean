/-
  From semantic regions to steps and buffers (`compile.rs`: `lower_semantic_regions`,
  `conversion_path`, `push_buffer`, `set_input`, `set_output`, `canonicalize_buffers`,
  `assign_aliases`).

  Every output port that feeds another region becomes a group with one route per consumer; a
  route converts the layout step by step where the two kernels share none. The steps are then
  emitted region by region, each after the conversions it consumes, and bound to buffers.
-/
import Blut.GraphCore.Regions

namespace Blut.GraphCore

open Blut.Lib

/-! ## Conversion paths -/

structure ConversionRequest where
  target : Target
  semanticType : String
  maxBytes : Nat
  src : Layout
  targets : List Layout
  targetMaxBytes : Nat

/-- The bit-exact conversion kernels for the requested target and type. -/
def conversionKernels (registry : KernelRegistry) (request : ConversionRequest) :
    List KernelDescriptor :=
  sortBy (fun kernel => (toLex (kernel.implementationId, kernel.id) : Digest ×ₗ Nat))
    (registry.kernels.values.filter fun kernel =>
      kernel.target = request.target
        && kernel.implements.isEmpty
        && kernel.determinism = .bitExact
        && kernel.conversion.any fun conversion =>
          conversion.semanticType = request.semanticType
            && kernel.inputLayouts.contains conversion.src
            && kernel.outputLayouts.contains conversion.dst)

/-- A partial path of conversions. -/
structure PartialPath where
  layout : Layout
  capacityBytes : Nat
  path : List KernelDescriptor
  visited : List Layout

/-- The path with one more conversion, where the kernel accepts what the path delivers and leads
    to a layout the path has not been at. -/
def PartialPath.extend (item : PartialPath) (kernel : KernelDescriptor) : Option PartialPath := do
  let conversion ← kernel.conversion
  if conversion.src = item.layout && conversion.maxInputBytes ≥ item.capacityBytes
      && !item.visited.contains conversion.dst then
    return {
      layout := conversion.dst
      capacityBytes := conversion.maxOutputBytes
      path := item.path ++ [kernel]
      visited := item.visited ++ [conversion.dst] }
  else
    none

/-- The `while let Some(..) = frontier.pop()` loop of `conversion_path`. The first argument is
    what is left of the budget, `max_states - searched`; the extensions are pushed last first. -/
def searchConversions (request : ConversionRequest) (kernels : List KernelDescriptor) :
    Nat → List PartialPath → List (List KernelDescriptor) →
      Outcome CompileError (List (List KernelDescriptor) × Nat)
  | budget, [], solutions => .ok (solutions, budget)
  | 0, _ :: _, _ => fail .searchLimitExceeded
  | budget + 1, item :: frontier, solutions =>
    if request.targets.contains item.layout && item.capacityBytes ≤ request.targetMaxBytes
        && !item.path.isEmpty then
      searchConversions request kernels budget frontier (solutions ++ [item.path])
    else if item.visited.length ≥ 5 then
      searchConversions request kernels budget frontier solutions
    else
      searchConversions request kernels budget (kernels.filterMap item.extend ++ frontier) solutions

/-- `peak_bytes.saturating_add(scratch_bytes)`. -/
def ResourceEnvelope.workspace (resources : ResourceEnvelope) : Nat :=
  min (resources.peakBytes + resources.scratchBytes) (2 ^ 64 - 1)

/-- The order of the solutions: length, largest workspace, implementations, ids. -/
def pathKey (path : List KernelDescriptor) : Nat ×ₗ Nat ×ₗ List Digest ×ₗ List Nat :=
  toLex (path.length, toLex ((path.map fun kernel => kernel.resources.workspace).max?.getD 0,
    toLex (path.map KernelDescriptor.implementationId, path.map KernelDescriptor.id)))

def conversionPath (registry : KernelRegistry) (request : ConversionRequest) (budget : Nat) :
    Outcome CompileError (Option (List KernelDescriptor) × Nat) := do
  let start : PartialPath :=
    { layout := request.src
      capacityBytes := request.maxBytes
      path := []
      visited := [request.src] }
  let (solutions, budget) ← searchConversions request (conversionKernels registry request) budget
    [start] []
  return (minBy pathKey solutions, budget)

/-! ## Port groups -/

structure Route where
  consumerRegion : Nat
  inputIndex : Nat
  path : List KernelDescriptor
  deriving DecidableEq

/-- The buffers of one output port. `source` is the port, the key of the group. -/
structure PortGroup where
  source : PortRef
  producerRegion : Nat
  outputIndex : Nat
  layout : Layout
  capacityBytes : Nat
  contract : PortDescriptor
  routes : List Route
  deriving DecidableEq

/-- The routes found so far for one layout of the output, with their cost. -/
structure Routing where
  conversions : Nat
  workspace : Nat
  layout : Layout
  routes : List Route
  deriving DecidableEq

def Routing.score (routing : Routing) : Nat ×ₗ Nat ×ₗ Nat :=
  toLex (routing.conversions, toLex (routing.workspace, routing.layout))

/-- What the loops of `lower_semantic_regions` read. -/
structure RegionTable where
  context : PhysicalLowering
  regions : List CompiledNode
  owner : BTreeMap NodeId Nat

/-- `registry.kernels[regions[owner[node]].kernel]` with the region's index. -/
def RegionTable.kernelOf (table : RegionTable) (node : NodeId) :
    Outcome CompileError (Nat × KernelDescriptor) := do
  let index ← table.owner.index node
  let region ← expect table.regions[index]?
  let kernel ← expect (table.context.registry.kernels.get? region.kernel)
  return (index, kernel)

/-- The layouts that a port and a kernel share. -/
def sharedLayouts (port : PortDescriptor) (layouts : List Layout) : List Layout :=
  sortDedup (port.layouts.filter fun layout => layouts.contains layout)

/-- No conversions where the consumer accepts the output as it is, else the best path. -/
def routePath (context : PhysicalLowering) (output input : PortDescriptor) (layout : Layout)
    (targets : List Layout) (budget : Nat) :
    Outcome CompileError (Option (List KernelDescriptor) × Nat) :=
  if targets.contains layout && output.maxBytes ≤ input.maxBytes then
    .ok (some [], budget)
  else
    conversionPath context.registry
      { target := context.target
        semanticType := output.semanticType
        maxBytes := output.maxBytes
        src := layout
        targets := targets
        targetMaxBytes := input.maxBytes } budget

/-- The route of one edge from the given layout, if there is one. -/
def routeEdge (table : RegionTable) (output : PortDescriptor) (layout : Layout) (budget : Nat)
    (edge : Edge) : Outcome CompileError (Option Route × Nat) := do
  let consumer ← table.context.descriptors.index edge.dst.node
  let inputIndex ← okOr (consumer.inputs.findIdx? fun port => port.name = edge.dst.port)
    (.unknownPort edge.dst.node edge.dst.port)
  let input ← expect consumer.inputs[inputIndex]?
  let (consumerRegion, kernel) ← table.kernelOf edge.dst.node
  let (path, budget) ← routePath table.context output input layout
    (sharedLayouts input kernel.inputLayouts) budget
  return (path.map fun path =>
    { consumerRegion := consumerRegion, inputIndex := inputIndex, path := path }, budget)

/-- `conversion_workspace.max(peak + scratch)` along a path. -/
def pathWorkspace (workspace : Nat) (path : List KernelDescriptor) : Outcome CompileError Nat :=
  path.foldlM (fun workspace kernel => do
    let bytes ← okOr (checkedAdd kernel.resources.peakBytes kernel.resources.scratchBytes)
      .resourceOverflow
    return max workspace bytes) workspace

/-- The loop over the edges of a group for one layout; it stops at the first edge without a
    route. -/
def routeEdges (table : RegionTable) (output : PortDescriptor) :
    List Edge → Routing → Nat → Outcome CompileError (Option Routing × Nat)
  | [], routing, budget => .ok (some routing, budget)
  | edge :: edges, routing, budget => do
    let (route, budget) ← routeEdge table output routing.layout budget edge
    match route with
    | none => return (none, budget)
    | some route =>
      let conversions ← okOr (checkedAdd routing.conversions route.path.length) .searchLimitExceeded
      let workspace ← pathWorkspace routing.workspace route.path
      routeEdges table output edges
        { conversions := conversions
          workspace := workspace
          layout := routing.layout
          routes := routing.routes ++ [route] } budget

/-- One layout of the output: its routing replaces the best so far if it is cheaper. -/
def tryLayout (table : RegionTable) (output : PortDescriptor) (edges : List Edge)
    (state : Option Routing × Nat) (layout : Layout) :
      Outcome CompileError (Option Routing × Nat) := do
  let (routing, budget) ← routeEdges table output edges
    { conversions := 0, workspace := 0, layout := layout, routes := [] } state.2
  let best := match routing, state.1 with
    | none, best => best
    | some routing, none => some routing
    | some routing, some best => if routing.score < best.score then some routing else some best
  return (best, budget)

/-- One entry of `grouped`. -/
def lowerGroup (table : RegionTable) (budget : Nat) (source : PortRef) (edges : List Edge) :
    Outcome CompileError (PortGroup × Nat) := do
  let edges := sortBy Edge.dst edges
  let producer ← table.context.descriptors.index source.node
  let outputIndex ← okOr (producer.outputs.findIdx? fun port => port.name = source.port)
    (.unknownPort source.node source.port)
  let output ← expect producer.outputs[outputIndex]?
  reject (output.maxBytes = 0) (.invalidPortSize source.node source.port)
  let (producerRegion, kernel) ← table.kernelOf source.node
  let (best, budget) ← (sharedLayouts output kernel.outputLayouts).foldlM
    (tryLayout table output edges) (none, budget)
  let best ← okOr best (.layoutUnavailable source.node source.port)
  return ({
    source := source
    producerRegion := producerRegion
    outputIndex := outputIndex
    layout := best.layout
    capacityBytes := output.maxBytes
    contract := output
    routes := best.routes }, budget)

/-- The groups in the order of their ports, with the conversion budget threaded through. -/
def lowerGroups (table : RegionTable) (grouped : List (PortRef × List Edge)) (budget : Nat) :
    Outcome CompileError (List PortGroup) := do
  let (groups, _) ← grouped.foldlM (fun (groups, budget) (source, edges) => do
    let (group, budget) ← lowerGroup table budget source edges
    return (groups ++ [group], budget)) (([] : List PortGroup), budget)
  return groups

/-! ## Emission of the steps -/

/-- The step of one conversion kernel of a route. -/
def conversionStep (id : StepId) (group : PortGroup) (kernel : KernelDescriptor)
    (conversion : LayoutConversion) (inputBytes : Nat) : CompiledNode :=
  { id := id
    semanticNodes := []
    semanticTypes := []
    semanticConfigs := []
    kernel := kernel.id
    implementationId := kernel.implementationId
    resources := kernel.resources
    determinism := kernel.determinism
    lowering := kernel.lowering
    conversion := some conversion
    inputPorts := ["input"]
    outputPorts := ["output"]
    inputContracts := [conversionPortContract group.contract conversion.src "input" inputBytes]
    outputContracts :=
      [conversionPortContract group.contract conversion.dst "output" conversion.maxOutputBytes]
    inputBindings := [.absent]
    outputBindings := [.terminal]
    partiality := .atomic
    failure := { domains := [] }
    effect := .pure
    retryLimit := 0
    state := StateContract.stateless
    subgraphPath := [] }

/-- The conversion steps of a path, from the given id on. The first reads `inputBytes`, every
    other one what the conversion before it writes. -/
def emitPath (group : PortGroup) : List KernelDescriptor → Nat → StepId →
    Outcome CompileError (List CompiledNode)
  | [], _, _ => .ok []
  | kernel :: path, inputBytes, id => do
    let conversion ← expect kernel.conversion
    let steps ← emitPath group path conversion.maxOutputBytes (id + 1)
    return conversionStep id group kernel conversion inputBytes :: steps

/-- The steps emitted so far, the step of every region and those of every route. -/
structure Emission where
  nodes : List CompiledNode
  semanticSteps : List StepId
  conversionSteps : BTreeMap (Nat ×ₗ Nat) (List StepId)

def emitRoute (regionIndex groupIndex : Nat) (group : PortGroup) (emission : Emission)
    (route : Route × Nat) : Outcome CompileError Emission := do
  if route.1.consumerRegion ≠ regionIndex then
    return emission
  else
    let steps ← emitPath group route.1.path group.capacityBytes emission.nodes.length
    return { emission with
      nodes := emission.nodes ++ steps
      conversionSteps :=
        emission.conversionSteps.insert (toLex (groupIndex, route.2)) (steps.map CompiledNode.id) }

/-- The conversions a region consumes, and then its own step. -/
def emitRegion (groups : List PortGroup) (emission : Emission) (region : CompiledNode × Nat) :
    Outcome CompileError Emission := do
  let emission ← groups.zipIdx.foldlM (fun emission group =>
    group.1.routes.zipIdx.foldlM (emitRoute region.2 group.2 group.1) emission) emission
  return { emission with
    nodes := emission.nodes ++ [{ region.1 with id := emission.nodes.length }]
    semanticSteps := emission.semanticSteps ++ [emission.nodes.length] }

def emitSteps (groups : List PortGroup) (regions : List CompiledNode) :
    Outcome CompileError Emission :=
  regions.zipIdx.foldlM (emitRegion groups)
    { nodes := [], semanticSteps := [], conversionSteps := BTreeMap.empty }

/-! ## Bindings -/

/-- `nodes[step].input_bindings[index]` rewritten. -/
def updateInput (nodes : List CompiledNode) (step : StepId) (index : Nat)
    (update : InputBinding → Outcome CompileError InputBinding) :
    Outcome CompileError (List CompiledNode) := do
  let node ← okOr nodes[step]? .resourceOverflow
  let binding ← okOr node.inputBindings[index]? .resourceOverflow
  let binding ← update binding
  return nodes.set step { node with inputBindings := node.inputBindings.set index binding }

def setInput (nodes : List CompiledNode) (step : StepId) (index : Nat) (buffer : BufferId) :
    Outcome CompileError (List CompiledNode) :=
  updateInput nodes step index fun _ => .ok (.buffer buffer)

def setInvocation (nodes : List CompiledNode) (step : StepId) (index : Nat) (invocation : Nat) :
    Outcome CompileError (List CompiledNode) :=
  updateInput nodes step index fun binding => do
    reject (binding ≠ .absent) .resourceOverflow
    return .invocation invocation

def setOutput (nodes : List CompiledNode) (step : StepId) (index : Nat) (buffer : BufferId) :
    Outcome CompileError (List CompiledNode) := do
  let node ← okOr nodes[step]? .resourceOverflow
  let _ ← okOr node.outputBindings[index]? .resourceOverflow
  return nodes.set step
    { node with outputBindings := node.outputBindings.set index (.buffer buffer) }

/-- The new buffer has the number of buffers before it as its id. A buffer without a consumer
    panics. -/
def pushBuffer (buffers : List BufferPlan) (layout : Layout) (capacityBytes : Nat)
    (producer : StepId) (consumers : List StepId) : Outcome CompileError (List BufferPlan) := do
  let consumers := sortDedup consumers
  let lastConsumer ← expect consumers.getLast?
  return buffers ++ [{
    id := buffers.length
    layout := layout
    capacityBytes := capacityBytes
    producer := producer
    consumers := consumers
    lastConsumer := lastConsumer
    aliases := none }]

/-- One invocation port, bound to the input of the region it starts. -/
def bindInvocation (table : RegionTable) (semanticSteps : List StepId) (nodes : List CompiledNode)
    (invocation : PortRef × Nat) : Outcome CompileError (List CompiledNode) := do
  let port := invocation.1
  let region ← table.owner.index port.node
  let semantic ← expect table.regions[region]?
  reject (semantic.semanticNodes.head? ≠ some port.node) (.duplicateInput port.node port.port)
  let descriptor ← table.context.descriptors.index port.node
  let inputIndex ← okOr (descriptor.inputs.findIdx? fun input => input.name = port.port)
    (.unknownPort port.node port.port)
  let step ← expect semanticSteps[region]?
  setInvocation nodes step inputIndex invocation.2

/-- The steps and the buffers while they are bound. -/
structure Wiring where
  nodes : List CompiledNode
  buffers : List BufferPlan

/-- The rest of a route: `buffer` goes to the next conversion, whose output goes on, and at the
    end to the consumer's input. -/
def bindRoute (consumer : StepId) (inputIndex : Nat) : List StepId → BufferId → Wiring →
    Outcome CompileError Wiring
  | [], buffer, wiring => do
    let nodes ← setInput wiring.nodes consumer inputIndex buffer
    return { wiring with nodes := nodes }
  | step :: path, buffer, wiring => do
    let nodes ← setInput wiring.nodes step 0 buffer
    let conversion ← expect (nodes[step]?.bind CompiledNode.conversion)
    let output := wiring.buffers.length
    let buffers ← pushBuffer wiring.buffers conversion.dst conversion.maxOutputBytes step
      [path.head?.getD consumer]
    let nodes ← setOutput nodes step 0 output
    bindRoute consumer inputIndex path output { nodes := nodes, buffers := buffers }

/-- `conversion_steps[(group, route)]` and `semantic_steps[route.consumer_region]`. -/
def routeSteps (emission : Emission) (groupIndex : Nat) (route : Route × Nat) :
    Outcome CompileError (List StepId × StepId) := do
  let path ← emission.conversionSteps.index (toLex (groupIndex, route.2))
  let consumer ← expect emission.semanticSteps[route.1.consumerRegion]?
  return (path, consumer)

def bindGroup (emission : Emission) (wiring : Wiring) (group : PortGroup × Nat) :
    Outcome CompileError Wiring := do
  let producer ← expect emission.semanticSteps[group.1.producerRegion]?
  let consumers ← group.1.routes.zipIdx.mapM fun route => do
    let (path, consumer) ← routeSteps emission group.2 route
    return path.head?.getD consumer
  let sourceBuffer := wiring.buffers.length
  let buffers ← pushBuffer wiring.buffers group.1.layout group.1.capacityBytes producer consumers
  let nodes ← setOutput wiring.nodes producer group.1.outputIndex sourceBuffer
  group.1.routes.zipIdx.foldlM (fun wiring route => do
    let (path, consumer) ← routeSteps emission group.2 route
    bindRoute consumer route.1.inputIndex path sourceBuffer wiring)
    { nodes := nodes, buffers := buffers }

/-! ## Buffers -/

def BufferPlan.order (buffer : BufferPlan) : Nat ×ₗ Nat ×ₗ Nat :=
  toLex (buffer.producer, toLex (buffer.lastConsumer, buffer.id))

def remapInput (remap : BTreeMap BufferId BufferId) :
    InputBinding → Outcome CompileError InputBinding
  | .buffer id => do
    let new ← remap.index id
    return .buffer new
  | binding => .ok binding

def remapOutput (remap : BTreeMap BufferId BufferId) :
    OutputBinding → Outcome CompileError OutputBinding
  | .buffer id => do
    let new ← remap.index id
    return .buffer new
  | .terminal => .ok .terminal

def remapNode (remap : BTreeMap BufferId BufferId) (node : CompiledNode) :
    Outcome CompileError CompiledNode := do
  let inputs ← node.inputBindings.mapM (remapInput remap)
  let outputs ← node.outputBindings.mapM (remapOutput remap)
  return { node with inputBindings := inputs, outputBindings := outputs }

/-- `canonicalize_buffers`: buffers are renumbered in the order of producer and last use. -/
def canonicalizeBuffers (wiring : Wiring) : Outcome CompileError Wiring := do
  let sorted := sortBy BufferPlan.order wiring.buffers
  let remap := BTreeMap.ofList (sorted.zipIdx.map fun (buffer, new) => (buffer.id, new))
  let nodes ← wiring.nodes.mapM (remapNode remap)
  return {
    nodes := nodes
    buffers := sorted.zipIdx.map fun (buffer, new) => { buffer with id := new, aliases := none } }

/-- The contract of a port with the layout of its buffer, if it has one. -/
def syncLayout (buffers : List BufferPlan) (buffer : Option BufferId)
    (contract : CompiledPortContract) : Outcome CompileError CompiledPortContract :=
  match buffer with
  | none => .ok contract
  | some id => do
    let buffer ← expect buffers[id]?
    return { contract with layout := buffer.layout }

/-- The contracts, each with the layout of the buffer it is bound to. -/
def syncLayouts {β : Type} (bufferOf : β → Option BufferId) (buffers : List BufferPlan) :
    List CompiledPortContract → List β → Outcome CompileError (List CompiledPortContract)
  | contract :: contracts, binding :: bindings => do
    let contract ← syncLayout buffers (bufferOf binding) contract
    let contracts ← syncLayouts bufferOf buffers contracts bindings
    return contract :: contracts
  | contracts, _ => .ok contracts

def synchronizePortLayouts (nodes : List CompiledNode) (buffers : List BufferPlan) :
    Outcome CompileError (List CompiledNode) :=
  nodes.mapM fun node => do
    let inputs ← syncLayouts InputBinding.buffer? buffers node.inputContracts node.inputBindings
    let outputs ← syncLayouts OutputBinding.buffer? buffers node.outputContracts node.outputBindings
    return { node with inputContracts := inputs, outputContracts := outputs }

/-- A physical slot and the step after which it is free. -/
structure Slot where
  root : BufferId
  layout : Layout
  capacityBytes : Nat
  availableAfter : StepId
  deriving DecidableEq

/-- The smallest free slot that fits the buffer. -/
def slotFor (slots : List Slot) (buffer : BufferPlan) : Option Slot :=
  minBy (fun slot => (toLex (slot.capacityBytes, slot.root) : Nat ×ₗ Nat))
    (slots.filter fun slot => slot.availableAfter < buffer.producer
      && slot.layout = buffer.layout && slot.capacityBytes ≥ buffer.capacityBytes)

/-- One round of `assign_aliases`. Slots are told apart by their roots. -/
def assignAlias (state : List Slot × List BufferPlan) (buffer : BufferPlan) :
    List Slot × List BufferPlan :=
  match slotFor state.1 buffer with
  | some slot =>
    (state.1.map fun other =>
        if other.root = slot.root then { other with availableAfter := buffer.lastConsumer }
        else other,
      state.2 ++ [{ buffer with aliases := some slot.root }])
  | none =>
    (state.1 ++ [{
        root := buffer.id
        layout := buffer.layout
        capacityBytes := buffer.capacityBytes
        availableAfter := buffer.lastConsumer }],
      state.2 ++ [buffer])

def assignAliases (buffers : List BufferPlan) : List BufferPlan :=
  (buffers.foldl assignAlias ([], [])).2

/-- The bytes of all buffers that own a slot. -/
def arenaBytes (buffers : List BufferPlan) : Outcome CompileError Nat :=
  (buffers.filter fun buffer => buffer.aliases.isNone).foldlM (fun sum buffer =>
    okOr (checkedAdd sum buffer.capacityBytes) .resourceOverflow) 0

/-- The bytes a step needs while it runs. -/
def stepBytes (node : CompiledNode) : Outcome CompileError Nat := do
  let bytes ← okOr (checkedAdd node.resources.peakBytes node.resources.scratchBytes)
      .resourceOverflow
  if node.state.scope = .invocation then
    okOr (checkedAdd bytes node.state.maxBytes) .resourceOverflow
  else
    return bytes

def workspaceBytes (nodes : List CompiledNode) : Outcome CompileError Nat :=
  nodes.foldlM (fun peak node => do
    let bytes ← stepBytes node
    return max peak bytes) 0

/-! ## The whole pass -/

/-- A lowered candidate. -/
structure Lowered where
  nodes : List CompiledNode
  buffers : List BufferPlan
  peak : Nat
  deriving DecidableEq

/-- The region of every node. -/
def regionOwners (regions : List CompiledNode) : BTreeMap NodeId Nat :=
  BTreeMap.ofList (regions.zipIdx.flatMap fun (region, index) =>
    region.semanticNodes.map fun id => (id, index))

/-- The edges between different regions. An edge of a node without a region panics. -/
def crossingEdges (owner : BTreeMap NodeId Nat) (edges : List Edge) :
    Outcome CompileError (List Edge) := do
  edges.forM fun edge => do
    let _ : Nat ← owner.index edge.src.node
    let _ : Nat ← owner.index edge.dst.node
  return edges.filter fun edge => owner.get? edge.src.node ≠ owner.get? edge.dst.node

/-- Steps and buffers of one candidate, before renumbering. -/
def wireRegions (table : RegionTable) (groups : List PortGroup) : Outcome CompileError Wiring := do
  let emission ← emitSteps groups table.regions
  let invocationPorts := sortDedup table.context.graph.invocationInputs
  let nodes ← invocationPorts.zipIdx.foldlM (bindInvocation table emission.semanticSteps)
    emission.nodes
  groups.zipIdx.foldlM (bindGroup emission) { nodes := nodes, buffers := [] }

def lowerSemanticRegions (context : PhysicalLowering) (regions : List CompiledNode)
    (maxConversionStates : Nat) : Outcome CompileError Lowered := do
  let owner := regionOwners regions
  let table : RegionTable := { context := context, regions := regions, owner := owner }
  let crossing ← crossingEdges owner context.graph.edges
  let grouped := BTreeMap.groupOn Edge.src crossing
  let groups ← lowerGroups table grouped.entries maxConversionStates
  let wiring ← wireRegions table groups
  let wiring ← canonicalizeBuffers wiring
  let nodes ← synchronizePortLayouts wiring.nodes wiring.buffers
  let buffers := assignAliases wiring.buffers
  let arena ← arenaBytes buffers
  let workspace ← workspaceBytes nodes
  let peak ← okOr (checkedAdd arena workspace) .resourceOverflow
  return { nodes := nodes, buffers := buffers, peak := peak }

/-- `(peak, steps, kernels)`, by which candidates are compared. -/
def Lowered.score (lowered : Lowered) : Nat ×ₗ Nat ×ₗ List Nat :=
  toLex (lowered.peak, toLex (lowered.nodes.length, lowered.nodes.map CompiledNode.kernel))

/-- The better of two candidates; the first one found on a tie. -/
def Lowered.better (best : Option Lowered) (lowered : Lowered) : Option Lowered :=
  match best with
  | none => some lowered
  | some current => if lowered.score < current.score then some lowered else some current

/-- The state of the loop of `lower_physical_plan`. -/
structure RegionSearch where
  best : Option Lowered
  firstError : Option CompileError
  sawResourceLimit : Bool
  sawCompileLimit : Bool

def tryRegions (context : PhysicalLowering) (limits : PhysicalSearchLimits) (search : RegionSearch)
    (regions : List CompiledNode) : Outcome CompileError RegionSearch :=
  match lowerSemanticRegions context regions limits.conversionStates with
  | .ok lowered =>
    if lowered.nodes.length > limits.maxSteps || lowered.buffers.length > limits.maxBuffers then
      .ok { search with sawCompileLimit := true }
    else if lowered.peak > limits.maxPeakBytes then
      .ok { search with sawResourceLimit := true }
    else
      .ok { search with best := Lowered.better search.best lowered }
  | .error (.err error) => .ok { search with firstError := search.firstError.or (some error) }
  | .error .panic => .error .panic

def lowerPhysicalPlan (context : PhysicalLowering) (fuse : Bool) (limits : PhysicalSearchLimits) :
    Outcome CompileError Lowered := do
  let candidates ← buildSemanticRegionCandidates context fuse limits.regionCandidates
  let search ← candidates.foldlM (tryRegions context limits)
    { best := none, firstError := none, sawResourceLimit := false, sawCompileLimit := false }
  match search.best with
  | some lowered => return lowered
  | none =>
    if search.sawResourceLimit then fail .resourceOverflow
    else if search.sawCompileLimit then fail .compileLimitExceeded
    else fail (search.firstError.getD .resourceOverflow)

end Blut.GraphCore
