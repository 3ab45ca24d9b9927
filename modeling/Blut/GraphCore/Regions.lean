/-
  Semantic regions (`compile.rs`: `build_semantic_region_candidates`, `semantic_region`,
  `linear_fusion_is_safe`).

  A candidate cuts the topological order into consecutive segments. A segment of one node runs on
  the kernel assigned to the node, a longer one on a fused kernel that implements exactly its
  nodes, where the graph permits fusion. The candidates are searched depth first with a stack.
-/
import Blut.GraphCore.Registry
import Blut.GraphCore.Verify

namespace Blut.GraphCore

open Blut.Lib

structure PhysicalLowering where
  graph : Graph
  order : List NodeId
  descriptors : NodeTable
  kernels : BTreeMap NodeId KernelDescriptor
  registry : KernelRegistry
  target : Target

structure PhysicalSearchLimits where
  regionCandidates : Nat
  conversionStates : Nat
  maxPeakBytes : Nat
  maxSteps : Nat
  maxBuffers : Nat

/-- What the tables hold for one node of the order: `instances[id]`, `descriptors[id]` and
    `kernels[id]`. -/
structure Member where
  id : NodeId
  node : NodeInstance
  descriptor : NodeDescriptor
  kernel : KernelDescriptor
  deriving DecidableEq

/-- A node that is missing from a table panics. -/
def PhysicalLowering.member (context : PhysicalLowering) (id : NodeId) :
    Outcome CompileError Member := do
  let instances := BTreeMap.ofList (context.graph.nodes.map fun node => (node.id, node))
  let node ← instances.index id
  let descriptor ← context.descriptors.index id
  let kernel ← context.kernels.index id
  return { id := id, node := node, descriptor := descriptor, kernel := kernel }

/-! ## Fusion -/

/-- The one edge between two neighbours of a fused chain, on their only ports. -/
def fusionEdgeIsOnly (graph : Graph) (src dst : Member) : Bool :=
  let outgoing := graph.edges.filter fun edge => edge.src.node = src.id
  let incoming := graph.edges.filter fun edge => edge.dst.node = dst.id
  src.descriptor.outputs.length = 1
    && dst.descriptor.inputs.length = 1
    && outgoing.length = 1
    && incoming.length = 1
    && outgoing.head? = incoming.head?
    && outgoing.head?.map (fun edge => edge.src.port) =
      src.descriptor.outputs.head?.map PortDescriptor.name
    && incoming.head?.map (fun edge => edge.dst.port) =
      dst.descriptor.inputs.head?.map PortDescriptor.name

/-- A node whose effects, state and failures do not stand in the way of fusion. -/
def NodeDescriptor.isFusible (descriptor : NodeDescriptor) : Bool :=
  descriptor.effect = .pure && descriptor.partiality = .atomic
    && descriptor.state.scope = .stateless && descriptor.retryLimit = 0
    && !descriptor.state.checkpointable && descriptor.subgraph.isNone

def linearFusionIsSafe (graph : Graph) (members : List Member) : Bool :=
  !(graph.feedback.any fun edge =>
      (members.map Member.id).contains edge.src.node ||
        (members.map Member.id).contains edge.dst.node)
    && members.all (fun member => member.descriptor.isFusible)
    && windowsAll (fusionEdgeIsOnly graph) members

def portsCompatible (ports : List PortDescriptor) (layouts : List Layout) : Bool :=
  ports.all fun port => port.layouts.any fun layout => layouts.contains layout

/-- `descriptor_layouts_compatible`, and `fused_layouts_compatible` of the ends of a chain. -/
def fusedLayoutsCompatible (first last : NodeDescriptor) (kernel : KernelDescriptor) : Bool :=
  portsCompatible first.inputs kernel.inputLayouts &&
    portsCompatible last.outputs kernel.outputLayouts

/-- Whether a kernel implements exactly these nodes and may run them as one step. -/
def KernelDescriptor.fuses (kernel : KernelDescriptor) (graph : Graph)
    (members : List Member) : Bool :=
  (kernel.implements.zip members).all (fun (implemented, member) =>
      implemented.typeName = member.node.descriptor
        && implemented.version = member.node.descriptorVersion)
    && members.all (fun member =>
      kernel.determinism.ordinal ≤ member.descriptor.determinism.ordinal)
    && (match members.head?, members.getLast? with
      | some first, some last => fusedLayoutsCompatible first.descriptor last.descriptor kernel
      | _, _ => false)
    && linearFusionIsSafe graph members

/-- The order of the fused alternatives: longest first, then by cost. -/
def KernelDescriptor.fusionKey (kernel : KernelDescriptor) :
    Natᵒᵈ ×ₗ Nat ×ₗ Nat ×ₗ Digest ×ₗ Nat :=
  toLex (OrderDual.toDual kernel.implements.length, toLex (kernel.resources.peakBytes,
    toLex (kernel.resources.scratchBytes, toLex (kernel.implementationId, kernel.id))))

/-- The kernels that may fuse a chain at the head of the remaining order. -/
def fusedAlternatives (context : PhysicalLowering) (remaining : List Member) :
    List KernelDescriptor :=
  sortBy KernelDescriptor.fusionKey (context.registry.kernels.values.filter fun kernel =>
    kernel.target = context.target
      && kernel.implements.length ≥ 2
      && kernel.implements.length ≤ remaining.length
      && kernel.fuses context.graph (remaining.take kernel.implements.length))

/-! ## Regions -/

/-- A run of consecutive nodes and the kernel of its step. -/
structure Segment where
  members : List Member
  kernel : KernelDescriptor
  deriving DecidableEq

def failureDomainUnion (members : List Member) : List String :=
  sortDedup (members.flatMap fun member => member.descriptor.failure.domains)

def selectedPorts (ports : List PortDescriptor) (layouts : List Layout) :
    Outcome CompileError (List CompiledPortContract) :=
  ports.mapM fun port => do
    let layout ← selectLayout port layouts
    return compiledPortContract port layout

/-- `semantic_region`: the step of a segment, not yet bound to buffers. -/
def semanticRegion (segment : Segment) : Outcome CompileError CompiledNode := do
  let members := segment.members
  let kernel := segment.kernel
  let first ← expect (members.head?.map Member.descriptor)
  let last ← expect (members.getLast?.map Member.descriptor)
  let fused := members.length > 1
  let inputContracts ← selectedPorts first.inputs kernel.inputLayouts
  let outputContracts ← selectedPorts last.outputs kernel.outputLayouts
  return {
    id := 0
    semanticNodes := members.map Member.id
    semanticTypes := members.map fun member => member.node.typeRef
    semanticConfigs := members.map fun member => member.node.config
    kernel := kernel.id
    implementationId := kernel.implementationId
    resources := kernel.resources
    determinism := kernel.determinism
    lowering := kernel.lowering
    conversion := none
    inputPorts := first.inputs.map PortDescriptor.name
    outputPorts := last.outputs.map PortDescriptor.name
    inputContracts := inputContracts
    outputContracts := outputContracts
    inputBindings := List.replicate first.inputs.length .absent
    outputBindings := List.replicate last.outputs.length .terminal
    partiality := if fused then .atomic else first.partiality
    failure := if fused then { domains := failureDomainUnion members } else first.failure
    effect := if fused then .pure else first.effect
    retryLimit := if fused then 0 else first.retryLimit
    state := if fused then StateContract.stateless else first.state
    subgraphPath := members.filterMap fun member =>
      member.descriptor.subgraph.map SubgraphLowering.subgraph }

/-! ## The search for candidates -/

/-- A partial candidate: the segments chosen so far and the nodes after them. The source keeps
    only the fused choices and fills in the others when the candidate is complete. -/
structure Pending where
  remaining : List Member
  segments : List Segment
  deriving DecidableEq

/-- The partial candidate with one more segment, on a kernel for the next `count` nodes. -/
def Pending.extend (item : Pending) (count : Nat) (kernel : KernelDescriptor) : Pending :=
  { remaining := item.remaining.drop count
    segments := item.segments ++ [{ members := item.remaining.take count, kernel := kernel }] }

/-- The extensions of a partial candidate, the one the stack pops first at the head: the next
    node alone, then the fused alternatives. -/
def Pending.next (context : PhysicalLowering) (fuse : Bool) (item : Pending) (member : Member) :
    List Pending :=
  item.extend 1 member.kernel ::
    (if fuse then
      (fusedAlternatives context item.remaining).map fun kernel =>
        item.extend kernel.implements.length kernel
    else [])

/-- The `while let Some(..) = pending.pop()` loop. `fuel` bounds the rounds. -/
def regionLoop (context : PhysicalLowering) (fuse : Bool) (maxCandidates : Nat) :
    Nat → List Pending → List (List CompiledNode) →
      Outcome CompileError (List (List CompiledNode))
  | _, [], complete => .ok complete
  | 0, _ :: _, _ => .error .panic
  | fuel + 1, item :: pending, complete =>
    match item.remaining with
    | [] => do
      let regions ← item.segments.mapM semanticRegion
      let complete := complete ++ [regions]
      reject (complete.length > maxCandidates) .searchLimitExceeded
      regionLoop context fuse maxCandidates fuel pending complete
    | member :: _ => do
      let pending := item.next context fuse member ++ pending
      reject (pending.length + complete.length > maxCandidates) .searchLimitExceeded
      regionLoop context fuse maxCandidates fuel pending complete

/-- Rounds enough for the search: with `k` kernels a partial candidate has at most `k + 1`
    extensions, each shorter by a node. -/
def regionFuel (context : PhysicalLowering) : Nat :=
  (context.registry.kernels.size + 2) ^ context.order.length

def buildSemanticRegionCandidates (context : PhysicalLowering) (fuse : Bool) (maxCandidates : Nat) :
    Outcome CompileError (List (List CompiledNode)) := do
  let members ← context.order.mapM context.member
  regionLoop context fuse maxCandidates (regionFuel context)
    [{ remaining := members, segments := [] }] []

end Blut.GraphCore
