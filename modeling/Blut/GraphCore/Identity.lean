/-
  Content identities (`compile.rs`: `subgraph_identity`, `hash_graph`, `hash_descriptor`,
  `hash_plan` and their helpers).

  Each `hash_*` function of the source feeds bytes to a hasher; here it is the list of the
  bytes it feeds, in order. BLAKE3 in key-derivation mode is outside the repository and
  appears as a parameter `Blake3`, applied to the context string and the whole text.
-/
import Blut.GraphCore.Model

namespace Blut.GraphCore

open Blut.Lib

/-- `Hasher::new_derive_key(context)`, `update(bytes)`, `finalize()`. -/
abbrev Blake3 := String → List Byte → Digest

/-! ## Primitive encodings -/

def putU8 (value : Nat) : List Byte := leBytes 1 value

def putU32 (value : Nat) : List Byte := leBytes 4 value

/-- `u64::to_le_bytes`. -/
def putU64 (value : Nat) : List Byte := leBytes 8 value

/-- `i64::to_le_bytes`, two's complement. -/
def putI64 (value : Int) : List Byte := leBytes 8 (value % 2 ^ 64).toNat

/-- `u8::from(bool)`. -/
def putBool (value : Bool) : List Byte := putU8 value.toNat

def putDigest (digest : Digest) : List Byte := digest.val

def putStr (value : String) : List Byte := putU32 (utf8Bytes value).length ++ utf8Bytes value

/-- A list after its length, `put_u32(len)` and then every element. -/
def putList {α : Type} (put : α → List Byte) (values : List α) : List Byte :=
  counted putU32 put values

/-- `[0]`, or `[1]` and the value. -/
def putOption {α : Type} (put : α → List Byte) (value : Option α) : List Byte :=
  tagged 0 1 put value

def putStrSet (values : List String) : List Byte := putList putStr values

def putPortRef (port : PortRef) : List Byte := putU32 port.node ++ putStr port.port

/-! ## Contracts and configuration -/

def hashConfigValue : ConfigValue → List Byte
  | .bool value => 0 :: putBool value
  | .i64 value => 1 :: putI64 value
  | .u64 value => 2 :: putU64 value
  | .text value => 3 :: putStr value
  | .bytes value => 4 :: (putU32 value.length ++ value)

/-- The entries of a configuration, in key order. -/
def hashConfig (config : Config) : List Byte :=
  putList (fun entry => putStr entry.1 ++ hashConfigValue entry.2) config.entries

def hashConfigType : ConfigType → List Byte
  | .bool => [0]
  | .i64 minimum maximum => 1 :: (putI64 minimum ++ putI64 maximum)
  | .u64 minimum maximum => 2 :: (putU64 minimum ++ putU64 maximum)
  | .text maxBytes => 3 :: putU32 maxBytes
  | .choice values => 4 :: putList putStr values
  | .bytes maxBytes => 5 :: putU32 maxBytes

def hashConfigField (field : ConfigField) : List Byte :=
  putStr field.name ++ hashConfigType field.valueType ++ putBool field.required
    ++ putOption hashConfigValue field.default

def hashConfigSchema (schema : ConfigSchema) : List Byte := putList hashConfigField schema.fields

def hashDomainType (domain : DomainType) : List Byte := putStr domain.root ++ putStr domain.view

def hashProof (proof : ProofContract) : List Byte :=
  putStrSet proof.requires ++ putStrSet proof.provides ++ putStrSet proof.invalidates

def hashPolicy (policy : PolicyContract) : List Byte :=
  putStrSet policy.requires ++ putStrSet policy.adds

def hashFidelity (fidelity : FidelityContract) : List Byte :=
  putU32 fidelity.minimumInput ++ putU32 fidelity.maximumLoss

def hashExtent (extent : ExtentContract) : List Byte :=
  putU8 extent.rank ++ putList putU64 extent.maximumShape ++ putU64 extent.maxElements
    ++ putBool extent.ragged ++ putBool extent.sparse

def hashLease (lease : LeaseContract) : List Byte :=
  putU32 lease.access.ordinal ++ putU32 lease.lifetime.ordinal ++ putBool lease.zeroCopyPermitted
    ++ putBool lease.contiguousRequired

def hashState (state : StateContract) : List Byte :=
  putU32 state.scope.ordinal ++ putU64 state.maxBytes ++ putU32 state.checkpoint.mode.ordinal
    ++ putU64 state.checkpoint.maxSnapshotBytes ++ putU32 state.checkpoint.maxIntervalInvocations

def hashPortMap (map : PortMap) : List Byte := putStr map.outer ++ putStr map.inner

def hashPortMaps (maps : List PortMap) : List Byte := putList hashPortMap maps

def hashConfigMap (map : SubgraphConfigMap) : List Byte :=
  putStr map.outer ++ putU32 map.node ++ putStr map.inner

def hashLowering (lowering : SubgraphLowering) : List Byte :=
  putDigest lowering.subgraph ++ hashPortMaps lowering.inputMap ++ hashPortMaps lowering.outputMap
    ++ putList hashConfigMap lowering.configMap

def hashDelayInitial : DelayInitial → List Byte
  | .absent => [0]
  | .zeroed => [1]
  | .contentId id => 2 :: putDigest id

def hashSessionContract (session : SessionContract) : List Byte :=
  putStr session.namespaceName ++ putU32 session.maxConcurrentSessions
    ++ putU64 session.maxIdleMillis ++ putBool session.resetOnPlanChange

def hashSession (session : Option SessionContract) : List Byte :=
  putOption hashSessionContract session

def hashResources (resources : ResourceEnvelope) : List Byte :=
  putU64 resources.peakBytes ++ putU64 resources.scratchBytes ++ putU32 resources.threads
    ++ putOption putStr resources.device

/-! ## Descriptors and graphs -/

/-- One port of `hash_ports`. The layouts are sorted here once more. -/
def hashPort (port : PortDescriptor) : List Byte :=
  putStr port.name ++ putStr port.semanticType ++ putU32 port.optional.toNat
    ++ putList putU32 (sortDedup port.layouts) ++ putU64 port.maxBytes
    ++ hashDomainType port.domain ++ hashProof port.proof ++ hashPolicy port.policy
    ++ hashFidelity port.fidelity ++ hashExtent port.extent ++ hashLease port.lease

def hashPorts (ports : List PortDescriptor) : List Byte :=
  putList hashPort (sortBy PortDescriptor.name ports)

/-- `hash_descriptor`. Name and version are fed with the node that refers to them. -/
def hashDescriptor (descriptor : NodeDescriptor) : List Byte :=
  hashPorts descriptor.inputs ++ hashPorts descriptor.outputs
    ++ putStrSet (sortDedup descriptor.capabilities)
    ++ putList putU32 (sortDedup descriptor.targets)
    ++ hashResources descriptor.resources
    ++ putU32 descriptor.determinism.ordinal
    ++ hashConfigSchema descriptor.config
    ++ hashState descriptor.state
    ++ putOption hashLowering descriptor.subgraph
    ++ putStrSet (sortDedup descriptor.proof.requires)
    ++ putStrSet (sortDedup descriptor.proof.provides)
    ++ putStrSet (sortDedup descriptor.proof.invalidates)
    ++ putStrSet (sortDedup descriptor.policy.requires)
    ++ putStrSet (sortDedup descriptor.policy.adds)
    ++ putU32 descriptor.fidelity.minimumInput
    ++ putU32 descriptor.fidelity.maximumLoss
    ++ putU32 descriptor.partiality.ordinal
    ++ putStrSet (sortDedup descriptor.failure.domains)
    ++ putU32 descriptor.effect.ordinal
    ++ putU32 descriptor.retryLimit

def hashEdge (edge : Edge) : List Byte := putPortRef edge.src ++ putPortRef edge.dst

def hashFeedbackEdge (edge : FeedbackEdge) : List Byte :=
  putPortRef edge.src ++ putPortRef edge.dst ++ putU32 edge.delay.invocations
    ++ hashDelayInitial edge.delay.initial

/-- A node of `hash_graph` with the descriptor it refers to. -/
def hashNode (node : NodeInstance) (descriptor : NodeDescriptor) : List Byte :=
  putU32 node.id ++ putStr node.descriptor ++ putU32 node.descriptorVersion
    ++ hashDescriptor descriptor ++ hashConfig node.config

/-- The nodes in id order, each with `descriptors[&node.id]`. -/
def describedNodes {ε : Type} (nodes : List NodeInstance)
    (descriptors : NodeTable) :
    Outcome ε (List (NodeInstance × NodeDescriptor)) :=
  (sortBy NodeInstance.id nodes).mapM fun node => do
    let descriptor ← descriptors.index node.id
    return (node, descriptor)

/-- The text `hash_graph` feeds to the hasher. -/
def graphPreimage {ε : Type} (graph : Graph) (descriptors : NodeTable) :
    Outcome ε (List Byte) := do
  let nodes ← describedNodes graph.nodes descriptors
  return putU32 graph.version
    ++ putList (fun entry => hashNode entry.1 entry.2) nodes
    ++ putList hashEdge (sortBy Edge.toKey graph.edges)
    ++ putList hashFeedbackEdge (sortBy FeedbackEdge.toKey graph.feedback)
    ++ putList putPortRef (sortDedup graph.invocationInputs)
    ++ putStrSet (sortDedup graph.requiredCapabilities)
    ++ putStrSet (sortDedup graph.requiredProofs)
    ++ putStrSet (sortDedup graph.policy)
    ++ putU32 graph.minimumFidelity
    ++ hashSession graph.session

def hashGraph {ε : Type} (blake3 : Blake3) (graph : Graph)
    (descriptors : NodeTable) : Outcome ε Digest := do
  let bytes ← graphPreimage graph descriptors
  return blake3 "blut.graph.v3" bytes

/-! ## Hierarchical schemas -/

def hashSubgraphNode (node : SubgraphNode) : List Byte :=
  putU32 node.id ++ putStr node.nodeType.typeName ++ putU32 node.nodeType.version
    ++ hashConfig node.config ++ putOption putDigest node.child

def hashInterfacePort (port : SubgraphInterfacePort) : List Byte :=
  putStr port.name ++ putPortRef port.inner

/-- The text `subgraph_identity` feeds to the hasher. The schema's own id is not part of it. -/
def subgraphPreimage (schema : SubgraphSchema) : List Byte :=
  putU32 schema.version
    ++ putList hashSubgraphNode (sortBy SubgraphNode.id schema.nodes)
    ++ putList hashEdge (sortBy Edge.toKey schema.edges)
    ++ putList hashInterfacePort (sortBy SubgraphInterfacePort.toKey schema.inputs)
    ++ putList hashInterfacePort (sortBy SubgraphInterfacePort.toKey schema.outputs)

def subgraphIdentity (blake3 : Blake3) (schema : SubgraphSchema) : SubgraphId :=
  blake3 "blut.subgraph.v1" (subgraphPreimage schema)

/-! ## Compiled plans -/

def hashCompiledPort (port : CompiledPortContract) : List Byte :=
  putStr port.name ++ putStr port.semanticType ++ putBool port.optional ++ putU32 port.layout
    ++ putU64 port.maxBytes ++ hashDomainType port.domain ++ hashProof port.proof
    ++ hashPolicy port.policy ++ hashFidelity port.fidelity ++ hashExtent port.extent
    ++ hashLease port.lease

def hashCompiledPorts (ports : List CompiledPortContract) : List Byte :=
  putList hashCompiledPort ports

def hashNodeTypeRef (nodeType : NodeTypeRef) : List Byte :=
  putStr nodeType.typeName ++ putU32 nodeType.version

def hashConversion (conversion : LayoutConversion) : List Byte :=
  putStr conversion.semanticType ++ putU32 conversion.src ++ putU32 conversion.dst
    ++ putU64 conversion.maxInputBytes ++ putU64 conversion.maxOutputBytes

def hashInputBinding : InputBinding → List Byte
  | .buffer id => 1 :: putU32 id
  | .invocation port => 2 :: putU32 port
  | .feedback id => 3 :: putU32 id
  | .absent => [0]

def hashOutputBinding : OutputBinding → List Byte
  | .buffer id => 1 :: putU32 id
  | .terminal => [0]

def hashCompiledNode (node : CompiledNode) : List Byte :=
  putU32 node.id
    ++ putList putU32 node.semanticNodes
    ++ putList hashNodeTypeRef node.semanticTypes
    ++ putList hashConfig node.semanticConfigs
    ++ putU32 node.kernel
    ++ putDigest node.implementationId
    ++ hashResources node.resources
    ++ putU32 node.determinism.ordinal
    ++ putStr node.lowering
    ++ putOption hashConversion node.conversion
    ++ putList putStr node.inputPorts
    ++ putList putStr node.outputPorts
    ++ hashCompiledPorts node.inputContracts
    ++ hashCompiledPorts node.outputContracts
    ++ putList hashInputBinding node.inputBindings
    ++ putList hashOutputBinding node.outputBindings
    ++ putU32 node.partiality.ordinal
    ++ putList putStr (sortDedup node.failure.domains)
    ++ putU32 node.effect.ordinal
    ++ putU32 node.retryLimit
    ++ hashState node.state
    ++ putList putDigest node.subgraphPath

def hashBuffer (buffer : BufferPlan) : List Byte :=
  putU32 buffer.id ++ putU32 buffer.layout ++ putU64 buffer.capacityBytes
    ++ putU32 buffer.producer ++ putList putU32 buffer.consumers ++ putU32 buffer.lastConsumer
    ++ putOption putU32 buffer.aliases

def hashFeedbackPlan (feedback : FeedbackPlan) : List Byte :=
  putU32 feedback.id ++ putU32 feedback.fromStep ++ putU32 feedback.fromPort
    ++ putU32 feedback.toStep ++ putU32 feedback.toPort ++ putU32 feedback.delay.invocations
    ++ hashDelayInitial feedback.delay.initial ++ putU64 feedback.stateBytes

/-- The text `hash_plan` feeds to the hasher. The plan id is not part of it. -/
def planPreimage (plan : CompiledPlan) : List Byte :=
  putU32 plan.schemaVersion
    ++ putDigest plan.graphId
    ++ putU32 plan.realm
    ++ putList putU32 plan.order
    ++ putList hashCompiledNode plan.nodes
    ++ putList putPortRef plan.invocationPorts
    ++ putList hashBuffer plan.buffers
    ++ putList hashFeedbackPlan plan.feedback
    ++ putList putStr plan.propagatedProofs
    ++ putList putStr plan.propagatedPolicy
    ++ putU32 plan.resultingFidelity
    ++ putU64 plan.peakBytes
    ++ putU64 plan.persistentStateBytes
    ++ hashSession plan.session

def hashPlan (blake3 : Blake3) (plan : CompiledPlan) : PlanId :=
  blake3 "blut.compiled-plan.v3" (planPreimage plan)

end Blut.GraphCore
