/-
  The data model of `blut-graph-core` (`model.rs`, `config.rs`): descriptors, graphs,
  kernels, hierarchical schemas and compiled plans.

  Numbers are `Nat` and `Int`. Checked arithmetic is written out where the source
  uses it (`checkedAdd`, `checkedMul`), so a sum that would leave its machine type
  is an error or a panic in the model too. Identities that the source derives from a
  length with `as u32` are that length: nothing below wraps a count.
  A field `from`/`to` of the source is `src`/`dst` here (`from` is a keyword).
-/
import Mathlib.Data.String.Basic
import Blut.Lib.Codec
import Blut.Lib.Sorting

namespace Blut.GraphCore

open Blut.Lib

/-! ## Identities and tokens -/

abbrev Byte := Fin 256

/-- `[u8; 32]`, ordered lexicographically. -/
abbrev Digest := { bytes : List Byte // bytes.length = 32 }

abbrev NodeId := Nat
abbrev KernelId := Nat
abbrev BufferId := Nat
abbrev StepId := Nat
abbrev FeedbackId := Nat
abbrev GraphId := Digest
abbrev PlanId := Digest
abbrev SubgraphId := Digest
abbrev ImplementationId := Digest
abbrev Capability := String
abbrev DomainToken := String

/-- An execution target token. `0`, `1`, `2` are `McuAot`, `Host`, `BlutDurable`. -/
abbrev Target := Nat

/-- An execution realm token. `0`, `1`, `2` are `McuAot`, `HostStream`, `BlutDurable`. -/
abbrev ExecutionRealm := Nat

/-- A buffer layout token. `0` to `4` are `Canonical`, `ChannelMajor`, `TimeMajor`,
    `Packed`, `Opaque`. The order of the tokens is the selection rule. -/
abbrev Layout := Nat

def Target.mcuAot : Target := 0
def Target.host : Target := 1
def Target.blutDurable : Target := 2

def ExecutionRealm.mcuAot : ExecutionRealm := 0
def ExecutionRealm.blutDurable : ExecutionRealm := 2

def ExecutionRealm.isKnown (realm : ExecutionRealm) : Bool := realm ≤ 2

/-- The target a realm lowers to. An unknown realm maps to an unknown target. -/
def ExecutionRealm.target (realm : ExecutionRealm) : Target :=
  match realm with
  | 0 => Target.mcuAot
  | 1 => Target.host
  | 2 => Target.blutDurable
  | other => other

def Layout.canonical : Layout := 0

def Layout.isKnown (layout : Layout) : Bool := layout ≤ 4

structure NodeTypeRef where
  typeName : String
  version : Nat
  deriving DecidableEq

/-- The key of the descriptor table, ordered by name and then version. -/
abbrev DescriptorKey := String ×ₗ Nat

def NodeTypeRef.key (r : NodeTypeRef) : DescriptorKey := toLex (r.typeName, r.version)

structure PortRef where
  node : NodeId
  port : String
  deriving DecidableEq

def PortRef.toKey (p : PortRef) : Nat ×ₗ String := toLex (p.node, p.port)

theorem PortRef.toKey_injective : Function.Injective PortRef.toKey := by
  rintro ⟨n, p⟩ ⟨n', p'⟩ h
  have h' : (n, p) = (n', p') := h
  cases h'
  rfl

instance : LinearOrder PortRef := LinearOrder.lift' PortRef.toKey PortRef.toKey_injective

/-! ## Checked machine arithmetic -/

/-- `u64::checked_add`, and `usize::checked_add` on a 64-bit target. -/
def checkedAdd (a b : Nat) : Option Nat := if a + b < 2 ^ 64 then some (a + b) else none

/-- `u64::checked_mul`, and `usize::checked_mul` on a 64-bit target. -/
def checkedMul (a b : Nat) : Option Nat := if a * b < 2 ^ 64 then some (a * b) else none

/-! ## Contracts -/

inductive Determinism where
  | bitExact
  | numericallyEquivalent
  | seeded
  | nondeterministic
  deriving DecidableEq

/-- `determinism as u32`, which is also the derived order. -/
def Determinism.ordinal : Determinism → Nat
  | .bitExact => 0
  | .numericallyEquivalent => 1
  | .seeded => 2
  | .nondeterministic => 3

inductive Effect where
  | pure
  | idempotent
  | transactional
  | atMostOnce
  | atLeastOnce
  deriving DecidableEq

def Effect.ordinal : Effect → Nat
  | .pure => 0
  | .idempotent => 1
  | .transactional => 2
  | .atMostOnce => 3
  | .atLeastOnce => 4

/-- `explicitGaps` permits a successful attempt to report machine-readable gaps. -/
inductive Partiality where
  | atomic
  | explicitGaps
  deriving DecidableEq

def Partiality.ordinal : Partiality → Nat
  | .atomic => 0
  | .explicitGaps => 1

inductive LeaseAccess where
  | readOnly
  | exclusiveWrite
  deriving DecidableEq

def LeaseAccess.ordinal : LeaseAccess → Nat
  | .readOnly => 0
  | .exclusiveWrite => 1

inductive LeaseLifetime where
  | step
  | invocation
  | session
  deriving DecidableEq

def LeaseLifetime.ordinal : LeaseLifetime → Nat
  | .step => 0
  | .invocation => 1
  | .session => 2

inductive StateScope where
  | stateless
  | invocation
  | session
  | durable
  deriving DecidableEq

def StateScope.ordinal : StateScope → Nat
  | .stateless => 0
  | .invocation => 1
  | .session => 2
  | .durable => 3

inductive CheckpointMode where
  | disabled
  | optional
  | required
  deriving DecidableEq

def CheckpointMode.ordinal : CheckpointMode → Nat
  | .disabled => 0
  | .optional => 1
  | .required => 2

structure FailureContract where
  domains : List String
  deriving DecidableEq

structure DomainType where
  root : DomainToken
  view : DomainToken
  deriving DecidableEq

structure ExtentContract where
  rank : Nat
  maximumShape : List Nat
  maxElements : Nat
  ragged : Bool
  sparse : Bool
  deriving DecidableEq

structure LeaseContract where
  access : LeaseAccess
  lifetime : LeaseLifetime
  zeroCopyPermitted : Bool
  contiguousRequired : Bool
  deriving DecidableEq

structure ResourceEnvelope where
  peakBytes : Nat
  scratchBytes : Nat
  threads : Nat
  device : Option String
  deriving DecidableEq

structure ProofContract where
  requires : List String
  provides : List String
  invalidates : List String
  deriving DecidableEq

structure PolicyContract where
  requires : List String
  adds : List String
  deriving DecidableEq

structure FidelityContract where
  minimumInput : Nat
  maximumLoss : Nat
  deriving DecidableEq

structure PortDescriptor where
  name : String
  semanticType : String
  optional : Bool
  layouts : List Layout
  maxBytes : Nat
  domain : DomainType
  proof : ProofContract
  policy : PolicyContract
  fidelity : FidelityContract
  extent : ExtentContract
  lease : LeaseContract
  deriving DecidableEq

/-- `ResourceEnvelope::bounded`. -/
def ResourceEnvelope.bounded (peakBytes scratchBytes threads : Nat) : ResourceEnvelope :=
  { peakBytes := peakBytes, scratchBytes := scratchBytes, threads := threads, device := none }

/-- `PortDescriptor::opaque`: a blob of at most `max_bytes` without further obligations. -/
def PortDescriptor.opaqueBlob (name semanticType : String) (maxBytes : Nat) : PortDescriptor :=
  { name := name
    semanticType := semanticType
    optional := false
    layouts := [Layout.canonical]
    maxBytes := maxBytes
    domain := { root := "blob-ref", view := "atom" }
    proof := { requires := [], provides := [], invalidates := [] }
    policy := { requires := [], adds := [] }
    fidelity := { minimumInput := 0, maximumLoss := 0 }
    extent :=
      { rank := 0, maximumShape := [], maxElements := 1, ragged := false, sparse := false }
    lease :=
      { access := .readOnly, lifetime := .invocation, zeroCopyPermitted := false,
        contiguousRequired := false } }

structure CheckpointContract where
  mode : CheckpointMode
  maxSnapshotBytes : Nat
  maxIntervalInvocations : Nat
  deriving DecidableEq

structure StateContract where
  scope : StateScope
  maxBytes : Nat
  checkpoint : CheckpointContract
  deriving DecidableEq

def StateContract.stateless : StateContract :=
  { scope := .stateless, maxBytes := 0,
    checkpoint := { mode := .disabled, maxSnapshotBytes := 0, maxIntervalInvocations := 0 } }

def StateContract.checkpointable (state : StateContract) : Bool :=
  state.checkpoint.mode ≠ .disabled

structure SessionContract where
  namespaceName : String
  maxConcurrentSessions : Nat
  maxIdleMillis : Nat
  resetOnPlanChange : Bool
  deriving DecidableEq

inductive DelayInitial where
  | absent
  | zeroed
  | contentId (id : Digest)
  deriving DecidableEq

structure DelayContract where
  invocations : Nat
  initial : DelayInitial
  deriving DecidableEq

/-! ## Configuration -/

/-- Exact values accepted by semantic node instances. -/
inductive ConfigValue where
  | bool (value : Bool)
  | i64 (value : Int)
  | u64 (value : Nat)
  | text (value : String)
  | bytes (value : List Byte)
  deriving DecidableEq

inductive ConfigType where
  | bool
  | i64 (minimum maximum : Int)
  | u64 (minimum maximum : Nat)
  | text (maxBytes : Nat)
  | choice (values : List String)
  | bytes (maxBytes : Nat)
  deriving DecidableEq

structure ConfigField where
  name : String
  valueType : ConfigType
  required : Bool
  default : Option ConfigValue
  deriving DecidableEq

structure ConfigSchema where
  fields : List ConfigField
  deriving DecidableEq

abbrev Config := BTreeMap String ConfigValue

/-! ## Hierarchical schemas -/

structure PortMap where
  outer : String
  inner : String
  deriving DecidableEq

def PortMap.toKey (m : PortMap) : String ×ₗ String := toLex (m.outer, m.inner)

theorem PortMap.toKey_injective : Function.Injective PortMap.toKey := by
  rintro ⟨a, b⟩ ⟨a', b'⟩ h
  have h' : (a, b) = (a', b') := h
  cases h'
  rfl

instance : LinearOrder PortMap := LinearOrder.lift' PortMap.toKey PortMap.toKey_injective

structure SubgraphConfigMap where
  outer : String
  node : NodeId
  inner : String
  deriving DecidableEq

def SubgraphConfigMap.toKey (m : SubgraphConfigMap) : String ×ₗ Nat ×ₗ String :=
  toLex (m.outer, toLex (m.node, m.inner))

theorem SubgraphConfigMap.toKey_injective : Function.Injective SubgraphConfigMap.toKey := by
  rintro ⟨a, b, c⟩ ⟨a', b', c'⟩ h
  have h' : (a, b, c) = (a', b', c') := h
  cases h'
  rfl

instance : LinearOrder SubgraphConfigMap :=
  LinearOrder.lift' SubgraphConfigMap.toKey SubgraphConfigMap.toKey_injective

structure SubgraphLowering where
  subgraph : SubgraphId
  inputMap : List PortMap
  outputMap : List PortMap
  configMap : List SubgraphConfigMap
  deriving DecidableEq

structure SubgraphNode where
  id : NodeId
  nodeType : NodeTypeRef
  config : Config
  child : Option SubgraphId
  deriving DecidableEq

structure SubgraphInterfacePort where
  name : String
  inner : PortRef
  deriving DecidableEq

def SubgraphInterfacePort.toKey (p : SubgraphInterfacePort) : String ×ₗ PortRef :=
  toLex (p.name, p.inner)

structure Edge where
  src : PortRef
  dst : PortRef
  deriving DecidableEq

/-- The sort key of edges, `(edge.from, edge.to)`. -/
def Edge.toKey (e : Edge) : PortRef ×ₗ PortRef := toLex (e.src, e.dst)

structure SubgraphSchema where
  id : SubgraphId
  version : Nat
  nodes : List SubgraphNode
  edges : List Edge
  inputs : List SubgraphInterfacePort
  outputs : List SubgraphInterfacePort
  deriving DecidableEq

/-! ## Descriptors, kernels and graphs -/

structure NodeDescriptor where
  typeName : String
  version : Nat
  inputs : List PortDescriptor
  outputs : List PortDescriptor
  capabilities : List Capability
  targets : List Target
  resources : ResourceEnvelope
  determinism : Determinism
  config : ConfigSchema
  state : StateContract
  subgraph : Option SubgraphLowering
  proof : ProofContract
  policy : PolicyContract
  fidelity : FidelityContract
  partiality : Partiality
  failure : FailureContract
  effect : Effect
  retryLimit : Nat
  deriving DecidableEq

def NodeDescriptor.key (d : NodeDescriptor) : DescriptorKey := toLex (d.typeName, d.version)

/-- The descriptors of a graph's nodes, by node id. -/
abbrev NodeTable := BTreeMap NodeId NodeDescriptor

structure NodeInstance where
  id : NodeId
  descriptor : String
  descriptorVersion : Nat
  config : Config
  deriving DecidableEq

def NodeInstance.key (n : NodeInstance) : DescriptorKey :=
  toLex (n.descriptor, n.descriptorVersion)

def NodeInstance.typeRef (n : NodeInstance) : NodeTypeRef :=
  { typeName := n.descriptor, version := n.descriptorVersion }

structure FeedbackEdge where
  src : PortRef
  dst : PortRef
  delay : DelayContract
  deriving DecidableEq

def FeedbackEdge.toKey (e : FeedbackEdge) : PortRef ×ₗ PortRef := toLex (e.src, e.dst)

structure Graph where
  version : Nat
  nodes : List NodeInstance
  edges : List Edge
  feedback : List FeedbackEdge
  invocationInputs : List PortRef
  requiredCapabilities : List Capability
  requiredProofs : List String
  policy : List String
  minimumFidelity : Nat
  session : Option SessionContract
  deriving DecidableEq

structure MaterializedSubgraph where
  graph : Graph
  inputs : List SubgraphInterfacePort
  outputs : List SubgraphInterfacePort
  deriving DecidableEq

structure LayoutConversion where
  semanticType : String
  src : Layout
  dst : Layout
  maxInputBytes : Nat
  maxOutputBytes : Nat
  deriving DecidableEq

structure KernelDescriptor where
  id : KernelId
  /-- The exact semantic chain; longer than one for a fused implementation,
      empty for a layout conversion. -/
  implements : List NodeTypeRef
  implementationId : ImplementationId
  conversion : Option LayoutConversion
  target : Target
  inputLayouts : List Layout
  outputLayouts : List Layout
  resources : ResourceEnvelope
  determinism : Determinism
  lowering : String
  deriving DecidableEq

/-! ## Compiled plans -/

inductive OutputBinding where
  | buffer (id : BufferId)
  | terminal
  deriving DecidableEq

inductive InputBinding where
  | buffer (id : BufferId)
  | invocation (port : Nat)
  | feedback (id : FeedbackId)
  | absent
  deriving DecidableEq

/-- The buffer that a binding reads, if any. -/
def InputBinding.buffer? : InputBinding → Option BufferId
  | .buffer id => some id
  | _ => none

/-- The buffer that a binding writes, if any. -/
def OutputBinding.buffer? : OutputBinding → Option BufferId
  | .buffer id => some id
  | .terminal => none

structure CompiledPortContract where
  name : String
  semanticType : String
  optional : Bool
  layout : Layout
  maxBytes : Nat
  domain : DomainType
  proof : ProofContract
  policy : PolicyContract
  fidelity : FidelityContract
  extent : ExtentContract
  lease : LeaseContract
  deriving DecidableEq

/-- One physical execution step. Conversion steps have no semantic nodes. -/
structure CompiledNode where
  id : StepId
  semanticNodes : List NodeId
  semanticTypes : List NodeTypeRef
  semanticConfigs : List Config
  kernel : KernelId
  implementationId : ImplementationId
  resources : ResourceEnvelope
  determinism : Determinism
  lowering : String
  conversion : Option LayoutConversion
  inputPorts : List String
  outputPorts : List String
  inputContracts : List CompiledPortContract
  outputContracts : List CompiledPortContract
  inputBindings : List InputBinding
  outputBindings : List OutputBinding
  partiality : Partiality
  failure : FailureContract
  effect : Effect
  retryLimit : Nat
  state : StateContract
  subgraphPath : List SubgraphId
  deriving DecidableEq

structure FeedbackPlan where
  id : FeedbackId
  fromStep : StepId
  fromPort : Nat
  toStep : StepId
  toPort : Nat
  delay : DelayContract
  stateBytes : Nat
  deriving DecidableEq

structure BufferPlan where
  id : BufferId
  layout : Layout
  capacityBytes : Nat
  producer : StepId
  consumers : List StepId
  lastConsumer : StepId
  aliases : Option BufferId
  deriving DecidableEq

structure CompiledPlan where
  schemaVersion : Nat
  graphId : GraphId
  planId : PlanId
  realm : ExecutionRealm
  order : List NodeId
  nodes : List CompiledNode
  buffers : List BufferPlan
  feedback : List FeedbackPlan
  invocationPorts : List PortRef
  propagatedProofs : List String
  propagatedPolicy : List String
  resultingFidelity : Nat
  peakBytes : Nat
  persistentStateBytes : Nat
  session : Option SessionContract
  deriving DecidableEq

/-- A plan whose steps were selected from, or checked against, a kernel registry. -/
structure AuthorizedPlan where
  plan : CompiledPlan
  deriving DecidableEq

/-- The all-zero digest. -/
def Digest.zero : Digest := ⟨List.replicate 32 0, List.length_replicate⟩

end Blut.GraphCore
