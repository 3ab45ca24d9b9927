/-
  The registry of trusted descriptors, kernels and subgraphs (`KernelRegistry`).

  A method that takes `&mut self` and returns a `Result` is a state transformer that keeps
  the state it had when it fails (`Registering`), so that a half-done registration would be
  visible. `RegisterCall` is one call; a registry is reachable when a sequence of calls,
  each of which may fail, leads to it from the empty one.
-/
import Blut.GraphCore.Identity
import Blut.GraphCore.Hierarchy

namespace Blut.GraphCore

open Blut.Lib

structure KernelRegistry where
  descriptors : DescriptorTable
  kernels : BTreeMap KernelId KernelDescriptor
  subgraphs : SubgraphTable
  deriving DecidableEq

def KernelRegistry.empty : KernelRegistry :=
  { descriptors := BTreeMap.empty, kernels := BTreeMap.empty, subgraphs := BTreeMap.empty }

/-- `&mut self` with a `Result`: the state at the point of return comes back in either case. -/
abbrev Registering := ExceptT (Fault CompileError) (StateM KernelRegistry)

/-! ## Descriptors -/

def SubgraphLowering.normalized (lowering : SubgraphLowering) : SubgraphLowering :=
  { lowering with
    inputMap := sortDedup lowering.inputMap
    outputMap := sortDedup lowering.outputMap
    configMap := sortDedup lowering.configMap }

/-- The set-like lists of a descriptor in normal form; the schema is normalized apart. -/
def NodeDescriptor.normalized (descriptor : NodeDescriptor) (config : ConfigSchema) :
    NodeDescriptor :=
  { descriptor with
    inputs := descriptor.inputs.map PortDescriptor.normalized
    outputs := descriptor.outputs.map PortDescriptor.normalized
    capabilities := sortDedup descriptor.capabilities
    targets := sortDedup descriptor.targets
    config := config
    subgraph := descriptor.subgraph.map SubgraphLowering.normalized
    proof := descriptor.proof.normalized
    policy := descriptor.policy.normalized
    failure := { domains := sortDedup descriptor.failure.domains } }

def invalidPorts (ports : List PortDescriptor) : Bool :=
  ports.any (fun port => port.name = "" || port.semanticType = "" || port.maxBytes = 0
      || port.layouts.isEmpty || !validPortContract port)
    || hasDuplicates (ports.map PortDescriptor.name)

/-- The checks of `register_descriptor` on the normalized descriptor alone. -/
def invalidDescriptor (descriptor : NodeDescriptor) : Bool :=
  descriptor.typeName = ""
    || descriptor.version = 0
    || descriptor.resources.threads = 0
    || !validContractNames descriptor.proof descriptor.policy
    || invalidPorts descriptor.inputs
    || invalidPorts descriptor.outputs
    || (descriptor.effect = .atMostOnce && descriptor.retryLimit > 0)
    || descriptor.failure.domains.any (fun domain => domain = "")
    || (descriptor.partiality = .explicitGaps && descriptor.failure.domains.isEmpty)
    || !validStateContract descriptor.state

/-- `register_descriptor` up to the insertion: the descriptor it would store. -/
def admitDescriptor (registry : KernelRegistry) (descriptor : NodeDescriptor) :
    Outcome CompileError NodeDescriptor := do
  let config ← mapErr (fun _ => .invalidDescriptor descriptor.typeName descriptor.version)
    descriptor.config.normalize
  let descriptor := descriptor.normalized config
  reject (registry.descriptors.contains descriptor.key)
    (.duplicateDescriptor descriptor.typeName descriptor.version)
  reject (invalidDescriptor descriptor)
    (.invalidDescriptor descriptor.typeName descriptor.version)
  reject (descriptor.subgraph.any fun lowering =>
      (validateSubgraphLowering descriptor lowering registry.subgraphs
        registry.descriptors).value.isNone)
    (.invalidDescriptor descriptor.typeName descriptor.version)
  return descriptor

def registerDescriptor (descriptor : NodeDescriptor) : Registering Unit := do
  let registry ← get
  let descriptor ← liftExcept (admitDescriptor registry descriptor)
  set { registry with descriptors := registry.descriptors.insert descriptor.key descriptor }

/-! ## Subgraphs -/

def SubgraphSchema.normalized (schema : SubgraphSchema) : SubgraphSchema :=
  { schema with
    nodes := sortBy SubgraphNode.id schema.nodes
    edges := sortBy Edge.toKey schema.edges
    inputs := sortBy SubgraphInterfacePort.toKey schema.inputs
    outputs := sortBy SubgraphInterfacePort.toKey schema.outputs }

/-- Two ports of one name, or of one inner port, in a sorted interface. -/
def duplicateInterface (ports : List SubgraphInterfacePort) : Bool :=
  windowsAny (fun a b => decide (a.name = b.name)) ports
    || hasDuplicates (ports.map SubgraphInterfacePort.inner)

/-- The checks of `register_subgraph` on the normalized schema alone. -/
def invalidSchema (blake3 : Blake3) (schema : SubgraphSchema) : Bool :=
  schema.version = 0
    || schema.nodes.isEmpty
    || windowsAny (fun a b => decide (a.id = b.id)) schema.nodes
    || windowsAny (fun a b => decide (a = b)) schema.edges
    || duplicateInterface schema.inputs
    || duplicateInterface schema.outputs
    || schema.id ≠ subgraphIdentity blake3 schema

/-- The node's configuration is not the canonical one. -/
def invalidNodeConfig (descriptor : NodeDescriptor) (config : Config) : Bool :=
  match descriptor.config.canonicalize config with
  | .ok canonical => canonical ≠ config
  | .error _ => true

/-- The node's child is the schema itself, unregistered, or offers another interface. -/
def invalidNodeChild (registry : KernelRegistry) (schema : SubgraphSchema)
    (descriptor : NodeDescriptor) : Option SubgraphId → Bool
  | none => false
  | some child =>
    if child = schema.id then true
    else (registry.subgraphs.get? child).all fun childSchema =>
      !subgraphImplementsDescriptor childSchema descriptor registry.descriptors

/-- The node loop: the descriptors of the nodes. -/
def describeNode (registry : KernelRegistry) (schema : SubgraphSchema)
    (descriptors : NodeTable) (node : SubgraphNode) :
    Outcome CompileError NodeTable := do
  let descriptor ← okOr (registry.descriptors.get? node.nodeType.key) (.invalidSubgraph schema.id)
  reject (invalidNodeConfig descriptor node.config
      || invalidNodeChild registry schema descriptor node.child) (.invalidSubgraph schema.id)
  return descriptors.insert node.id descriptor

/-- The edge loop: the inner inputs bound by edges. -/
def bindSchemaEdge (id : SubgraphId) (descriptors : NodeTable)
    (bound : BTreeSet PortRef) (edge : Edge) : Outcome CompileError (BTreeSet PortRef) := do
  let src ← okOr (descriptors.get? edge.src.node) (.invalidSubgraph id)
  let dst ← okOr (descriptors.get? edge.dst.node) (.invalidSubgraph id)
  let output ← okOr (portNamed src.outputs edge.src.port) (.invalidSubgraph id)
  let input ← okOr (portNamed dst.inputs edge.dst.port) (.invalidSubgraph id)
  reject (!portContractSatisfies output input || bound.contains edge.dst) (.invalidSubgraph id)
  return BTreeSet.add bound edge.dst

/-- The input loop: the inner inputs bound by the interface. -/
def bindInterfaceInput (id : SubgraphId) (descriptors : NodeTable)
    (bound : BTreeSet PortRef) (port : SubgraphInterfacePort) :
    Outcome CompileError (BTreeSet PortRef) := do
  let descriptor ← okOr (descriptors.get? port.inner.node) (.invalidSubgraph id)
  reject (port.name = "" || !descriptor.inputs.any (fun input => input.name = port.inner.port)
      || bound.contains port.inner) (.invalidSubgraph id)
  return BTreeSet.add bound port.inner

/-- The output loop. -/
def checkInterfaceOutput (id : SubgraphId) (descriptors : NodeTable)
    (port : SubgraphInterfacePort) : Outcome CompileError Unit := do
  let descriptor ← okOr (descriptors.get? port.inner.node) (.invalidSubgraph id)
  reject (port.name = "" || !descriptor.outputs.any (fun output => output.name = port.inner.port))
    (.invalidSubgraph id)

/-- Some non-optional input of some node is not bound. -/
def missesInput (descriptors : NodeTable) (bound : BTreeSet PortRef) : Bool :=
  descriptors.entries.any fun (node, descriptor) =>
    descriptor.inputs.any fun input =>
      !input.optional && !bound.contains { node := node, port := input.name }

/-- `register_subgraph` up to the insertion: the schema it would store. -/
def admitSubgraph (blake3 : Blake3) (registry : KernelRegistry) (schema : SubgraphSchema) :
    Outcome CompileError SubgraphSchema := do
  let schema := schema.normalized
  reject (invalidSchema blake3 schema || registry.subgraphs.contains schema.id)
    (.invalidSubgraph schema.id)
  let descriptors ← schema.nodes.foldlM (describeNode registry schema) BTreeMap.empty
  let bound ← schema.edges.foldlM (bindSchemaEdge schema.id descriptors) BTreeMap.empty
  let bound ← schema.inputs.foldlM (bindInterfaceInput schema.id descriptors) bound
  schema.outputs.forM (checkInterfaceOutput schema.id descriptors)
  let acyclic ← subgraphIsAcyclic schema
  reject (missesInput descriptors bound || !acyclic) (.invalidSubgraph schema.id)
  return schema

def registerSubgraph (blake3 : Blake3) (schema : SubgraphSchema) : Registering Unit := do
  let registry ← get
  let schema ← liftExcept (admitSubgraph blake3 registry schema)
  set { registry with subgraphs := registry.subgraphs.insert schema.id schema }

/-! ## Kernels -/

def KernelDescriptor.normalized (kernel : KernelDescriptor) : KernelDescriptor :=
  { kernel with
    inputLayouts := sortDedup kernel.inputLayouts
    outputLayouts := sortDedup kernel.outputLayouts }

def invalidConversion (kernel : KernelDescriptor) (conversion : LayoutConversion) : Bool :=
  conversion.maxInputBytes = 0
    || conversion.maxOutputBytes = 0
    || conversion.semanticType = ""
    || conversion.src = conversion.dst
    || !kernel.inputLayouts.contains conversion.src
    || !kernel.outputLayouts.contains conversion.dst
    || kernel.determinism ≠ .bitExact

/-- `register_kernel` up to the insertion: the kernel it would store. -/
def admitKernel (registry : KernelRegistry) (kernel : KernelDescriptor) :
    Outcome CompileError KernelDescriptor := do
  let kernel := kernel.normalized
  reject (registry.kernels.contains kernel.id) (.duplicateKernel kernel.id)
  reject (kernel.conversion.isSome ≠ kernel.implements.isEmpty
      || kernel.resources.threads = 0
      || kernel.conversion.any (invalidConversion kernel)) (.invalidKernelContract kernel.id)
  return kernel

def registerKernel (kernel : KernelDescriptor) : Registering Unit := do
  let registry ← get
  let kernel ← liftExcept (admitKernel registry kernel)
  set { registry with kernels := registry.kernels.insert kernel.id kernel }

/-! ## Calls -/

/-- One call of a `register_*` method. -/
inductive RegisterCall where
  | descriptor (descriptor : NodeDescriptor)
  | subgraph (schema : SubgraphSchema)
  | kernel (kernel : KernelDescriptor)

namespace RegisterCall

/-- The result of the call and the registry afterwards. -/
def run (blake3 : Blake3) (registry : KernelRegistry) :
    RegisterCall → Outcome CompileError Unit × KernelRegistry
  | .descriptor d => (registerDescriptor d).run.run registry
  | .subgraph s => (registerSubgraph blake3 s).run.run registry
  | .kernel k => (registerKernel k).run.run registry

end RegisterCall

/-- The registry after a sequence of calls, failed ones included. -/
def KernelRegistry.after (blake3 : Blake3) (calls : List RegisterCall) : KernelRegistry :=
  calls.foldl (fun registry call => (call.run blake3 registry).2) KernelRegistry.empty

/-- Some sequence of calls leads here from the empty registry. -/
def KernelRegistry.Reachable (blake3 : Blake3) (registry : KernelRegistry) : Prop :=
  ∃ calls, registry = KernelRegistry.after blake3 calls

/-! ## What one call does -/

/-- Checks that leave the state alone, and then one update. -/
theorem run_admit {α : Type} (check : KernelRegistry → Outcome CompileError α)
    (store : KernelRegistry → α → KernelRegistry) (registry : KernelRegistry) :
    (∃ fault, StateT.run (ExceptT.run (do
        let r ← get
        let a ← liftExcept (check r)
        set (store r a) : Registering Unit)) registry = (.error fault, registry)) ∨
    (∃ a, check registry = .ok a ∧ StateT.run (ExceptT.run (do
        let r ← get
        let a ← liftExcept (check r)
        set (store r a) : Registering Unit)) registry = (.ok (), store registry a)) := by
  cases h : check registry with
  | error fault =>
    left
    refine ⟨fault, ?_⟩
    show StateT.run (ExceptT.run (liftExcept (check registry) >>=
      fun a => (set (store registry a) : Registering Unit))) registry = _
    rw [h]
    rfl
  | ok a =>
    right
    refine ⟨a, rfl, ?_⟩
    show StateT.run (ExceptT.run (liftExcept (check registry) >>=
      fun a => (set (store registry a) : Registering Unit))) registry = _
    rw [h]
    rfl

/-- Everything a call can do to the registry. -/
theorem run_cases (blake3 : Blake3) (registry : KernelRegistry) (call : RegisterCall) :
    (∃ fault, call.run blake3 registry = (.error fault, registry)) ∨
    (∃ d stored, call = .descriptor d ∧ admitDescriptor registry d = .ok stored ∧
      call.run blake3 registry = (.ok (),
        { registry with descriptors := registry.descriptors.insert stored.key stored })) ∨
    (∃ s stored, call = .subgraph s ∧ admitSubgraph blake3 registry s = .ok stored ∧
      call.run blake3 registry = (.ok (),
        { registry with subgraphs := registry.subgraphs.insert stored.id stored })) ∨
    (∃ k stored, call = .kernel k ∧ admitKernel registry k = .ok stored ∧
      call.run blake3 registry = (.ok (),
        { registry with kernels := registry.kernels.insert stored.id stored })) := by
  cases call with
  | descriptor d =>
    rcases run_admit (fun r => admitDescriptor r d)
      (fun r stored => { r with descriptors := r.descriptors.insert stored.key stored }) registry
      with ⟨fault, hrun⟩ | ⟨stored, hadmit, hrun⟩
    · exact Or.inl ⟨fault, hrun⟩
    · exact Or.inr (Or.inl ⟨d, stored, rfl, hadmit, hrun⟩)
  | subgraph s =>
    rcases run_admit (fun r => admitSubgraph blake3 r s)
      (fun r stored => { r with subgraphs := r.subgraphs.insert stored.id stored }) registry
      with ⟨fault, hrun⟩ | ⟨stored, hadmit, hrun⟩
    · exact Or.inl ⟨fault, hrun⟩
    · exact Or.inr (Or.inr (Or.inl ⟨s, stored, rfl, hadmit, hrun⟩))
  | kernel k =>
    rcases run_admit (fun r => admitKernel r k)
      (fun r stored => { r with kernels := r.kernels.insert stored.id stored }) registry
      with ⟨fault, hrun⟩ | ⟨stored, hadmit, hrun⟩
    · exact Or.inl ⟨fault, hrun⟩
    · exact Or.inr (Or.inr (Or.inr ⟨k, stored, rfl, hadmit, hrun⟩))

theorem after_append (blake3 : Blake3) (calls : List RegisterCall) (call : RegisterCall) :
    KernelRegistry.after blake3 (calls ++ [call]) =
      (call.run blake3 (KernelRegistry.after blake3 calls)).2 := by
  unfold KernelRegistry.after
  rw [List.foldl_append]
  rfl

/-- A property of the empty registry that every admitted entry keeps holds of every
    reachable registry. -/
theorem KernelRegistry.Reachable.induct {blake3 : Blake3} {P : KernelRegistry → Prop}
    (hempty : P KernelRegistry.empty)
    (hdescriptor : ∀ registry d stored, registry.Reachable blake3 → P registry →
      admitDescriptor registry d = .ok stored →
      P { registry with descriptors := registry.descriptors.insert stored.key stored })
    (hsubgraph : ∀ registry s stored, registry.Reachable blake3 → P registry →
      admitSubgraph blake3 registry s = .ok stored →
      P { registry with subgraphs := registry.subgraphs.insert stored.id stored })
    (hkernel : ∀ registry k stored, registry.Reachable blake3 → P registry →
      admitKernel registry k = .ok stored →
      P { registry with kernels := registry.kernels.insert stored.id stored })
    {registry : KernelRegistry} (h : registry.Reachable blake3) : P registry := by
  obtain ⟨calls, rfl⟩ := h
  induction calls using List.reverseRecOn with
  | nil => exact hempty
  | append_singleton calls call ih =>
    rw [after_append]
    have hreach : (KernelRegistry.after blake3 calls).Reachable blake3 := ⟨calls, rfl⟩
    rcases run_cases blake3 (KernelRegistry.after blake3 calls) call with ⟨fault, hr⟩ |
      ⟨d, stored, -, ha, hr⟩ | ⟨s, stored, -, ha, hr⟩ | ⟨k, stored, -, ha, hr⟩ <;> rw [hr]
    · exact ih
    · exact hdescriptor _ d stored hreach ih ha
    · exact hsubgraph _ s stored hreach ih ha
    · exact hkernel _ k stored hreach ih ha

/-! ## The descriptors of the repository's pinned fixture -/

/-- A node of `tests/wire_stability.rs`: one output, and one input unless it is a source. -/
def fixtureDescriptor (name : String) (input : Bool) : NodeDescriptor :=
  { typeName := name
    version := 1
    inputs := if input then [PortDescriptor.opaqueBlob "in" "sample.block" 4096] else []
    outputs := [PortDescriptor.opaqueBlob "out" "sample.block" 4096]
    capabilities := ["sample"]
    targets := [Target.host, Target.mcuAot, Target.blutDurable]
    resources := ResourceEnvelope.bounded 4096 1024 1
    determinism := .bitExact
    config := { fields := [] }
    state := StateContract.stateless
    subgraph := none
    proof := { requires := [], provides := [name ++ ".verified"], invalidates := [] }
    policy := { requires := ["research"], adds := [] }
    fidelity := { minimumInput := 65000, maximumLoss := 0 }
    partiality := .atomic
    failure := { domains := [] }
    effect := .pure
    retryLimit := 0 }

/-- One `process` node behind an interface of the same port names. -/
def processSchema : SubgraphSchema :=
  { id := ⟨[107, 122, 225, 108, 104, 203, 208, 241, 73, 139, 83, 44, 146, 107, 54, 230, 72, 204,
      214, 244, 227, 61, 115, 50, 159, 164, 143, 176, 117, 55, 93, 41], rfl⟩
    version := 1
    nodes :=
      [{ id := 0
         nodeType := { typeName := "process", version := 1 }
         config := BTreeMap.empty
         child := none }]
    edges := []
    inputs := [{ name := "in", inner := { node := 0, port := "in" } }]
    outputs := [{ name := "out", inner := { node := 0, port := "out" } }] }

/-- BLAKE3 on the one text that runs with `processSchema` feed to it, the preimage of the schema. -/
def processBlake3 : Blake3 := fun _ _ => processSchema.id

end Blut.GraphCore
