/-
  Authorised plans (`compile.rs`: `KernelRegistry::decode_authorized_plan`).

  A decoded plan becomes executable when every step is one that the registry's kernel and
  descriptors describe. `Authorized` says where an `AuthorizedPlan` can come from: the compiler,
  or this check; both leave a disciplined plan (`Authorized.disciplined`).
-/
import Blut.GraphCore.Compiled
import Blut.GraphCore.Accepted

namespace Blut.GraphCore

open Blut.Lib

/-- The step does not run what its kernel is registered for. -/
def kernelForged (target : Target) (kernel : KernelDescriptor) (node : CompiledNode) : Bool :=
  kernel.target ≠ target
    || kernel.implements ≠ node.semanticTypes
    || kernel.implementationId ≠ node.implementationId
    || kernel.conversion ≠ node.conversion
    || kernel.resources ≠ node.resources
    || kernel.determinism ≠ node.determinism
    || kernel.lowering ≠ node.lowering

def conversionForged (kernel : KernelDescriptor) (node : CompiledNode)
    (conversion : LayoutConversion) : Bool :=
  !kernel.implements.isEmpty
    || node.inputPorts ≠ ["input"]
    || node.outputPorts ≠ ["output"]
    || (match node.inputContracts, node.outputContracts with
      | [input], [output] => !conversionContractsMatch input output conversion
      | _, _ => true)
    || node.partiality ≠ .atomic
    || !node.failure.domains.isEmpty
    || node.state ≠ StateContract.stateless
    || !node.subgraphPath.isEmpty

/-- A configuration that is not its own canonical form. -/
def configForged (descriptor : NodeDescriptor) (config : Config) : Bool :=
  match descriptor.config.canonicalize config with
  | .ok canonical => canonical ≠ config
  | .error _ => true

/-- An input that may not be left open, or an invocation port of another input. -/
def bindingForged (plan : CompiledPlan) (node : CompiledNode) (port : PortDescriptor)
    (binding : InputBinding) : Bool :=
  (!port.optional && binding = .absent)
    || match binding with
      | .invocation invocation => !plan.invocationPorts[invocation]?.any fun found =>
          some found.node = node.semanticNodes.head? && found.port = port.name
      | _ => false

/-- The step's ports are not those of the ends of its chain. -/
def portsForged (plan : CompiledPlan) (kernel : KernelDescriptor) (node : CompiledNode)
    (descriptors : List NodeDescriptor) (first last : NodeDescriptor) : Bool :=
  descriptors.any (fun descriptor => kernel.determinism.ordinal > descriptor.determinism.ordinal)
    || !fusedLayoutsCompatible first last kernel
    || node.inputBindings.length ≠ first.inputs.length
    || node.outputBindings.length ≠ last.outputs.length
    || node.inputPorts ≠ first.inputs.map PortDescriptor.name
    || node.inputContracts.length ≠ first.inputs.length
    || node.outputContracts.length ≠ last.outputs.length
    || node.inputContracts.any (fun contract => !kernel.inputLayouts.contains contract.layout)
    || node.outputContracts.any (fun contract => !kernel.outputLayouts.contains contract.layout)
    || (node.inputContracts.zip first.inputs).any (fun (compiled, port) =>
      !compiledPortMatches compiled port)
    || (node.outputContracts.zip last.outputs).any (fun (compiled, port) =>
      !compiledPortMatches compiled port)
    || node.outputPorts ≠ last.outputs.map PortDescriptor.name
    || (first.inputs.zip node.inputBindings).any (fun (port, binding) =>
      bindingForged plan node port binding)

/-- A step of one node is not as its descriptor says. -/
def singleForged (node : CompiledNode) (descriptor : NodeDescriptor) : Bool :=
  node.effect ≠ descriptor.effect
    || node.retryLimit ≠ descriptor.retryLimit
    || node.state ≠ descriptor.state
    || node.subgraphPath ≠ (descriptor.subgraph.map SubgraphLowering.subgraph).toList
    || node.partiality ≠ descriptor.partiality
    || node.failure ≠ descriptor.failure

/-- `failure_domain_union` of descriptors. -/
def descriptorDomains (descriptors : List NodeDescriptor) : List String :=
  sortDedup (descriptors.flatMap fun descriptor => descriptor.failure.domains)

/-- A step of several nodes that may not be fused, or is not as a fused step is. -/
def fusedForged (node : CompiledNode) (descriptors : List NodeDescriptor) : Bool :=
  node.effect ≠ .pure
    || node.retryLimit ≠ 0
    || node.state ≠ StateContract.stateless
    || !node.subgraphPath.isEmpty
    || node.partiality ≠ .atomic
    || node.failure.domains ≠ descriptorDomains descriptors
    || descriptors.any (fun descriptor =>
      descriptor.effect ≠ .pure
        || descriptor.state.scope ≠ .stateless
        || descriptor.retryLimit ≠ 0
        || descriptor.state.checkpointable
        || descriptor.partiality ≠ .atomic
        || descriptor.subgraph.isSome)

/-- The hierarchy behind a step of one node. -/
def authorizeSubgraph (registry : KernelRegistry) (limits : PlanLimits)
    (descriptor : NodeDescriptor) : Outcome PlanDecodeError Unit :=
  match descriptor.subgraph with
  | none => .ok ()
  | some lowering => do
    mapErr (fun _ => .unauthorizedPlan) (validateSubgraphPath registry.subgraphs lowering.subgraph
      limits.maxSubgraphDepth limits.maxContractEntries)
    mapErr (fun _ => .unauthorizedPlan) (validateSubgraphLowering descriptor lowering
      registry.subgraphs registry.descriptors)

/-- A step that runs nodes of the graph. -/
def authorizeSemantic (registry : KernelRegistry) (limits : PlanLimits) (plan : CompiledPlan)
    (kernel : KernelDescriptor) (node : CompiledNode) : Outcome PlanDecodeError Unit := do
  let descriptors ← node.semanticTypes.mapM fun semanticType =>
    okOr (registry.descriptors.get? semanticType.key) .unauthorizedPlan
  let first ← okOr descriptors.head? .unauthorizedPlan
  let last ← okOr descriptors.getLast? .unauthorizedPlan
  reject ((descriptors.zip node.semanticConfigs).any fun (descriptor, config) =>
    configForged descriptor config) .unauthorizedPlan
  reject (portsForged plan kernel node descriptors first last) .unauthorizedPlan
  if descriptors.length = 1 then do
    reject (singleForged node first) .unauthorizedPlan
    authorizeSubgraph registry limits first
  else
    reject (fusedForged node descriptors) .unauthorizedPlan

def authorizeNode (registry : KernelRegistry) (limits : PlanLimits) (plan : CompiledPlan)
    (node : CompiledNode) : Outcome PlanDecodeError Unit := do
  let kernel ← okOr (registry.kernels.get? node.kernel) .unauthorizedPlan
  reject (kernelForged plan.realm.target kernel node) .unauthorizedPlan
  match node.conversion with
  | some conversion => reject (conversionForged kernel node conversion) .unauthorizedPlan
  | none => authorizeSemantic registry limits plan kernel node

/-- `decode_authorized_plan`. -/
def decodeAuthorizedPlan (blake3 : Blake3) (postcard : Postcard) (registry : KernelRegistry)
    (bytes : List Byte) (limits : PlanLimits) (authorization : PlanAuthorization) :
    Outcome PlanDecodeError AuthorizedPlan := do
  let plan ← fromAuthorizedAotBytes blake3 postcard bytes limits authorization
  plan.nodes.forM (authorizeNode registry limits plan)
  return { plan := plan }

/-! ## Authorised plans -/

variable {postcard : Postcard} {limits : PlanLimits} {bytes : List Byte}

/-- Where an `AuthorizedPlan` comes from. -/
inductive Authorized (blake3 : Blake3) : AuthorizedPlan → Prop where
  | compiled {compiler : Compiler} {graph : Graph} {authorized : AuthorizedPlan} :
      compile blake3 compiler graph = .ok authorized → Authorized blake3 authorized
  | decoded {postcard : Postcard} {registry : KernelRegistry} {bytes : List Byte}
      {limits : PlanLimits} {authorization : PlanAuthorization} {authorized : AuthorizedPlan} :
      decodeAuthorizedPlan blake3 postcard registry bytes limits authorization = .ok authorized →
      Authorized blake3 authorized

variable {blake3 : Blake3} {authorized : AuthorizedPlan}

theorem fromAotBytes_ok {plan : CompiledPlan}
    (h : fromAotBytes blake3 postcard bytes limits = .ok plan) :
    plan.validate blake3 limits = .ok () := by
  simp only [fromAotBytes, bind_eq_ok, Prod.exists] at h
  obtain ⟨_, -, body, -, found, remainder, -, _, -, _, hvalid, h⟩ := h
  rw [← Except.ok.inj h]
  exact hvalid

theorem decodeAuthorizedPlan_ok {registry : KernelRegistry} {authorization : PlanAuthorization}
    (h : decodeAuthorizedPlan blake3 postcard registry bytes limits authorization =
      .ok authorized) :
    authorized.plan.validate blake3 limits = .ok () := by
  simp only [decodeAuthorizedPlan, fromAuthorizedAotBytes, bind_eq_ok] at h
  obtain ⟨plan, ⟨found, hfound, _, -, _, -, hplan⟩, _, -, h⟩ := h
  rw [← Except.ok.inj h]
  have heq : found = plan := Except.ok.inj hplan
  subst heq
  exact fromAotBytes_ok hfound

theorem inputAt_mem {nodes : List CompiledNode} {loc : Nat × Nat} {binding : InputBinding}
    (h : inputAt nodes loc = some binding) : ∃ node ∈ nodes, binding ∈ node.inputBindings := by
  obtain ⟨node, hnode, hget⟩ := Option.bind_eq_some_iff.mp h
  exact ⟨node, List.mem_of_getElem? hnode, List.mem_of_getElem? hget⟩

theorem Authorized.disciplined (h : Authorized blake3 authorized) :
    Disciplined authorized.plan.nodes authorized.plan.buffers := by
  cases h with
  | compiled hcompile => exact compile_disciplined hcompile
  | decoded hdecode =>
    obtain ⟨bufferBytes, scan, hvalid⟩ := validate_ok (decodeAuthorizedPlan_ok hdecode)
    exact hvalid.disciplined

/-- A plan whose inputs are all bound to buffers has neither feedback nor invocation ports. -/
theorem Authorized.closed (h : Authorized blake3 authorized)
    (hbuffers : ∀ node ∈ authorized.plan.nodes, ∀ binding ∈ node.inputBindings,
      ∃ b, binding = .buffer b) :
    authorized.plan.feedback = [] ∧ authorized.plan.invocationPorts = [] := by
  have hfree : ∀ binding, (∀ b, binding ≠ .buffer b) →
      ¬ ∃ node ∈ authorized.plan.nodes, binding ∈ node.inputBindings := by
    rintro binding hne ⟨node, hnode, hmem⟩
    obtain ⟨b, rfl⟩ := hbuffers node hnode binding hmem
    exact hne b rfl
  have hfeedback : ∀ loc f, inputAt authorized.plan.nodes loc ≠ some (.feedback f) :=
    fun loc f hloc =>
    hfree (.feedback f) (fun b hb => nomatch hb) (inputAt_mem hloc)
  have hports : ∀ loc k, inputAt authorized.plan.nodes loc ≠ some (.invocation k) :=
    fun loc k hloc =>
    hfree (.invocation k) (fun b hb => nomatch hb) (inputAt_mem hloc)
  cases h with
  | compiled hcompile =>
    obtain ⟨graph', descriptors, lowered, feedback, hfrom⟩ := compile_origin hcompile
    exact ⟨hfrom.feedback_eq_nil hfeedback, hfrom.ports_eq_nil hfeedback hports⟩
  | decoded hdecode =>
    obtain ⟨bufferBytes, scan, hvalid⟩ := validate_ok (decodeAuthorizedPlan_ok hdecode)
    refine ⟨hvalid.feedback_eq_nil fun node hnode f hmem => ?_,
      hvalid.ports_eq_nil fun node hnode k hmem => ?_⟩
    · exact hfree (.feedback f) (fun b hb => nomatch hb) ⟨node, hnode, hmem⟩
    · exact hfree (.invocation k) (fun b hb => nomatch hb) ⟨node, hnode, hmem⟩

end Blut.GraphCore
