/-
  Ahead-of-time plans on the wire (`wire.rs`: `CompiledPlan::from_aot_bytes`).

  The serialisation is a parameter (`Postcard`). Everything the decoder checks on the plan it
  reads is `CompiledPlan.validate`, one definition per loop of the source and in its order; the
  indexing of the source stands behind the checks of the same condition and is a lookup here.
-/
import Blut.GraphCore.Discipline
import Blut.GraphCore.Compile

namespace Blut.GraphCore

open Blut.Lib

structure PlanLimits where
  maxBytes : Nat
  maxNodes : Nat
  maxBuffers : Nat
  maxContractEntries : Nat
  maxPeakBytes : Nat
  maxPersistentStateBytes : Nat
  maxFeedbackEdges : Nat
  maxSubgraphDepth : Nat
  deriving DecidableEq

structure PlanAuthorization where
  expectedRealm : ExecutionRealm
  expectedPlanId : PlanId

inductive PlanDecodeError where
  | tooLarge
  | badMagic
  | malformed
  | unsupportedSchema (version : Nat)
  | limitExceeded
  | resourceLimitExceeded
  | identityMismatch
  | invalidBuffer
  | invalidPlan
  | realmMismatch
  | unknownToken
  | unauthorizedPlan
  deriving DecidableEq

/-! ## Tokens and tables -/

/-- `contract_entry_count`. -/
def contractEntryCount (port : CompiledPortContract) : Option Nat := do
  let count ← checkedAdd 0 port.proof.requires.length
  let count ← checkedAdd count port.proof.provides.length
  let count ← checkedAdd count port.proof.invalidates.length
  let count ← checkedAdd count port.policy.requires.length
  let count ← checkedAdd count port.policy.adds.length
  checkedAdd count port.extent.maximumShape.length

def unknownLayouts (node : CompiledNode) : Bool :=
  (node.inputContracts ++ node.outputContracts).any (fun contract => !contract.layout.isKnown)
    || node.conversion.any fun conversion => !conversion.src.isKnown || !conversion.dst.isKnown

/-- Strictly ascending, as the tables of a plan are. -/
def unsorted {κ : Type} [LinearOrder κ] (xs : List κ) : Bool :=
    windowsAny (fun a b => decide (a ≥ b)) xs

/-- The checks on the tokens, the sizes and the tables of names. -/
def checkTables (limits : PlanLimits) (plan : CompiledPlan) : Outcome PlanDecodeError Unit := do
  reject (plan.schemaVersion ≠ 3) (.unsupportedSchema plan.schemaVersion)
  reject (!plan.realm.isKnown) .unknownToken
  reject (plan.buffers.any fun buffer => !buffer.layout.isKnown) .unknownToken
  reject (plan.nodes.any unknownLayouts) .unknownToken
  reject (plan.nodes.length > limits.maxNodes
    || plan.order.length > limits.maxNodes
    || plan.buffers.length > limits.maxBuffers
    || plan.invocationPorts.length > limits.maxContractEntries
    || plan.propagatedProofs.length > limits.maxContractEntries
    || plan.propagatedPolicy.length > limits.maxContractEntries
    || plan.feedback.length > limits.maxFeedbackEdges) .limitExceeded
  reject (unsorted plan.invocationPorts
    || unsorted plan.propagatedProofs
    || unsorted plan.propagatedPolicy
    || plan.propagatedProofs.any (fun entry => entry = "")
    || plan.propagatedPolicy.any (fun entry => entry = "")) .invalidPlan
  reject (plan.peakBytes > limits.maxPeakBytes
    || plan.persistentStateBytes > limits.maxPersistentStateBytes) .resourceLimitExceeded
  reject (plan.order.isEmpty || plan.nodes.isEmpty) .invalidPlan
  reject (hasDuplicates plan.order
    || plan.nodes.flatMap CompiledNode.semanticNodes ≠ plan.order) .invalidPlan

/-! ## Buffers -/

/-- The slot of another buffer does not fit. -/
def invalidAlias (plan : CompiledPlan) (buffer : BufferPlan) (slot : BufferId) : Bool :=
  slot ≥ buffer.id || !plan.buffers[slot]?.any fun root =>
    root.aliases.isNone && root.layout = buffer.layout && root.capacityBytes ≥ buffer.capacityBytes

def invalidBuffer (plan : CompiledPlan) (index : Nat) (buffer : BufferPlan) : Bool :=
  buffer.id ≠ index
    || buffer.capacityBytes = 0
    || buffer.consumers.isEmpty
    || !buffer.consumers.contains buffer.lastConsumer
    || buffer.producer ≥ plan.nodes.length
    || buffer.consumers.any (fun consumer => consumer ≥ plan.nodes.length)
    || hasDuplicates buffer.consumers
    || unsorted buffer.consumers
    || buffer.consumers.max? ≠ some buffer.lastConsumer
    || buffer.consumers.any (fun consumer => consumer ≤ buffer.producer)
    || !plan.nodes[buffer.producer]?.any (fun node =>
      node.outputBindings.contains (.buffer buffer.id))
    || buffer.consumers.any (fun consumer => !plan.nodes[consumer]?.any fun node =>
      node.inputBindings.contains (.buffer buffer.id))
    || buffer.aliases.any (invalidAlias plan buffer)

/-- The bytes of the slots, while every buffer is checked. -/
def checkBuffers (plan : CompiledPlan) : Outcome PlanDecodeError Nat :=
  plan.buffers.zipIdx.foldlM (fun bytes (buffer, index) => do
    reject (invalidBuffer plan index buffer) .invalidBuffer
    if buffer.aliases.isNone then
      okOr (checkedAdd bytes buffer.capacityBytes) .resourceLimitExceeded
    else return bytes) 0

/-- The steps at which a slot is in use, in order. -/
def intervals (buffers : List BufferPlan) : List (Nat × Nat) :=
  sortBy (fun interval => (toLex interval : Nat ×ₗ Nat))
    (buffers.map fun buffer => (buffer.producer, buffer.lastConsumer))

def checkAliases (plan : CompiledPlan) : Outcome PlanDecodeError Unit :=
  (BTreeMap.groupOn BufferPlan.root plan.buffers).values.forM fun buffers =>
    reject (windowsAny (fun a b => decide (a.2 ≥ b.1)) (intervals buffers)) .invalidBuffer

/-! ## Steps -/

/-- What the loop over the steps adds up. -/
structure NodeScan where
  workspaceBytes : Nat
  failureEntries : Nat
  usedInvocations : BTreeSet Nat
  usedFeedback : BTreeSet FeedbackId
  stateBytes : Nat

def NodeScan.start : NodeScan :=
  { workspaceBytes := 0
    failureEntries := 0
    usedInvocations := BTreeMap.empty
    usedFeedback := BTreeMap.empty
    stateBytes := 0 }

/-- The names, configurations and contracts of a step, counted. -/
def countEntries (node : CompiledNode) (count : Nat) : Option Nat := do
  let count ← checkedAdd count node.failure.domains.length
  let count ← node.semanticConfigs.foldlM (fun count config => checkedAdd count config.size) count
  let count ← (node.inputContracts ++ node.outputContracts).foldlM (fun count port => do
    let entries ← contractEntryCount port
    checkedAdd count entries) count
  checkedAdd count node.subgraphPath.length

/-- A number that may be used once. -/
def useOnce (used : BTreeSet Nat) (number : Nat) : Outcome PlanDecodeError (BTreeSet Nat) := do
  reject (used.contains number) .invalidPlan
  return BTreeSet.add used number

def InputBinding.invocation? : InputBinding → Option Nat
  | .invocation port => some port
  | _ => none

def InputBinding.feedback? : InputBinding → Option FeedbackId
  | .feedback id => some id
  | _ => none

/-- Names that do not fit the contracts, or contracts that are not valid. -/
def invalidPortContracts (names : List String) (contracts : List CompiledPortContract) : Bool :=
  (names.zip contracts).any fun (name, contract) =>
    name ≠ contract.name || !validCompiledPort contract

def invalidInputBuffer (plan : CompiledPlan) (binding : InputBinding)
    (contract : CompiledPortContract) : Bool :=
  match binding with
  | .buffer id => !plan.buffers[id]?.any fun buffer =>
      contract.layout = buffer.layout && buffer.capacityBytes ≤ contract.maxBytes
  | _ => false

def invalidOutputBuffer (plan : CompiledPlan) (binding : OutputBinding)
    (contract : CompiledPortContract) : Bool :=
  match binding with
  | .buffer id => !plan.buffers[id]?.any fun buffer =>
      contract.layout = buffer.layout && buffer.capacityBytes = contract.maxBytes
  | .terminal => false

/-- What a conversion step may not be. -/
def invalidConversionStep (node : CompiledNode) : Bool :=
  node.inputBindings.length ≠ 1
    || node.outputBindings.length ≠ 1
    || node.inputPorts ≠ ["input"]
    || node.outputPorts ≠ ["output"]
    || node.inputBindings.contains .absent
    || node.inputBindings.any (fun binding => binding.feedback?.isSome)
    || node.outputBindings.contains .terminal
    || node.partiality ≠ .atomic
    || !node.failure.domains.isEmpty
    || node.effect ≠ .pure
    || node.retryLimit ≠ 0
    || node.state ≠ StateContract.stateless
    || !node.subgraphPath.isEmpty

def invalidNode (limits : PlanLimits) (plan : CompiledPlan) (index : Nat) (node : CompiledNode) :
    Bool :=
  node.id ≠ index
    || node.conversion.isSome ≠ node.semanticNodes.isEmpty
    || node.semanticNodes.length ≠ node.semanticTypes.length
    || node.semanticNodes.length ≠ node.semanticConfigs.length
    || node.inputPorts.length ≠ node.inputBindings.length
    || node.outputPorts.length ≠ node.outputBindings.length
    || node.inputContracts.length ≠ node.inputBindings.length
    || node.outputContracts.length ≠ node.outputBindings.length
    || invalidPortContracts node.inputPorts node.inputContracts
    || invalidPortContracts node.outputPorts node.outputContracts
    || node.inputPorts.any (fun port => port = "")
    || node.outputPorts.any (fun port => port = "")
    || hasDuplicates node.inputPorts
    || hasDuplicates node.outputPorts
    || node.inputBindings.any (fun binding =>
      binding.buffer?.any fun buffer => buffer ≥ plan.buffers.length)
    || node.inputBindings.any (fun binding =>
      binding.invocation?.any fun port => port ≥ plan.invocationPorts.length)
    || node.inputBindings.any (fun binding =>
      binding.feedback?.any fun feedback => feedback ≥ plan.feedback.length)
    || (node.inputBindings.zip node.inputContracts).any (fun (binding, contract) =>
      invalidInputBuffer plan binding contract)
    || node.outputBindings.any (fun binding =>
      binding.buffer?.any fun buffer => buffer ≥ plan.buffers.length)
    || (node.outputBindings.zip node.outputContracts).any (fun (binding, contract) =>
      invalidOutputBuffer plan binding contract)
    || node.resources.threads = 0
    || node.failure.domains.any (fun domain => domain = "")
    || unsorted node.failure.domains
    || (node.partiality = .explicitGaps && node.failure.domains.isEmpty)
    || (node.effect = .atMostOnce && node.retryLimit > 0)
    || !validStateContract node.state
    || node.subgraphPath.length > limits.maxSubgraphDepth
    || node.inputBindings.any (fun binding => binding.buffer?.any fun buffer =>
      !plan.buffers[buffer]?.any fun found => found.consumers.contains node.id)
    || node.outputBindings.any (fun binding => binding.buffer?.any fun buffer =>
      !plan.buffers[buffer]?.any fun found => found.producer = node.id)
    || (node.conversion.isSome && invalidConversionStep node)

/-- The buffers of a conversion step against its conversion. -/
def conversionFits (plan : CompiledPlan) (node : CompiledNode) (conversion : LayoutConversion) :
    Bool :=
  match node.inputBindings, node.outputBindings, node.inputContracts, node.outputContracts with
  | .buffer input :: _, .buffer output :: _, inputContract :: _, outputContract :: _ =>
    match plan.buffers[input]?, plan.buffers[output]? with
    | some input, some output =>
      input.layout = conversion.src
        && output.layout = conversion.dst
        && input.capacityBytes ≤ conversion.maxInputBytes
        && output.capacityBytes ≤ conversion.maxOutputBytes
        && inputContract.semanticType = conversion.semanticType
        && outputContract.semanticType = conversion.semanticType
        && inputContract.layout = conversion.src
        && outputContract.layout = conversion.dst
        && inputContract.maxBytes = input.capacityBytes
        && outputContract.maxBytes = output.capacityBytes
    | _, _ => false
  | _, _, _, _ => false

/-- The state that outlives an invocation. -/
def CompiledNode.persists (node : CompiledNode) : Bool :=
  node.state.scope = .session || node.state.scope = .durable

/-- The persistent bytes with those of one more step. -/
def addStateBytes (node : CompiledNode) (bytes : Nat) : Outcome PlanDecodeError Nat :=
  if node.persists then okOr (checkedAdd bytes node.state.maxBytes) .resourceLimitExceeded
  else .ok bytes

/-- The bytes a step needs while it runs. -/
def nodeWorkspace (node : CompiledNode) : Outcome PlanDecodeError Nat := do
  let workspace ← okOr (checkedAdd node.resources.peakBytes node.resources.scratchBytes)
    .resourceLimitExceeded
  if node.state.scope = .invocation then
    okOr (checkedAdd workspace node.state.maxBytes) .resourceLimitExceeded
  else
    return workspace

/-- One round of the loop over the steps. -/
def scanNode (limits : PlanLimits) (plan : CompiledPlan) (scan : NodeScan)
    (entry : CompiledNode × Nat) : Outcome PlanDecodeError NodeScan := do
  let node := entry.1
  let failureEntries ← okOr (countEntries node scan.failureEntries) .limitExceeded
  let usedInvocations ← (node.inputBindings.filterMap InputBinding.invocation?).foldlM useOnce
    scan.usedInvocations
  let usedFeedback ← (node.inputBindings.filterMap InputBinding.feedback?).foldlM useOnce
    scan.usedFeedback
  reject (invalidNode limits plan entry.2 node) .invalidPlan
  let stateBytes ← addStateBytes node scan.stateBytes
  reject (node.conversion.any fun conversion => !conversionFits plan node conversion) .invalidPlan
  let workspace ← nodeWorkspace node
  return {
    workspaceBytes := max scan.workspaceBytes workspace
    failureEntries := failureEntries
    usedInvocations := usedInvocations
    usedFeedback := usedFeedback
    stateBytes := stateBytes }

def scanNodes (limits : PlanLimits) (plan : CompiledPlan) : Outcome PlanDecodeError NodeScan :=
  plan.nodes.zipIdx.foldlM (scanNode limits plan) NodeScan.start

/-! ## Edges -/

/-- The contracts at the two ends of a buffer. -/
def invalidConsumer (plan : CompiledPlan) (buffer : BufferPlan) (contract : CompiledPortContract)
    (consumer : StepId) : Bool :=
  !plan.nodes[consumer]?.any fun node =>
    node.inputBindings.contains (.buffer buffer.id)
      && node.inputBindings.zipIdx.all fun (binding, port) =>
        binding ≠ .buffer buffer.id || node.inputContracts[port]?.any fun input =>
          compiledPortContractSatisfies contract input

def checkContracts (plan : CompiledPlan) (buffer : BufferPlan) : Outcome PlanDecodeError Unit := do
  let producer ← expect plan.nodes[buffer.producer]?
  let contract ← okOr ((producer.outputBindings.findIdx? fun binding =>
    binding = .buffer buffer.id).bind fun port => producer.outputContracts[port]?) .invalidPlan
  buffer.consumers.forM fun consumer =>
    reject (invalidConsumer plan buffer contract consumer) .invalidPlan

/-- The contracts at the two ends of a feedback edge. -/
def FeedbackPlan.output (plan : CompiledPlan) (feedback : FeedbackPlan) :
    Option CompiledPortContract :=
  plan.nodes[feedback.fromStep]?.bind fun node => node.outputContracts[feedback.fromPort]?

def FeedbackPlan.input (plan : CompiledPlan) (feedback : FeedbackPlan) :
    Option CompiledPortContract :=
  plan.nodes[feedback.toStep]?.bind fun node => node.inputContracts[feedback.toPort]?

def validFeedback (plan : CompiledPlan) (index : Nat) (feedback : FeedbackPlan) : Bool :=
  match feedback.output plan, feedback.input plan with
  | some output, some input =>
    feedback.id = index
      && feedback.delay.invocations ≠ 0
      && feedback.stateBytes ≠ 0
      && (feedback.delay.initial ≠ .absent || input.optional)
      && inputAt plan.nodes (feedback.toStep, feedback.toPort) = some (.feedback feedback.id)
      && checkedMul output.maxBytes feedback.delay.invocations = some feedback.stateBytes
      && compiledPortContractSatisfies output input
  | _, _ => false

/-- The bytes of the feedback edges on top of those of the steps. -/
def checkFeedback (plan : CompiledPlan) (stateBytes : Nat) : Outcome PlanDecodeError Nat :=
  plan.feedback.zipIdx.foldlM (fun bytes (feedback, index) => do
    reject (!validFeedback plan index feedback) .invalidPlan
    okOr (checkedAdd bytes feedback.stateBytes) .resourceLimitExceeded) stateBytes

/-- How often every buffer is written. The counters are bytes. -/
def countProduced (plan : CompiledPlan) : Outcome PlanDecodeError (List Nat) :=
  (plan.nodes.flatMap CompiledNode.outputBindings).foldlM (fun counts binding =>
    match binding with
    | .terminal => .ok counts
    | .buffer id => do
      let count ← expect counts[id]?
      reject (count + 1 ≥ 256) .invalidBuffer
      return counts.set id (count + 1)) (List.replicate plan.buffers.length 0)

/-! ## The whole decoder -/

/-- Everything `from_aot_bytes` asks of the plan it has read. -/
def CompiledPlan.validate (blake3 : Blake3) (limits : PlanLimits) (plan : CompiledPlan) :
    Outcome PlanDecodeError Unit := do
  checkTables limits plan
  let bufferBytes ← checkBuffers plan
  checkAliases plan
  let scan ← scanNodes limits plan
  reject (scan.failureEntries > limits.maxContractEntries) .limitExceeded
  reject (scan.usedInvocations.toList ≠ List.range plan.invocationPorts.length) .invalidPlan
  reject (scan.usedFeedback.toList ≠ List.range plan.feedback.length) .invalidPlan
  plan.buffers.forM (checkContracts plan)
  let stateBytes ← checkFeedback plan scan.stateBytes
  reject (stateBytes ≠ plan.persistentStateBytes
    || (!plan.feedback.isEmpty && plan.session.isNone)
    || plan.session.any invalidSessionContract
    || plan.nodes.any (fun node => node.persists && plan.session.isNone)) .invalidPlan
  let produced ← countProduced plan
  reject (produced.any fun count => count ≠ 1) .invalidBuffer
  let expectedPeak ← okOr (checkedAdd bufferBytes scan.workspaceBytes) .resourceLimitExceeded
  reject (plan.peakBytes ≠ expectedPeak) .resourceLimitExceeded
  reject (plan.planId ≠ hashPlan blake3 plan) .identityMismatch

/-- `postcard::take_from_bytes`. -/
structure Postcard where
  decode : List Byte → Option (CompiledPlan × List Byte)

/-- `b"BGP3"`. -/
def magic : List Byte := [66, 71, 80, 51]

def fromAotBytes (blake3 : Blake3) (postcard : Postcard) (bytes : List Byte) (limits : PlanLimits) :
    Outcome PlanDecodeError CompiledPlan := do
  reject (bytes.length > limits.maxBytes) .tooLarge
  let body ← okOr (bytes.dropPrefix? magic) .badMagic
  let (plan, remainder) ← okOr (postcard.decode body) .malformed
  reject (!remainder.isEmpty) .malformed
  plan.validate blake3 limits
  return plan

/-- `from_authorized_aot_bytes`. -/
def fromAuthorizedAotBytes (blake3 : Blake3) (postcard : Postcard) (bytes : List Byte)
    (limits : PlanLimits) (authorization : PlanAuthorization) :
    Outcome PlanDecodeError CompiledPlan := do
  let plan ← fromAotBytes blake3 postcard bytes limits
  reject (plan.realm ≠ authorization.expectedRealm) .realmMismatch
  reject (plan.planId ≠ authorization.expectedPlanId) .unauthorizedPlan
  return plan

end Blut.GraphCore
