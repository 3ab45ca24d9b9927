/-
  Port and state contracts (`compile.rs`, `wire.rs`): normal form, validity, and when an
  output may feed an input.

  A compiled port is read through `CompiledPortContract.descriptor`, as `valid_compiled_port`
  does, so the two satisfaction checks of the source share one definition here.
-/
import Blut.GraphCore.Model

namespace Blut.GraphCore

open Blut.Lib

/-! ## Normal form -/

def ProofContract.normalized (proof : ProofContract) : ProofContract :=
  { requires := sortDedup proof.requires
    provides := sortDedup proof.provides
    invalidates := sortDedup proof.invalidates }

def PolicyContract.normalized (policy : PolicyContract) : PolicyContract :=
  { requires := sortDedup policy.requires, adds := sortDedup policy.adds }

/-- A port's layouts and contract lists (`normalize_contract`) sorted without repetition. -/
def PortDescriptor.normalized (port : PortDescriptor) : PortDescriptor :=
  { port with
    layouts := sortDedup port.layouts
    proof := port.proof.normalized
    policy := port.policy.normalized }

/-! ## Validity -/

def validContractNames (proof : ProofContract) (policy : PolicyContract) : Bool :=
  (proof.requires ++ proof.provides ++ proof.invalidates ++ policy.requires ++ policy.adds).all
    fun name => name ≠ ""

/-- `maximum_shape.iter().try_fold(1, checked_mul)`. -/
def ExtentContract.shapeProduct (extent : ExtentContract) : Option Nat :=
  extent.maximumShape.foldlM checkedMul 1

def validPortContract (port : PortDescriptor) : Bool :=
  let extent := port.extent
  if extent.maximumShape.length ≠ extent.rank || extent.maxElements = 0
      || extent.maximumShape.contains 0 then
    false
  else if extent.shapeProduct.all (fun product => product > extent.maxElements) then
    false
  else if port.lease.access = .exclusiveWrite && port.lease.lifetime = .session then
    false
  else
    validContractNames port.proof port.policy && port.domain.root ≠ "" && port.domain.view ≠ ""

def CheckpointContract.none (checkpoint : CheckpointContract) : Bool :=
  checkpoint.maxSnapshotBytes = 0 && checkpoint.maxIntervalInvocations = 0

/-- A snapshot that fits in the state, taken at a positive interval. -/
def CheckpointContract.boundedBy (checkpoint : CheckpointContract) (maxBytes : Nat) : Bool :=
  checkpoint.maxSnapshotBytes > 0 && checkpoint.maxSnapshotBytes ≤ maxBytes
    && checkpoint.maxIntervalInvocations > 0

def validStateContract (state : StateContract) : Bool :=
  match state.scope with
  | .stateless =>
    state.maxBytes = 0 && state.checkpoint.mode = .disabled && state.checkpoint.none
  | .invocation =>
    state.maxBytes > 0 && state.checkpoint.mode = .disabled && state.checkpoint.none
  | .session =>
    state.maxBytes > 0 &&
      (match state.checkpoint.mode with
      | .disabled => state.checkpoint.none
      | .optional | .required => state.checkpoint.boundedBy state.maxBytes)
  | .durable =>
    state.maxBytes > 0 && state.checkpoint.mode = .required
      && state.checkpoint.boundedBy state.maxBytes

/-! ## Satisfaction -/

/-- The output port may feed the input port. Neither names nor layouts are compared. -/
def portContractSatisfies (output input : PortDescriptor) : Bool :=
  output.semanticType = input.semanticType
    && output.domain = input.domain
    && (!output.optional || input.optional)
    && output.maxBytes ≤ input.maxBytes
    && output.extent.rank = input.extent.rank
    && output.extent.maxElements ≤ input.extent.maxElements
    && (output.extent.maximumShape.zip input.extent.maximumShape).all (fun (actual, maximum) =>
      actual ≤ maximum)
    && (!output.extent.ragged || input.extent.ragged)
    && (!output.extent.sparse || input.extent.sparse)
    && input.proof.requires.all (fun required => output.proof.provides.contains required)
    && input.policy.requires.all (fun required => output.policy.adds.contains required)
    && output.fidelity.maximumLoss ≤ input.fidelity.maximumLoss
    && output.fidelity.minimumInput ≥ input.fidelity.minimumInput
    && output.lease = input.lease

/-- The port descriptor `valid_compiled_port` builds, with the one chosen layout. -/
def CompiledPortContract.descriptor (port : CompiledPortContract) : PortDescriptor :=
  { name := port.name
    semanticType := port.semanticType
    optional := port.optional
    layouts := [port.layout]
    maxBytes := port.maxBytes
    domain := port.domain
    proof := port.proof
    policy := port.policy
    fidelity := port.fidelity
    extent := port.extent
    lease := port.lease }

/-- Equal layouts, and the comparison of `port_contract_satisfies` on everything else. -/
def compiledPortContractSatisfies (output input : CompiledPortContract) : Bool :=
  output.layout = input.layout && portContractSatisfies output.descriptor input.descriptor

def validCompiledPort (port : CompiledPortContract) : Bool :=
  validPortContract port.descriptor
    && windowsAll (fun a b => decide (a < b)) port.proof.requires
    && windowsAll (fun a b => decide (a < b)) port.proof.provides
    && windowsAll (fun a b => decide (a < b)) port.proof.invalidates
    && windowsAll (fun a b => decide (a < b)) port.policy.requires
    && windowsAll (fun a b => decide (a < b)) port.policy.adds

/-! ## Compiled ports -/

/-- The smallest layout that port and kernel share; panics when there is none. -/
def selectLayout {ε : Type} (port : PortDescriptor) (kernelLayouts : List Layout) :
    Outcome ε Layout :=
  expect (port.layouts.filter fun layout => kernelLayouts.contains layout).min?

def compiledPortContract (port : PortDescriptor) (layout : Layout) : CompiledPortContract :=
  { name := port.name
    semanticType := port.semanticType
    optional := port.optional
    layout := layout
    maxBytes := port.maxBytes
    domain := port.domain
    proof := port.proof
    policy := port.policy
    fidelity := port.fidelity
    extent := port.extent
    lease := port.lease }

/-- The port of a conversion step: the producer's contract under a fixed name, never
    optional. -/
def conversionPortContract (port : PortDescriptor) (layout : Layout) (name : String)
    (maxBytes : Nat) : CompiledPortContract :=
  { compiledPortContract port layout with
    name := name
    optional := false
    maxBytes := maxBytes }

def compiledPortMatches (compiled : CompiledPortContract) (descriptor : PortDescriptor) : Bool :=
  compiled.name = descriptor.name
    && compiled.semanticType = descriptor.semanticType
    && compiled.optional = descriptor.optional
    && descriptor.layouts.contains compiled.layout
    && compiled.maxBytes = descriptor.maxBytes
    && compiled.domain = descriptor.domain
    && compiled.proof = descriptor.proof
    && compiled.policy = descriptor.policy
    && compiled.fidelity = descriptor.fidelity
    && compiled.extent = descriptor.extent
    && compiled.lease = descriptor.lease

def conversionContractsMatch (input output : CompiledPortContract)
    (conversion : LayoutConversion) : Bool :=
  input.name = "input"
    && output.name = "output"
    && !input.optional
    && !output.optional
    && input.semanticType = conversion.semanticType
    && output.semanticType = conversion.semanticType
    && input.layout = conversion.src
    && output.layout = conversion.dst
    && input.maxBytes ≤ conversion.maxInputBytes
    && output.maxBytes = conversion.maxOutputBytes
    && input.domain = output.domain
    && input.proof = output.proof
    && input.policy = output.policy
    && input.fidelity = output.fidelity
    && input.extent = output.extent
    && input.lease = output.lease

end Blut.GraphCore
