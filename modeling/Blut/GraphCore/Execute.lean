/-
  The host executor (`execute.rs`: `PlanExecutor::execute`).

  Kernels and sink are state machines that may answer anything. The executor passes over the
  steps once: it prepares the transaction of a step, gathers its inputs, calls the kernel until
  it succeeds or may not be retried, scatters the outputs, commits and releases the buffers that
  nobody reads any more. `calls` keeps what the source does not: every call to kernel and sink.
-/
import Blut.GraphCore.Encoding
import Blut.GraphCore.Discipline

namespace Blut.GraphCore

open Blut.Lib

structure FailureEvidence where
  semanticType : String
  payload : List Byte
  deriving DecidableEq

structure StructuredFailure where
  domain : String
  code : String
  message : String
  retryable : Bool
  evidence : List FailureEvidence
  deriving DecidableEq

inductive ExecutionError where
  | unknownKernel (kernel : KernelId)
  | missingBuffer (buffer : BufferId)
  | missingInvocation (port : PortRef)
  | unexpectedInvocation (port : PortRef)
  | outputArity (kernel : KernelId) (expected actual : Nat)
  | kernelFailed (kernel : KernelId) (failure : StructuredFailure)
  | undeclaredFailure (kernel : KernelId) (domain : String)
  | unsafeRetry (kernel : KernelId)
  | transactionPrepare (message : String)
  | transactionCommit (message : String)
  | invalidGap (kernel : KernelId)
  | statefulPlanUnsupported
  deriving DecidableEq

def ExecutionError.retryable : ExecutionError → Bool
  | .kernelFailed _ failure => failure.retryable
  | _ => false

structure ExecutionAttempt where
  step : StepId
  semanticNodes : List NodeId
  kernel : KernelId
  implementationId : ImplementationId
  attempts : Nat
  kernelSucceeded : Bool
  completed : Bool
  deriving DecidableEq

/-- `length` is the missing extent, where it is known. -/
structure KernelGap where
  outputIndex : Nat
  offset : Nat
  length : Option Nat
  domain : String
  code : String
  deriving DecidableEq

structure GapReceipt where
  step : StepId
  semanticNodes : List NodeId
  gap : KernelGap
  deriving DecidableEq

structure ExecutionReceipt where
  invocationId : Digest
  graphId : GraphId
  planId : PlanId
  realm : ExecutionRealm
  completedNodes : List NodeId
  attempts : List ExecutionAttempt
  committedTransactions : List String
  gaps : List GapReceipt
  deriving DecidableEq

structure KernelExecution (V : Type) where
  outputs : List V
  gaps : List KernelGap

/-- Kernels with a state `K`. -/
structure KernelExecutor (V K : Type) where
  executeWithGaps : K → CompiledNode → List (Option V) →
    K × Except ExecutionError (KernelExecution V)

/-- A sink with a state `S`. -/
structure TransactionalSink (S : Type) where
  prepare : S → String → S × Except ExecutionError Unit
  commit : S → String → S × Except ExecutionError String
  abort : S → String → S

/-- A call to the sink or to a kernel, with its answer. -/
inductive Call (V : Type) where
  | prepare (key : String) (answer : Except ExecutionError Unit)
  | commit (key : String) (answer : Except ExecutionError String)
  | abort (key : String)
  | kernel (step : StepId) (inputs : List (Option V))
      (answer : Except ExecutionError (KernelExecution V))

/-- The state of `execute`. -/
structure Machine (V K S : Type) where
  kernels : K
  sink : S
  calls : List (Call V)
  receipt : ExecutionReceipt
  buffers : BTreeMap BufferId V
  terminalValues : BTreeMap NodeId (List V)

structure ExecutionResult (V : Type) where
  terminalValues : BTreeMap NodeId (List V)
  receipt : ExecutionReceipt

structure PlanExecutor (V K S : Type) where
  kernels : KernelExecutor V K
  sink : TransactionalSink S

/-! ## Transactions -/

def hexDigit (n : Nat) : Char := "0123456789abcdef".toList.getD n '0'

def toHex (bytes : List Byte) : String :=
  String.ofList (bytes.flatMap fun byte => [hexDigit (byte.val / 16), hexDigit (byte.val % 16)])

def idempotencyKey (blake3 : Blake3) (plan : CompiledPlan) (invocationId : Digest) (step : StepId)
    (implementationId : ImplementationId) : String :=
  toHex (blake3 "blut.transaction.v2"
    (plan.planId.val ++ invocationId.val ++ putU32 step ++ implementationId.val)).val

section Executor

variable {V K S : Type}

/-- The attempt of a step begins. -/
def Machine.begin (m : Machine V K S) (node : CompiledNode) : Machine V K S :=
  { m with receipt := { m.receipt with attempts := m.receipt.attempts ++ [{
      step := node.id
      semanticNodes := node.semanticNodes
      kernel := node.kernel
      implementationId := node.implementationId
      attempts := 0
      kernelSucceeded := false
      completed := false }] } }

/-- `receipt.attempts[attempt_index]`, which is the last one. -/
def Machine.onAttempt (m : Machine V K S) (f : ExecutionAttempt → ExecutionAttempt) :
    Machine V K S :=
  { m with receipt := { m.receipt with
      attempts := m.receipt.attempts.modify (m.receipt.attempts.length - 1) f } }

/-- Only the steps with a transactional effect talk to the sink. -/
def PlanExecutor.prepare (executor : PlanExecutor V K S) (node : CompiledNode) (key : String)
    (m : Machine V K S) : Machine V K S × Except ExecutionError Unit :=
  if node.effect = .transactional then
    let (sink, answer) := executor.sink.prepare m.sink key
    ({ m with sink := sink, calls := m.calls ++ [.prepare key answer] }, answer)
  else
    (m, .ok ())

def PlanExecutor.abort (executor : PlanExecutor V K S) (node : CompiledNode) (key : String)
    (m : Machine V K S) : Machine V K S :=
  if node.effect = .transactional then
    { m with sink := executor.sink.abort m.sink key, calls := m.calls ++ [.abort key] }
  else
    m

/-- The transaction, if the step has one. -/
def PlanExecutor.commit (executor : PlanExecutor V K S) (node : CompiledNode) (key : String)
    (m : Machine V K S) : Machine V K S × Except ExecutionError (Option String) :=
  if node.effect = .transactional then
    let (sink, answer) := executor.sink.commit m.sink key
    ({ m with sink := sink, calls := m.calls ++ [.commit key answer] }, answer.map some)
  else
    (m, .ok none)

/-! ## Inputs -/

/-- One input. A port out of range and a feedback binding panic. -/
def gatherBinding (plan : CompiledPlan) (invocations : BTreeMap PortRef V)
    (buffers : BTreeMap BufferId V) : InputBinding → Outcome ExecutionError (Option V)
  | .absent => .ok none
  | .invocation invocation => do
    let port ← expect plan.invocationPorts[invocation]?
    let value ← okOr (invocations.get? port) (.missingInvocation port)
    return some value
  | .buffer buffer => do
    let value ← okOr (buffers.get? buffer) (.missingBuffer buffer)
    return some value
  | .feedback _ => .error .panic

def gatherInputs (plan : CompiledPlan) (invocations : BTreeMap PortRef V)
    (buffers : BTreeMap BufferId V) (node : CompiledNode) :
      Outcome ExecutionError (List (Option V)) :=
  node.inputBindings.mapM (gatherBinding plan invocations buffers)

/-! ## The kernel -/

/-- One call of the kernel. -/
def PlanExecutor.callKernel (executor : PlanExecutor V K S) (node : CompiledNode)
    (inputs : List (Option V)) (m : Machine V K S) :
    Machine V K S × Except ExecutionError (KernelExecution V) :=
  let (kernels, answer) := executor.kernels.executeWithGaps m.kernels node inputs
  let counted := m.onAttempt fun attempt => { attempt with attempts := attempt.attempts + 1 }
  ({ counted with kernels := kernels, calls := m.calls ++ [.kernel node.id inputs answer] }, answer)

/-- The domain of a failure that the step does not declare. -/
def undeclaredDomain (node : CompiledNode) : ExecutionError → Option String
  | .kernelFailed _ failure =>
    if node.failure.domains.contains failure.domain then none else some failure.domain
  | _ => none

/-- The loop over the attempts. The first argument is what is left of the retry limit. -/
def PlanExecutor.attempt (executor : PlanExecutor V K S) (node : CompiledNode) (key : String)
    (inputs : List (Option V)) :
    Nat → Machine V K S → Machine V K S × Except ExecutionError (KernelExecution V)
  | left, m =>
    match executor.callKernel node inputs m with
    | (m, .ok execution) => (m, .ok execution)
    | (m, .error error) =>
      match undeclaredDomain node error with
      | some domain => (executor.abort node key m, .error (.undeclaredFailure node.kernel domain))
      | none =>
        match left with
        | 0 => (executor.abort node key m, .error error)
        | left + 1 =>
          if !error.retryable then (executor.abort node key m, .error error)
          else if node.effect = .atMostOnce then (m, .error (.unsafeRetry node.kernel))
          else executor.attempt node key inputs left m

/-! ## Outputs -/

def invalidGap (node : CompiledNode) (outputs : Nat) (gap : KernelGap) : Bool :=
  node.partiality ≠ .explicitGaps
    || gap.outputIndex ≥ outputs
    || gap.length = some 0
    || !node.failure.domains.contains gap.domain

def terminalOutputs (node : CompiledNode) (outputs : List V) : List V :=
  (node.outputBindings.zip outputs).filterMap fun (binding, output) =>
    if binding = .terminal then some output else none

/-- The terminal outputs stand under the last node of the step. -/
def insertTerminals (node : CompiledNode) (outputs : List V) (table : BTreeMap NodeId (List V)) :
    BTreeMap NodeId (List V) :=
  match terminalOutputs node outputs, node.semanticNodes.getLast? with
  | first :: rest, some terminal => table.insert terminal (first :: rest)
  | _, _ => table

/-- The gaps are noted and the outputs put where they belong. -/
def Machine.scatter (m : Machine V K S) (node : CompiledNode) (execution : KernelExecution V) :
    Machine V K S :=
  let gaps := execution.gaps.map fun gap =>
    { step := node.id, semanticNodes := node.semanticNodes, gap := gap : GapReceipt }
  let m := m.onAttempt fun attempt => { attempt with kernelSucceeded := true }
  { m with
    receipt := { m.receipt with gaps := m.receipt.gaps ++ gaps }
    buffers := (scattered node execution.outputs).foldl
      (fun buffers (buffer, output) => buffers.insert buffer output) m.buffers
    terminalValues := insertTerminals node execution.outputs m.terminalValues }

/-- The step is done. -/
def Machine.complete (m : Machine V K S) (plan : CompiledPlan) (node : CompiledNode)
    (transaction : Option String) : Machine V K S :=
  let m := m.onAttempt fun attempt => { attempt with completed := true }
  { m with
    receipt := { m.receipt with
      committedTransactions := m.receipt.committedTransactions ++ transaction.toList
      completedNodes := m.receipt.completedNodes ++ node.semanticNodes }
    buffers := (released plan.buffers node).foldl BTreeMap.erase m.buffers }

/-- What happens with the outputs of a kernel. -/
def PlanExecutor.deliver (executor : PlanExecutor V K S) (plan : CompiledPlan) (node : CompiledNode)
    (key : String) (execution : KernelExecution V) (m : Machine V K S) :
    Machine V K S × Outcome ExecutionError Unit :=
  if execution.outputs.length ≠ node.outputBindings.length then
    (executor.abort node key m,
      fail (.outputArity node.kernel node.outputBindings.length execution.outputs.length))
  else if execution.gaps.any (invalidGap node execution.outputs.length) then
    (executor.abort node key m, fail (.invalidGap node.kernel))
  else
    match executor.commit node key (m.scatter node execution) with
    | (m, .error error) => (m, fail error)
    | (m, .ok transaction) => (m.complete plan node transaction, .ok ())

/-! ## The run -/

/-- One step of the plan. -/
def PlanExecutor.runStep (executor : PlanExecutor V K S) (blake3 : Blake3) (plan : CompiledPlan)
    (invocationId : Digest) (invocations : BTreeMap PortRef V) (node : CompiledNode)
    (m : Machine V K S) : Machine V K S × Outcome ExecutionError Unit :=
  let key := idempotencyKey blake3 plan invocationId node.id node.implementationId
  match executor.prepare node key (m.begin node) with
  | (m, .error error) => (m, fail error)
  | (m, .ok _) =>
    match gatherInputs plan invocations m.buffers node with
    | .error .panic => (m, .error .panic)
    | .error (.err error) => (executor.abort node key m, fail error)
    | .ok inputs =>
      match executor.attempt node key inputs node.retryLimit m with
      | (m, .error error) => (m, fail error)
      | (m, .ok execution) => executor.deliver plan node key execution m

/-- The steps one after the other, until one fails. -/
def PlanExecutor.runSteps (executor : PlanExecutor V K S) (blake3 : Blake3) (plan : CompiledPlan)
    (invocationId : Digest) (invocations : BTreeMap PortRef V) :
    List CompiledNode → Machine V K S → Machine V K S × Outcome ExecutionError Unit
  | [], m => (m, .ok ())
  | node :: nodes, m =>
    match executor.runStep blake3 plan invocationId invocations node m with
    | (m, .error fault) => (m, .error fault)
    | (m, .ok _) => executor.runSteps blake3 plan invocationId invocations nodes m

def Machine.start (kernels : K) (sink : S) (plan : CompiledPlan) (invocationId : Digest) :
    Machine V K S where
  kernels := kernels
  sink := sink
  calls := []
  receipt :=
    { invocationId := invocationId
      graphId := plan.graphId
      planId := plan.planId
      realm := plan.realm
      completedNodes := []
      attempts := []
      committedTransactions := []
      gaps := [] }
  buffers := BTreeMap.empty
  terminalValues := BTreeMap.empty

/-- The checks before the first step. The ports of a plan ascend, so that `binary_search` finds
    every one of them. -/
def admitInvocation (plan : CompiledPlan) (invocations : BTreeMap PortRef V) :
    Outcome ExecutionError Unit :=
  if !plan.feedback.isEmpty || plan.nodes.any (fun node => node.state.scope ≠ .stateless) then
    fail .statefulPlanUnsupported
  else
    match invocations.keys.find? (fun port => !plan.invocationPorts.contains port) with
    | some port => fail (.unexpectedInvocation port)
    | none =>
      match plan.invocationPorts.find? (fun port => !invocations.contains port) with
      | some port => fail (.missingInvocation port)
      | none => .ok ()

/-- `PlanExecutor::execute`: how the run ends, and the state it ends in. -/
def PlanExecutor.execute (executor : PlanExecutor V K S) (blake3 : Blake3)
    (authorized : AuthorizedPlan) (invocationId : Digest) (invocations : BTreeMap PortRef V)
    (kernels : K) (sink : S) : Machine V K S × Outcome ExecutionError (ExecutionResult V) :=
  let plan := authorized.plan
  let start : Machine V K S := Machine.start kernels sink plan invocationId
  match admitInvocation plan invocations with
  | .error fault => (start, .error fault)
  | .ok _ =>
    match executor.runSteps blake3 plan invocationId invocations plan.nodes start with
    | (m, .error fault) => (m, .error fault)
    | (m, .ok _) => (m, .ok { terminalValues := m.terminalValues, receipt := m.receipt })

end Executor

end Blut.GraphCore
