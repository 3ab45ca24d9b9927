/-
  A durable run computes what the host executor computes.

  The outputs of a durable run solve the equations of the adapted plan, whose edges repeat the
  input bindings in their order. So they also solve the equations of the semantic plan, which
  describe the run of the host executor (`Adapted.solution`). The parallel executor lets the
  optimizer drop nodes first; a step that neither reads a buffer nor is read is lost that way
  as soon as another step reads one (`adapted_run_preserves_iff`).
-/
import Blut.GraphCore.Authorize
import Blut.GraphCore.Execution
import Blut.Framework.Runs
import Blut.Semantic.Adapter

namespace Blut.Semantic

open Blut.Lib GraphCore Framework

variable {V : Type}

/-! ## The inputs of a step -/

/-- The inputs of a kernel as the artifact that a stage takes. -/
def packInputs (tuple : List V → V) (unit : V) (inputs : List (Option V)) : V :=
  packed tuple unit inputs.reduceOption

/-- The kernels that run the stages: `f i` is what the stage of step `i` computes. -/
def stageKernel (tuple : List V → V) (unit : V) (f : StepId → V → V)
    (node : CompiledNode) (inputs : List (Option V)) : List V :=
  List.replicate node.outputBindings.length (f node.id (packInputs tuple unit inputs))

section Adapted

variable {unit : V} {plan : GraphCore.CompiledPlan} {resolver : DurableStepResolver}
  {durable : Framework.CompiledPlan V}

variable {i b : Nat} {step : CompiledNode}

variable (h : Adapted unit plan resolver durable)
  (hd : Disciplined plan.nodes plan.buffers)

include h hd

theorem Adapted.buffer_of_binding (hstep : plan.nodes[i]? = some step)
    {binding : InputBinding} (hbinding : binding ∈ step.inputBindings) :
    ∃ b buffer, binding = .buffer b ∧ plan.buffers[b]? = some buffer ∧
      producer? plan binding = some buffer.producer := by
  obtain ⟨b, rfl⟩ := (h.representable step (List.mem_of_getElem? hstep)).inputs binding hbinding
  obtain ⟨k, hk⟩ := List.mem_iff_getElem?.mp hbinding
  obtain ⟨buffer, hbuffer, -⟩ := hd.reads i k b (Option.bind_eq_some_iff.mpr ⟨step, hstep, hk⟩)
  exact ⟨b, buffer, rfl, hbuffer, by simp [producer?, InputBinding.buffer?, hbuffer]⟩

/-- Every input has a producer among the predecessors. -/
theorem Adapted.producers_eq (hstep : plan.nodes[i]? = some step) :
    step.inputBindings.map (producer? plan) = (predecessors durable.edges i).map some := by
  rw [h.predecessors_eq hd hstep, List.map_filterMap_some_eq_filter_map_isSome, eq_comm,
    List.filter_eq_self, List.forall_mem_map]
  intro binding hbinding
  obtain ⟨b, buffer, -, -, hproducer⟩ := h.buffer_of_binding hd hstep hbinding
  rw [hproducer, Option.isSome_some]

theorem Adapted.mem_edges_iff {a : Nat} :
    (⟨a, b⟩ : PlanEdge) ∈ durable.edges ↔ ∃ reader, plan.nodes[b]? = some reader ∧
      ∃ binding ∈ reader.inputBindings, producer? plan binding = some a := by
  have hpred : ∀ reader, plan.nodes[b]? = some reader →
      ((⟨a, b⟩ : PlanEdge) ∈ durable.edges ↔
        ∃ binding ∈ reader.inputBindings, producer? plan binding = some a) :=
          fun reader hreader => by
    rw [← mem_predecessors, h.predecessors_eq hd hreader, List.mem_filterMap]
  constructor
  · intro hedge
    have hb := (durable.inRange _ hedge).2
    rw [h.length] at hb
    have hreader := List.getElem?_eq_getElem hb
    exact ⟨_, hreader, (hpred _ hreader).mp hedge⟩
  · rintro ⟨reader, hreader, hbinding⟩
    exact (hpred reader hreader).mpr hbinding

/-! ## One solution for both -/

/-- The outputs of the steps when step `i` has the value `value i`. -/
def stepOutputs (plan : GraphCore.CompiledPlan) (value : Nat → V) (i : StepId) : List V :=
  match plan.nodes[i]? with
  | some node => List.replicate node.outputBindings.length (value i)
  | none => []

omit h hd in
theorem stepOutputs_eq (value : Nat → V) {node : CompiledNode}
    (h : plan.nodes[i]? = some node) :
    stepOutputs plan value i = List.replicate node.outputBindings.length (value i) := by
  unfold stepOutputs
  rw [h]

omit h in
theorem bufferValue_stepOutputs
    (value : Nat → V) {buffer : BufferPlan} (hb : plan.buffers[b]? = some buffer) :
    bufferValue plan (stepOutputs plan value) b = some (value buffer.producer) := by
  obtain ⟨o, ho⟩ := hd.produced b buffer hb
  obtain ⟨node, hnode, hget⟩ := Option.bind_eq_some_iff.mp ho
  have hnode : plan.nodes[buffer.producer]? = some node := hnode
  have hlt : o < node.outputBindings.length := (List.getElem?_eq_some_iff.mp hget).1
  rw [bufferValue_eq hd ho, stepOutputs_eq value hnode]
  exact List.getElem?_replicate_of_lt hlt

/-- What the equations hand to a step: the values of the predecessors, in order. -/
theorem Adapted.stepInputs_eq (invocations : BTreeMap PortRef V) (value : Nat → V)
    (hstep : plan.nodes[i]? = some step) :
    stepInputs plan invocations (stepOutputs plan value) step =
      (predecessors durable.edges i).map fun p => some (value p) := by
  have hproducers := congrArg (List.map (Option.map value)) (h.producers_eq hd hstep)
  rw [List.map_map, List.map_map] at hproducers
  refine Eq.trans ?_ hproducers
  refine List.map_congr_left fun binding hbinding => ?_
  obtain ⟨b, buffer, rfl, hbuffer, hproducer⟩ := h.buffer_of_binding hd hstep hbinding
  rw [bindingValue, bufferValue_stepOutputs hd value hbuffer, Function.comp_apply, hproducer]
  rfl

omit h hd in
theorem packInputs_map_some (tuple : List V → V) (unit : V) (values : List V) :
    packInputs tuple unit (values.map some) = packed tuple unit values := by
  unfold packInputs List.reduceOption
  rw [List.filterMap_map, Function.id_comp, List.filterMap_some]

/-- A solution of the durable plan solves the semantic plan. -/
theorem Adapted.solution (invocations : BTreeMap PortRef V)
    {tuple : List V → V} {f : StepId → V → V} {value : Nat → V}
    (hvalue : ∀ n < durable.nodes.length, value n = f n (packed tuple unit
      ((predecessors durable.edges n).map value))) :
    Solution plan invocations (stageKernel tuple unit f) (stepOutputs plan value) where
  step := by
    intro s node hnode
    have hs : s < durable.nodes.length := by
      rw [h.length]
      exact (List.getElem?_eq_some_iff.mp hnode).1
    have hpack := packInputs_map_some tuple unit ((predecessors durable.edges s).map value)
    rw [List.map_map] at hpack
    unfold stageKernel
    rw [stepOutputs_eq value hnode, hd.stepIds s node hnode,
      h.stepInputs_eq hd invocations value hnode]
    exact congrArg (List.replicate _) ((hvalue s hs).trans (congrArg (f s) hpack.symm))
  arity := by
    intro s node hnode
    rw [stepOutputs_eq value hnode, List.length_replicate]

/-! ## Steps that the optimizer drops -/

/-- No step reads a buffer, or every step reads one or produces one that is read. -/
def StepsConnected (plan : GraphCore.CompiledPlan) : Prop :=
  (∀ step ∈ plan.nodes, step.inputBindings = []) ∨
    ∀ step ∈ plan.nodes, step.inputBindings ≠ [] ∨
      ∃ reader ∈ plan.nodes, ∃ binding ∈ reader.inputBindings, producer? plan binding = some step.id

omit hd in
theorem Adapted.mem_arcs_iff {a : Nat} :
    (a, b) ∈ durable.arcs ↔ (⟨a, b⟩ : PlanEdge) ∈ durable.edges := by
  unfold Framework.CompiledPlan.arcs
  rw [mem_arcsOf, h.gates]
  simp

theorem Adapted.arcsInto_ne_nil (hstep : plan.nodes[i]? = some step) :
    durable.arcsInto i ≠ [] ↔ step.inputBindings ≠ [] := by
  have hlength := congrArg List.length (h.producers_eq hd hstep)
  rw [List.length_map, List.length_map] at hlength
  have hmem : ∀ p, p ∈ durable.arcsInto i ↔ p ∈ predecessors durable.edges i := fun p => by
    rw [mem_arcsInto, h.mem_arcs_iff, mem_predecessors]
  rw [← List.length_pos_iff, ← List.length_pos_iff, hlength, List.length_pos_iff_exists_mem,
    List.length_pos_iff_exists_mem]
  exact exists_congr hmem

theorem Adapted.arcsFrom_ne_nil (i : Nat) :
    durable.arcsFrom i ≠ [] ↔ ∃ reader ∈ plan.nodes, ∃ binding ∈ reader.inputBindings,
      producer? plan binding = some i := by
  rw [← List.length_pos_iff, List.length_pos_iff_exists_mem]
  constructor
  · rintro ⟨b, hb⟩
    obtain ⟨reader, hreader, hbinding⟩ := (h.mem_edges_iff hd).mp
      (h.mem_arcs_iff.mp (mem_arcsFrom.mp hb))
    exact ⟨reader, List.mem_of_getElem? hreader, hbinding⟩
  · rintro ⟨reader, hreader, hbinding⟩
    obtain ⟨b, hb⟩ := List.mem_iff_getElem?.mp hreader
    exact ⟨b, mem_arcsFrom.mpr (h.mem_arcs_iff.mpr
      ((h.mem_edges_iff hd).mpr ⟨reader, hb, hbinding⟩))⟩

/-- Exactly then the optimizer leaves the durable plan as it is. -/
theorem Adapted.eliminateDeadCode_eq_iff :
    durable.eliminateDeadCode = durable ↔ StepsConnected plan := by
  obtain ⟨order, hordered⟩ := h.ordered
  rw [eliminateDeadCode_eq_self_iff (Framework.CompiledPlan.acyclic_of_topoOrder hordered)
    h.expansions]
  refine or_congr ?_ ?_
  · constructor
    · intro harcs step hstep
      obtain ⟨i, hi⟩ := List.mem_iff_getElem?.mp hstep
      by_contra hne
      refine (h.arcsInto_ne_nil hd hi).mpr hne ?_
      unfold Framework.CompiledPlan.arcsInto
      rw [harcs]
      rfl
    · intro hnone
      rw [List.eq_nil_iff_forall_not_mem]
      rintro ⟨a, b⟩ harc
      obtain ⟨reader, hreader, binding, hbinding, -⟩ :=
        (h.mem_edges_iff hd).mp (h.mem_arcs_iff.mp harc)
      rw [hnone reader (List.mem_of_getElem? hreader)] at hbinding
      exact absurd hbinding List.not_mem_nil
  · unfold Framework.CompiledPlan.Connected
    constructor
    · intro hconnected step hstep
      obtain ⟨i, hi⟩ := List.mem_iff_getElem?.mp hstep
      have hlt := (List.getElem?_eq_some_iff.mp hi).1
      rw [hd.stepIds i step hi, ← h.arcsFrom_ne_nil hd i, ← h.arcsInto_ne_nil hd hi]
      exact hconnected i (by rwa [h.length])
    · intro hall i hi
      rw [h.length] at hi
      have hstep : plan.nodes[i]? = some (plan.nodes.get ⟨i, hi⟩) := List.getElem?_eq_getElem hi
      have hone := hall _ (List.mem_of_getElem? hstep)
      rwa [hd.stepIds i _ hstep, ← h.arcsFrom_ne_nil hd i, ← h.arcsInto_ne_nil hd hstep] at hone

end Adapted

/-! ## The two runs -/

section Runs

variable {K S Key : Type} {blake3 : Blake3} {semantic : AuthorizedPlan}
  {resolver : DurableStepResolver} {unit : V} {durable : Framework.CompiledPlan V}
  {tuple : List V → V} {f : StepId → V → V} {executor : PlanExecutor V K S}

/-- The kernels of the host compute what the stages compute. -/
def RunsStages (plan : GraphCore.CompiledPlan) (executor : PlanExecutor V K S)
    (tuple : List V → V) (unit : V) (f : StepId → V → V) : Prop :=
  ∀ node ∈ plan.nodes, ∀ k inputs, ∃ k', executor.kernels.executeWithGaps k node inputs =
    (k', .ok { outputs := stageKernel tuple unit f node inputs, gaps := [] })

section

variable (h : Adapted unit semantic.plan resolver durable)
  (hauthorized : Authorized blake3 semantic)
include h hauthorized

/-- The run of the host on an adapted plan, when the durable plan has this solution. -/
theorem Adapted.host_run {value : Nat → V}
    (hvalue : ∀ n < durable.nodes.length, value n = f n (packed tuple unit
      ((predecessors durable.edges n).map value)))
    (hkernels : RunsStages semantic.plan executor tuple unit f) (invocationId : GraphCore.Digest)
    (kernels : K) (sink : S) :
    ∃ m result, executor.execute blake3 semantic invocationId BTreeMap.empty kernels sink =
        (m, .ok result) ∧
      m.kernelCalls = semantic.plan.nodes.map fun node => (node.id,
        stepInputs semantic.plan BTreeMap.empty (stepOutputs semantic.plan value) node,
        .ok { outputs := stepOutputs semantic.plan value node.id, gaps := [] }) := by
  have hd := hauthorized.disciplined
  have hinputs : ∀ node ∈ semantic.plan.nodes, ∀ binding ∈ node.inputBindings,
      ∃ b, binding = .buffer b :=
    fun node hnode => (h.representable node hnode).inputs
  obtain ⟨hfeedback, hports⟩ := hauthorized.closed hinputs
  have hsupplied : Supplied semantic.plan (BTreeMap.empty : BTreeMap PortRef V) := by
    intro node hnode binding hbinding
    obtain ⟨b, rfl⟩ := hinputs node hnode binding hbinding
    exact ⟨fun _ heq => (nomatch heq), fun _ heq => (nomatch heq)⟩
  have hsucceeds : Succeeds semantic.plan executor (stageKernel tuple unit f) := by
    refine ⟨hkernels, fun node hnode heffect => ?_, fun node hnode heffect => ?_⟩
    all_goals
      rw [(h.representable node hnode).effect] at heffect
      cases heffect
  have hadmitted : admitInvocation semantic.plan
      (BTreeMap.empty : BTreeMap PortRef V) = .ok () := by
    have hstateless : semantic.plan.nodes.any (fun node => node.state.scope ≠ .stateless) =
        false := by
      rw [List.any_eq_false]
      intro node hnode
      simp [(h.representable node hnode).state]
    unfold admitInvocation
    rw [hfeedback, hports, hstateless]
    rfl
  obtain ⟨m, result, hrun, hranto⟩ := execute_solution hd
    (h.solution hd BTreeMap.empty hvalue) hsupplied hsucceeds hadmitted blake3
      invocationId kernels sink
  refine ⟨m, result, hrun, ?_⟩
  rw [hranto.calls, List.take_length]

/-- What it means that a durable run preserves the semantic plan: the nodes are the steps, the
    predecessors are the producers of the input buffers in the order of the bindings, every step is
    executed once, and its output is what the host computes from the inputs of its kernel.
    `origins` has the durable node behind each node that ran. -/
structure Preserved (tuple : List V → V) (unit : V) (f : StepId → V → V)
    (plan : GraphCore.CompiledPlan) (resolver : DurableStepResolver)
    (durable : Framework.CompiledPlan V) (origins executed : List Nat) (outputs : Nat → Option V)
    (host : Machine V K S × Outcome ExecutionError (ExecutionResult V)) :
    Prop where
  length : durable.nodes.length = plan.nodes.length
  nodes : ∀ (i : Nat) (step : CompiledNode), plan.nodes[i]? = some step → step.id = i ∧
    ∃ resolved, resolver step = .ok resolved ∧ durable.nodes[i]? = some resolved.node
  predecessors : ∀ (i : Nat) (step : CompiledNode), plan.nodes[i]? = some step →
    (predecessors durable.edges i).map some = step.inputBindings.map (producer? plan)
  once : (executed.filterMap fun n => origins[n]?).Perm (List.range plan.nodes.length)
  completes : ∃ result, host.2 = .ok result
  calls : host.1.kernelCalls.map Prod.fst = List.range plan.nodes.length
  values : ∀ (i : Nat) (step : CompiledNode), plan.nodes[i]? = some step →
    ∃ (n : Nat) (inputs : List (Option V)), origins[n]? = some i ∧
      (i, inputs, .ok { outputs := stageKernel tuple unit f step inputs, gaps := [] }) ∈
        host.1.kernelCalls ∧
      outputs n = some (f i (packInputs tuple unit inputs))

theorem Adapted.preserved_of_whole [DecidableEq Key] {setup : Framework.Setup V Key}
    (hplan : setup.plan = durable) {answer : Answer V}
    (hanswer : ∀ n < durable.nodes.length, ∀ input, answer n input = .ok (f n input))
    {mode : PreparedExecutorMode} {executed : List Nat} {outputs : Nat → Option V}
    (hrun : setup.Executes answer mode executed outputs)
    (hkernels : RunsStages semantic.plan executor setup.runtime.tuple unit f)
    (invocationId : GraphCore.Digest) (kernels : K) (sink : S) :
    Preserved setup.runtime.tuple unit f semantic.plan resolver durable
      (List.range durable.nodes.length) executed outputs
      (executor.execute blake3 semantic invocationId BTreeMap.empty kernels sink) := by
  have hd := hauthorized.disciplined
  subst hplan
  obtain ⟨value, hvalues, hvalue⟩ := setup.solved h.gates h.roots hanswer
  obtain ⟨hperm, houtputs⟩ := hrun.spec h.gates h.expansions fun n hn => by rw [hvalues n hn]; rfl
  obtain ⟨m, result, hhost, hcalls⟩ :=
    h.host_run hauthorized hvalue hkernels invocationId kernels sink
  have hlt : ∀ (i : Nat) (step : CompiledNode), semantic.plan.nodes[i]? = some step →
      i < setup.plan.nodes.length := by
    intro i step hstep
    rw [h.length]
    exact (List.getElem?_eq_some_iff.mp hstep).1
  rw [hhost]
  refine ⟨h.length, fun i step hstep => ⟨hd.stepIds i step hstep, h.nodes i step hstep⟩,
    fun i step hstep => (h.producers_eq hd hstep).symm, ?_, ⟨result, rfl⟩, ?_,
      fun i step hstep => ?_⟩
  · -- every node is its own origin
    have hself : executed.filterMap (fun n => (List.range setup.plan.nodes.length)[n]?) =
        executed := by
      refine Eq.trans (List.filterMap_congr fun n hn => ?_) List.filterMap_some
      exact List.getElem?_range (List.mem_range.mp (hperm.mem_iff.mp hn))
    rw [hself, ← h.length]
    exact hperm
  · rw [hcalls, List.map_map]
    exact ids_eq_range hd
  · have hi := hlt i step hstep
    have hinputs := h.stepInputs_eq hd BTreeMap.empty value hstep
    have hpack := packInputs_map_some setup.runtime.tuple unit
      ((predecessors setup.plan.edges i).map value)
    rw [List.map_map] at hpack
    refine ⟨i, (predecessors setup.plan.edges i).map fun p => some (value p),
      List.getElem?_range hi, ?_, ?_⟩
    · rw [hcalls, List.mem_map]
      refine ⟨step, List.mem_of_getElem? hstep, ?_⟩
      have hid := hd.stepIds i step hstep
      have houtputs := (h.solution hd BTreeMap.empty hvalue).step i step hstep
      rw [hid, hinputs, houtputs, hinputs]
    · rw [houtputs i hi, hvalues i hi, hvalue i hi]
      exact congrArg (fun input => some (f i input)) hpack.symm

end

/-- A durable run of an adapted plan in which every stage succeeds preserves the plan just when the
    optimizer does not run, or has nothing to drop. -/
theorem adapted_run_preserves_iff (hauthorized : GraphCore.Authorized blake3 semantic)
    {adapted : DurableAdaptedPlan V}
    (hadapt : adaptDurablePlan unit semantic resolver = .ok adapted)
    [DecidableEq Key] {mode : Framework.PreparedExecutorMode} {deadCode : Bool}
    {setup : Framework.Setup V Key}
    (hplan : setup.plan = Framework.preparePlan mode deadCode adapted.durable)
    {answer : Framework.Answer V}
    (hanswer : ∀ n i : Nat, (Framework.origins mode deadCode adapted.durable)[n]? = some i →
      ∀ input, answer n input = .ok (f i input))
    {executed : List Nat} {outputs : Nat → Option V}
    (hrun : setup.Executes answer mode executed outputs)
    {executor : GraphCore.PlanExecutor V K S}
    (hkernels : RunsStages semantic.plan executor setup.runtime.tuple unit f)
    (invocationId : GraphCore.Digest) (kernels : K) (sink : S) :
    Preserved setup.runtime.tuple unit f semantic.plan resolver adapted.durable
        (Framework.origins mode deadCode adapted.durable) executed outputs
        (executor.execute blake3 semantic invocationId BTreeMap.empty kernels sink) ↔
      mode = .sequential ∨ deadCode = false ∨ StepsConnected semantic.plan := by
  have h := adaptDurablePlan_ok hadapt
  have hd := hauthorized.disciplined
  constructor
  · intro hpreserved
    by_contra hcond
    obtain ⟨hmode, hdead, hdropped⟩ : mode = .parallel ∧ deadCode = true ∧
        ¬ StepsConnected semantic.plan := by
      rw [not_or, not_or, Bool.not_eq_false] at hcond
      refine ⟨?_, hcond.2⟩
      cases mode with
      | sequential => exact absurd rfl hcond.1
      | parallel => rfl
    refine hdropped ((h.eliminateDeadCode_eq_iff hd).mp
      (Framework.eliminateDeadCode_of_survivors fun id hid => ?_))
    -- every step was executed, so it is the origin of a node
    rw [h.length] at hid
    have hmem := hpreserved.once.mem_iff.mpr (List.mem_range.mpr hid)
    obtain ⟨n, -, hn⟩ := List.mem_filterMap.mp hmem
    unfold Framework.origins at hn
    rw [if_pos ⟨hmode, hdead⟩] at hn
    exact List.mem_of_getElem? hn
  · intro hcond
    obtain ⟨hsame, horigins⟩ : Framework.preparePlan mode deadCode adapted.durable =
      adapted.durable ∧
        Framework.origins mode deadCode adapted.durable =
          List.range adapted.durable.nodes.length := by
      unfold Framework.preparePlan Framework.origins
      split_ifs with hoptimize
      · have hkept := (h.eliminateDeadCode_eq_iff hd).mpr (by
          rcases hcond with hmode | hdead | hconnected
          · exact absurd (hmode.symm.trans hoptimize.1) (by decide)
          · exact absurd (hdead.symm.trans hoptimize.2) (by decide)
          · exact hconnected)
        exact ⟨hkept, Framework.survivors_of_eq hkept⟩
      · exact ⟨rfl, rfl⟩
    rw [horigins] at hanswer ⊢
    exact h.preserved_of_whole hauthorized (hplan.trans hsame)
      (fun n hn => hanswer n n (List.getElem?_range hn)) hrun hkernels invocationId kernels sink

end Runs

/-! ## A pair of steps, alone and beside a third -/

def sampleBlake3 : Blake3 := fun _ _ => GraphCore.Digest.zero

def sampleKernel (id : KernelId) (name : String) : KernelDescriptor where
  id := id
  implements := [{ typeName := name, version := 1 }]
  implementationId := GraphCore.Digest.zero
  conversion := none
  target := Target.blutDurable
  inputLayouts := [GraphCore.Layout.canonical]
  outputLayouts := [GraphCore.Layout.canonical]
  resources := ResourceEnvelope.bounded 4096 1024 1
  determinism := .bitExact
  lowering := name

def sampleRegistry : KernelRegistry := KernelRegistry.after sampleBlake3
  [.descriptor (fixtureDescriptor "source" false),
    .descriptor (fixtureDescriptor "process" true),
    .kernel (sampleKernel 0 "source"), .kernel (sampleKernel 1 "process")]

/-- Node 1 reads node 0. -/
def sampleGraph (types : List String) : GraphCore.Graph where
  version := 3
  nodes := types.zipIdx.map fun (name, id) =>
    { id := id, descriptor := name, descriptorVersion := 1, config := BTreeMap.empty }
  edges := [⟨⟨0, "out"⟩, ⟨1, "in"⟩⟩]
  feedback := []
  invocationInputs := []
  requiredCapabilities := ["sample"]
  requiredProofs := []
  policy := ["research"]
  minimumFidelity := 0
  session := none

def sampleResolver : DurableStepResolver := fun step => .ok
  { stage := {
      name := step.lowering, inputKind := if step.inputBindings = [] then "()" else "rows"
      outputKind := "rows", isAdvisory := false, deterministic := true
      executionBoundary := .inProcess, supportsInProcessHandoff := true }
    maxAttempts := 1
    memoryGib := 1
    canonArgs := "null"
    contract := {
      implementationId := step.implementationId, effect := step.effect, state := step.state
      recheckedPolicy := ["research"] } }

def compileSample (types : List String) :
    Outcome CompileError AuthorizedPlan :=
  compile sampleBlake3 (Compiler.new sampleRegistry ExecutionRealm.blutDurable)
    (sampleGraph types)

theorem compileSample_pair : (compileSample ["source", "process"]).value.isSome = true := by
  decide +kernel

theorem compileSample_loose : (compileSample ["source", "process", "source"]).value.isSome =
    true := by
  decide +kernel

def pairSemantic : AuthorizedPlan := (compileSample ["source", "process"]).value.get
  compileSample_pair

def looseSemantic : AuthorizedPlan :=
  (compileSample ["source", "process", "source"]).value.get compileSample_loose

theorem pairSemantic_authorized : Authorized sampleBlake3 pairSemantic :=
  .compiled (value_eq_some.mp (Option.some_get compileSample_pair).symm)

theorem adapt_pair : (adaptDurablePlan 0 pairSemantic sampleResolver).value.isSome = true := by
  decide +kernel

theorem adapt_loose : (adaptDurablePlan 0 looseSemantic sampleResolver).value.isSome = true := by
  decide +kernel

def pairAdapted : DurableAdaptedPlan Nat :=
  (adaptDurablePlan 0 pairSemantic sampleResolver).value.get adapt_pair

def looseAdapted : DurableAdaptedPlan Nat :=
  (adaptDurablePlan 0 looseSemantic sampleResolver).value.get adapt_loose

/-- The plans as the parallel executor runs them. -/
def pairSetup : Framework.Setup Nat (String × Nat) :=
  Framework.pairSetup (preparePlan .parallel true pairAdapted.durable) (by decide +kernel)

def looseSetup : Framework.Setup Nat (String × Nat) :=
  Framework.pairSetup (preparePlan .parallel true looseAdapted.durable) (by decide +kernel)

def sampleStage (step : StepId) (input : Nat) : Nat := input + step + 1

def sampleAnswer : Answer Nat := fun n input => .ok (sampleStage n input)

def sampleChoices : List Choice := [.take 0, .await 0, .take 1, .await 0]

theorem pairSetup_play :
    (pairSetup.play sampleAnswer sampleChoices pairSetup.start).isSome = true := by
  decide +kernel

theorem looseSetup_play :
    (looseSetup.play sampleAnswer sampleChoices looseSetup.start).isSome = true := by
  decide +kernel

/-- A host whose kernels are the stages. -/
def sampleHost : PlanExecutor Nat Unit Unit where
  kernels := {
    executeWithGaps := fun _ node inputs =>
      ((), .ok { outputs := stageKernel List.sum 0 sampleStage node inputs, gaps := [] }) }
  sink := {
    prepare := fun _ _ => ((), .ok ()), commit := fun _ key => ((), .ok key),
    abort := fun _ _ => () }

theorem adapted_run_preserves_iff_pair : ∃ s,
    Framework.Reachable pairSetup (Framework.Undisturbed sampleAnswer) s ∧ s.Done ∧
      (Preserved List.sum 0 sampleStage pairSemantic.plan sampleResolver pairAdapted.durable
          (Framework.origins .parallel true pairAdapted.durable) s.started s.outputs
          (sampleHost.execute sampleBlake3 pairSemantic GraphCore.Digest.zero BTreeMap.empty ()
            ()) ↔
        Framework.PreparedExecutorMode.parallel = .sequential ∨ true = false ∨
          StepsConnected pairSemantic.plan) := by
  have hreach := Framework.Reachable.start.played
    (fun _ _ _ => Framework.Answer.undisturbed_moveOf) (Option.some_get pairSetup_play).symm
  have hdone :
      ((pairSetup.play sampleAnswer sampleChoices pairSetup.start).get pairSetup_play).Done :=
    ⟨by decide +kernel, Or.inr ⟨by decide +kernel, by decide +kernel⟩⟩
  have hadapt : adaptDurablePlan 0 pairSemantic sampleResolver = .ok pairAdapted :=
    value_eq_some.mp (Option.some_get adapt_pair).symm
  have hplan : pairSetup.plan = Framework.preparePlan .parallel true pairAdapted.durable := rfl
  have horigins : Framework.origins .parallel true pairAdapted.durable = [0, 1] := by decide +kernel
  have hanswer : ∀ n i, (Framework.origins .parallel true pairAdapted.durable)[n]? = some i →
      ∀ input, sampleAnswer n input = .ok (sampleStage i input) := by
    intro n i hi input
    rw [horigins] at hi
    have hsame : n = i := by
      match n with
      | 0 => exact Option.some.inj hi
      | 1 => exact Option.some.inj hi
      | n + 2 => cases hi
    rw [hsame]
    rfl
  exact ⟨_, hreach, hdone, adapted_run_preserves_iff pairSemantic_authorized hadapt hplan hanswer
    (.loop hreach hdone) (fun node _ _ inputs => ⟨(), rfl⟩) _ _ _⟩

/-- The third step neither reads nor is read; the parallel executor never runs it. -/
theorem loose_step_never_runs : ∃ s,
    Framework.Reachable looseSetup (Framework.Undisturbed sampleAnswer) s ∧ s.Done ∧
      s.started = [0, 1] ∧ Framework.origins .parallel true looseAdapted.durable = [0, 1] ∧
      looseSemantic.plan.nodes.length = 3 ∧
      ∀ host : GraphCore.Machine Nat Unit Unit ×
          Outcome GraphCore.ExecutionError (GraphCore.ExecutionResult Nat),
        ¬ Preserved List.sum 0 sampleStage looseSemantic.plan sampleResolver looseAdapted.durable
          (Framework.origins .parallel true looseAdapted.durable) s.started s.outputs host := by
  have hreach := Framework.Reachable.start.played
    (fun _ _ _ => Framework.Answer.undisturbed_moveOf) (Option.some_get looseSetup_play).symm
  have hdone : ((looseSetup.play sampleAnswer sampleChoices looseSetup.start).get
      looseSetup_play).Done :=
    ⟨by decide +kernel, Or.inr ⟨by decide +kernel, by decide +kernel⟩⟩
  have hstarted : ((looseSetup.play sampleAnswer sampleChoices looseSetup.start).get
      looseSetup_play).started = [0, 1] := by
    decide +kernel
  have horigins : Framework.origins .parallel true looseAdapted.durable =
      [0, 1] := by decide +kernel
  have hlength : looseSemantic.plan.nodes.length = 3 := by decide +kernel
  refine ⟨_, hreach, hdone, hstarted, horigins, hlength, fun host hpreserved => ?_⟩
  have honce := hpreserved.once.length_eq
  rw [hstarted, horigins, hlength] at honce
  exact absurd honce (by decide)

end Blut.Semantic
