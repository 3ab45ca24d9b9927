/-
  Semantic plans as durable plans (`adapt_durable_plan`).

  Every step becomes the node that the resolver binds to it, every buffer that a step reads an edge
  from the producer of the buffer. What the durable executor cannot represent is refused: several
  outputs, inputs that are not buffers, effects, gaps and state. `adaptDurablePlan_ok` collects what
  an accepted plan is like, `Adapted.predecessors_eq` reads the edges off the bindings.

  The display name and the arguments of the recipe, which carry the lineage, are left out.
-/
import Blut.GraphCore.Wire
import Blut.Framework.Plan

namespace Blut.Semantic

open Blut.Lib GraphCore Framework

/-! ## The resolver -/

inductive DurablePlanError where
  | wrongRealm (realm : ExecutionRealm)
  | resolve (step : StepId) (message : String)
  | determinism (step : StepId)
  | retry (step : StepId) (semanticAttempts blutAttempts : Nat)
  | memory (step : StepId) (required reserved : Nat)
  | ambiguousPorts (src dst : StepId)
  | multipleOutputs (step : StepId) (outputs : Nat)
  | absentInput (step : StepId)
  | invocationInput (step : StepId) (input : Nat)
  | unsupportedEffect (step : StepId) (effect : Effect)
  | partialOutput (step : StepId)
  | unsupportedState (step : StepId) (scope : StateScope)
  | implementation (step : StepId)
  | checkpoint (step : StepId)
  | feedbackInput (step : StepId) (feedback : FeedbackId)
  | policy (step : StepId)
  | plan (error : PlanError)
  deriving DecidableEq

structure DurableStepContract where
  implementationId : ImplementationId
  effect : Effect
  state : StateContract
  recheckedPolicy : List String
  deriving DecidableEq

/-- `maxAttempts` is `stage.retry().max_attempts`, `memoryGib` is `stage.memory_gib_for(args)`. -/
structure ResolvedDurableStep where
  stage : Stage
  maxAttempts : Nat
  memoryGib : Nat
  canonArgs : String
  contract : DurableStepContract
  deriving DecidableEq

/-- The node of `from_erased_graph`. -/
def ResolvedDurableStep.node (resolved : ResolvedDurableStep) : PlanNode where
  stage := resolved.stage
  canonArgs := resolved.canonArgs
  memoryGib := resolved.memoryGib
  partition := none

abbrev DurableStepResolver := CompiledNode → Except String ResolvedDurableStep

/-! ## Steps -/

def gib : Nat := 1024 * 1024 * 1024

/-- The end of `u64`, for the saturating operations. -/
def saturate (n : Nat) : Nat := min n (2 ^ 64 - 1)

/-- `if let Some(found) = .. { return Err(..) }`. -/
def rejectSome {α ε : Type} (found : Option α) (error : α → ε) : Outcome ε Unit :=
  match found with
  | some a => fail (error a)
  | none => .ok ()

/-- What the durable executor can represent. -/
def checkShape (step : CompiledNode) : Outcome DurablePlanError Unit := do
  reject (step.outputBindings.length > 1) (.multipleOutputs step.id step.outputBindings.length)
  reject (step.inputBindings.contains .absent) (.absentInput step.id)
  rejectSome (step.inputBindings.findSome? InputBinding.invocation?) (.invocationInput step.id)
  rejectSome (step.inputBindings.findSome? InputBinding.feedback?) (.feedbackInput step.id)
  reject (step.effect ≠ .pure) (.unsupportedEffect step.id step.effect)
  reject (step.partiality ≠ .atomic) (.partialOutput step.id)
  reject (step.state.scope ≠ .stateless) (.unsupportedState step.id step.state.scope)

/-- The contract of a step against that of its stage. -/
def checkContract (policy : List String) (step : CompiledNode)
    (resolved : ResolvedDurableStep) : Outcome DurablePlanError Unit := do
  reject (resolved.contract.implementationId ≠ step.implementationId
    || resolved.contract.effect ≠ step.effect) (.implementation step.id)
  reject (resolved.contract.state ≠ step.state) (.checkpoint step.id)
  reject (sortDedup resolved.contract.recheckedPolicy ≠ sortDedup policy) (.policy step.id)
  reject (step.determinism ≠ .nondeterministic && !resolved.stage.deterministic)
    (.determinism step.id)
  reject (step.retryLimit + 1 ≠ resolved.maxAttempts)
    (.retry step.id (step.retryLimit + 1) resolved.maxAttempts)
  let required := saturate (step.resources.peakBytes + step.resources.scratchBytes)
  let reserved := saturate (resolved.memoryGib * gib)
  reject (reserved < required) (.memory step.id required reserved)

def resolveStep (resolver : DurableStepResolver) (step : CompiledNode) :
    Outcome DurablePlanError ResolvedDurableStep :=
  match resolver step with
  | .ok resolved => .ok resolved
  | .error message => fail (.resolve step.id message)

def adaptStep (policy : List String) (resolver : DurableStepResolver) (step : CompiledNode) :
    Outcome DurablePlanError PlanNode := do
  checkShape step
  let resolved ← resolveStep resolver step
  checkContract policy step resolved
  return resolved.node

/-! ## Edges -/

/-- The producer of the buffer that a binding reads. -/
def producer? (plan : GraphCore.CompiledPlan) (binding : InputBinding) :
    Option StepId :=
  binding.buffer?.bind fun buffer => plan.buffers[buffer]?.map BufferPlan.producer

/-- One binding of a consumer. A pair of steps may be connected by one buffer only. -/
def addEdge (plan : GraphCore.CompiledPlan) (consumer : CompiledNode)
    (edges : List PlanEdge) (binding : InputBinding) :
    Outcome DurablePlanError (List PlanEdge) :=
  match binding with
  | .buffer buffer => do
    let found ← expect plan.buffers[buffer]?
    let edge : PlanEdge := ⟨found.producer, consumer.id⟩
    reject (edges.contains edge) (.ambiguousPorts found.producer consumer.id)
    return edges ++ [edge]
  | _ => .ok edges

def stepEdges (plan : GraphCore.CompiledPlan) : Outcome DurablePlanError (List PlanEdge) :=
  plan.nodes.foldlM (fun edges consumer =>
    consumer.inputBindings.foldlM (addEdge plan consumer) edges) []

/-! ## The adapter -/

structure DurableAdaptedPlan (V : Type) where
  semantic : AuthorizedPlan
  durable : Framework.CompiledPlan V

def adaptDurablePlan {V : Type} (unit : V) (semantic : AuthorizedPlan)
    (resolver : DurableStepResolver) : Outcome DurablePlanError (DurableAdaptedPlan V) := do
  reject (semantic.plan.realm ≠ .blutDurable) (.wrongRealm semantic.plan.realm)
  let nodes ← semantic.plan.nodes.mapM (adaptStep semantic.plan.propagatedPolicy resolver)
  let edges ← stepEdges semantic.plan
  let durable ← mapErr .plan (fromErasedGraph unit nodes edges)
  return ⟨semantic, durable⟩

/-! ## What the adapter accepts -/

theorem rejectSome_eq_ok {α ε : Type} {found : Option α} {error : α → ε} {u : Unit} :
    rejectSome found error = .ok u ↔ found = none := by
  cases found <;> simp [rejectSome, fail]

/-- A step the durable executor can represent. -/
structure Representable (step : CompiledNode) : Prop where
  inputs : ∀ binding ∈ step.inputBindings, ∃ b, binding = .buffer b
  effect : step.effect = .pure
  state : step.state.scope = .stateless

variable {step : CompiledNode} {resolver : DurableStepResolver}
  {plan : GraphCore.CompiledPlan}

theorem checkShape_eq_ok (h : checkShape step = .ok ()) : Representable step := by
  simp only [checkShape, bind_eq_ok, reject_eq_ok, rejectSome_eq_ok, List.findSome?_eq_none_iff,
    decide_eq_false_iff_not, not_lt, ne_eq, not_not] at h
  obtain ⟨_, -, _, habsent, _, hinvocation, _, hfeedback, _, heffect, _, -, hstate⟩ := h
  refine ⟨fun binding hb => ?_, heffect, hstate⟩
  cases binding with
  | buffer b => exact ⟨b, rfl⟩
  | invocation k => exact absurd (hinvocation _ hb) (Option.some_ne_none k)
  | feedback k => exact absurd (hfeedback _ hb) (Option.some_ne_none k)
  | absent =>
    rw [List.contains_eq_mem, decide_eq_false_iff_not] at habsent
    exact absurd hb habsent

theorem adaptStep_eq_ok {policy : List String} {node : PlanNode}
    (h : adaptStep policy resolver step = .ok node) :
    Representable step ∧ ∃ resolved, resolver step = .ok resolved ∧ node = resolved.node := by
  simp only [adaptStep, bind_eq_ok] at h
  obtain ⟨_, hshape, resolved, hresolved, _, -, h⟩ := h
  refine ⟨checkShape_eq_ok hshape, resolved, ?_, (Except.ok.inj h).symm⟩
  unfold resolveStep at hresolved
  split at hresolved
  · rename_i found hfound
    rw [hfound, Except.ok.inj hresolved]
  · cases hresolved

theorem addEdge_eq_ok {consumer : CompiledNode} {edges edges' : List PlanEdge}
    {binding : InputBinding} (h : addEdge plan consumer edges binding = .ok edges') :
    edges' = edges ++ (producer? plan binding).toList.map fun src => ⟨src, consumer.id⟩ := by
  cases binding with
  | buffer b =>
    simp only [addEdge, bind_eq_ok, expect_eq_ok] at h
    obtain ⟨found, hfound, _, -, h⟩ := h
    rw [← Except.ok.inj h]
    simp [producer?, InputBinding.buffer?, hfound]
  | _ => simpa [producer?, InputBinding.buffer?] using (Except.ok.inj h).symm

/-- The edges into a step. -/
def edgesInto (plan : GraphCore.CompiledPlan) (consumer : CompiledNode) :
    List PlanEdge :=
  (consumer.inputBindings.filterMap (producer? plan)).map fun src => ⟨src, consumer.id⟩

theorem stepEdges_eq_ok {edges : List PlanEdge} (h : stepEdges plan = .ok edges) :
    edges = plan.nodes.flatMap (edgesInto plan) := by
  refine foldlM_appends plan.nodes (fun consumer _ s t hstep => ?_) h
  rw [foldlM_appends consumer.inputBindings (fun binding _ s t hadd => addEdge_eq_ok hadd) hstep]
  unfold edgesInto
  rw [List.map_filterMap, List.filterMap_eq_flatMap_toList]
  congr 2
  funext binding
  cases producer? plan binding <;> rfl

/-- The durable plan of an accepted semantic plan. -/
structure Adapted {V : Type} (unit : V) (plan : GraphCore.CompiledPlan)
    (resolver : DurableStepResolver) (durable : Framework.CompiledPlan V) : Prop where
  representable : ∀ step ∈ plan.nodes, Representable step
  length : durable.nodes.length = plan.nodes.length
  nodes : ∀ (i : Nat) (step : CompiledNode), plan.nodes[i]? = some step →
    ∃ resolved, resolver step = .ok resolved ∧ durable.nodes[i]? = some resolved.node
  edges : durable.edges = plan.nodes.flatMap (edgesInto plan)
  gates : durable.conditionGates = []
  expansions : durable.expansions = []
  roots : ∀ n < durable.nodes.length, predecessors durable.edges n = [] →
    durable.initial n = some unit
  ordered : ∃ order, durable.topoOrder = .ok order

theorem adaptDurablePlan_ok {V : Type} {unit : V} {semantic : AuthorizedPlan}
    {adapted : DurableAdaptedPlan V} (h : adaptDurablePlan unit semantic resolver = .ok adapted) :
    Adapted unit semantic.plan resolver adapted.durable := by
  simp only [adaptDurablePlan, bind_eq_ok] at h
  obtain ⟨_, -, nodes, hnodes, edges, hedges, durable, hdurable, h⟩ := h
  obtain rfl := Except.ok.inj h
  obtain ⟨hin, rfl, hordered⟩ := fromErasedGraph_eq_ok (mapErr_eq_ok.mp hdurable)
  refine ⟨?_, mapM_ok_length hnodes, fun i step hstep => ?_, stepEdges_eq_ok hedges, rfl, rfl,
    fun n hn hroot => if_pos ⟨hn, hroot⟩, hordered⟩
  · intro step hstep
    obtain ⟨i, hi⟩ := List.mem_iff_getElem?.mp hstep
    obtain ⟨node, -, hadapt⟩ := mapM_ok_getElem? hnodes i step hi
    exact (adaptStep_eq_ok hadapt).1
  · obtain ⟨node, hnode, hadapt⟩ := mapM_ok_getElem? hnodes i step hstep
    obtain ⟨-, resolved, hresolved, rfl⟩ := adaptStep_eq_ok hadapt
    exact ⟨resolved, hresolved, hnode⟩

/-! ## Predecessors -/

/-- The ids count the steps. -/
theorem ids_eq_range (hd : Disciplined plan.nodes plan.buffers) :
    plan.nodes.map CompiledNode.id = List.range plan.nodes.length := by
  refine List.ext_getElem (by simp) fun i hi _ => ?_
  rw [List.getElem_map, List.getElem_range]
  exact hd.stepIds i _ (List.getElem?_eq_getElem _)

theorem predecessors_edgesInto (step : CompiledNode) (n : Nat) :
    predecessors (edgesInto plan step) n =
      if step.id = n then step.inputBindings.filterMap (producer? plan) else [] := by
  unfold predecessors edgesInto
  by_cases hid : step.id = n <;> simp [List.filter_map, Function.comp_def, hid]

/-- The data predecessors of a step are the producers of its input buffers, in the order of the
    bindings. -/
theorem Adapted.predecessors_eq {V : Type} {unit : V} {durable : Framework.CompiledPlan V}
    (h : Adapted unit plan resolver durable) (hd : Disciplined plan.nodes plan.buffers)
    {i : Nat} (hstep : plan.nodes[i]? = some step) :
    predecessors durable.edges i = step.inputBindings.filterMap (producer? plan) := by
  have hid := hd.stepIds i step hstep
  have hpred : predecessors durable.edges i = plan.nodes.flatMap fun other =>
      if other.id = i then other.inputBindings.filterMap (producer? plan) else [] := by
    rw [h.edges, predecessors, List.filter_flatMap, List.map_flatMap]
    exact List.flatMap_congr fun other _ => predecessors_edgesInto other i
  -- no other step has the id
  have hnodup : (plan.nodes.map CompiledNode.id).Nodup := ids_eq_range hd ▸ List.nodup_range
  obtain ⟨before, after, hnodes⟩ := List.append_of_mem (List.mem_of_getElem? hstep)
  rw [hnodes, List.map_append, List.map_cons, List.nodup_middle, ← List.map_append] at hnodup
  have hother : ∀ other ∈ before ++ after, other.id ≠ i := fun other hmem heq =>
    (List.nodup_cons.mp hnodup).1 (List.mem_map.mpr ⟨other, hmem, heq.trans hid.symm⟩)
  rw [hpred, hnodes, List.flatMap_append, List.flatMap_cons, if_pos hid,
    List.flatMap_eq_nil_iff.mpr fun other hmem =>
      if_neg (hother other (List.mem_append_left _ hmem)),
    List.flatMap_eq_nil_iff.mpr fun other hmem =>
      if_neg (hother other (List.mem_append_right _ hmem)),
    List.nil_append, List.append_nil]

end Blut.Semantic
