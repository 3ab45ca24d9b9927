/-
  Runs of the host executor whose kernels succeed.

  Let `f` say what the kernels compute. An assignment of outputs to the steps that satisfies the
  equations of `f` (`Solution`) describes the run over a disciplined plan: before step `s` every
  live buffer holds its value (`RanTo.live`), so the kernel of step `s` is called once, with the
  values the equations give to its inputs. `runSteps_solution` puts the steps together.
-/
import Blut.GraphCore.Execute

namespace Blut.GraphCore

open Blut.Lib

variable {V K S : Type}

/-! ## Equations -/

/-- The value of a buffer when the steps have these outputs. -/
def bufferValue (plan : CompiledPlan) (env : StepId → List V) (b : BufferId) : Option V :=
  plan.buffers[b]?.bind fun buffer => plan.nodes[buffer.producer]?.bind fun node =>
    (env buffer.producer)[node.outputBindings.idxOf (.buffer b)]?

def bindingValue (plan : CompiledPlan) (invocations : BTreeMap PortRef V) (env : StepId → List V) :
    InputBinding → Option V
  | .buffer b => bufferValue plan env b
  | .invocation k => plan.invocationPorts[k]?.bind invocations.get?
  | .feedback _ => none
  | .absent => none

/-- What the equations hand to a step. -/
def stepInputs (plan : CompiledPlan) (invocations : BTreeMap PortRef V) (env : StepId → List V)
    (node : CompiledNode) : List (Option V) :=
  node.inputBindings.map (bindingValue plan invocations env)

/-- The outputs of every step are what its kernel makes of its inputs, one value per output. -/
structure Solution (plan : CompiledPlan) (invocations : BTreeMap PortRef V)
    (f : CompiledNode → List (Option V) → List V) (env : StepId → List V) : Prop where
  step : ∀ (s : Nat) (node : CompiledNode), plan.nodes[s]? = some node →
    env s = f node (stepInputs plan invocations env node)
  arity : ∀ (s : Nat) (node : CompiledNode), plan.nodes[s]? = some node →
    (env s).length = node.outputBindings.length

/-- The inputs of the steps can be gathered: the plan has no feedback, and every invocation port
    has a value. -/
def Supplied (plan : CompiledPlan) (invocations : BTreeMap PortRef V) : Prop :=
  ∀ node ∈ plan.nodes, ∀ binding ∈ node.inputBindings,
    (∀ f, binding ≠ .feedback f) ∧
      ∀ k, binding = .invocation k → ∃ port value, plan.invocationPorts[k]? = some port ∧
        invocations.get? port = some value

/-- The kernels compute `f`, without gaps, and the sink accepts every transaction. -/
structure Succeeds (plan : CompiledPlan) (executor : PlanExecutor V K S)
    (f : CompiledNode → List (Option V) → List V) : Prop where
  kernel : ∀ node ∈ plan.nodes, ∀ k inputs, ∃ k', executor.kernels.executeWithGaps k node inputs =
    (k', .ok { outputs := f node inputs, gaps := [] })
  prepare : ∀ node ∈ plan.nodes, node.effect = .transactional → ∀ s key, ∃ s',
    executor.sink.prepare s key = (s', .ok ())
  commit : ∀ node ∈ plan.nodes, node.effect = .transactional → ∀ s key, ∃ s' transaction,
    executor.sink.commit s key = (s', .ok transaction)

/-- The call of a kernel, if it is one. -/
def Call.kernel? : Call V →
    Option (StepId × List (Option V) × Except ExecutionError (KernelExecution V))
  | .kernel step inputs answer => some (step, inputs, answer)
  | _ => none

/-! ## Stores -/

variable {node : CompiledNode}

theorem mem_scattered {outputs : List V} {b : BufferId} {v : V} :
    (b, v) ∈ scattered node outputs ↔
      ∃ o : Nat, node.outputBindings[o]? = some (.buffer b) ∧ outputs[o]? = some v := by
  unfold scattered
  rw [List.mem_filterMap]
  constructor
  · rintro ⟨⟨binding, output⟩, hmem, heq⟩
    obtain ⟨o, ho⟩ := List.mem_iff_getElem?.mp hmem
    obtain ⟨hbinding, houtput⟩ := List.getElem?_zip_eq_some.mp ho
    cases binding with
    | buffer id =>
      obtain ⟨rfl, rfl⟩ := Prod.mk.inj (Option.some.inj heq)
      exact ⟨o, hbinding, houtput⟩
    | terminal => cases heq
  · rintro ⟨o, hbinding, houtput⟩
    exact ⟨(.buffer b, v), List.mem_of_getElem? (List.getElem?_zip_eq_some.mpr ⟨hbinding, houtput⟩),
      rfl⟩

section Plan

variable {plan : CompiledPlan} {invocations : BTreeMap PortRef V}
  {f : CompiledNode → List (Option V) → List V} {env : StepId → List V}

variable {s : Nat}

/-! ## Steps that succeed -/

/-- The calls of the kernels so far. -/
def Machine.kernelCalls (m : Machine V K S) :
    List (StepId × List (Option V) × Except ExecutionError (KernelExecution V)) :=
  m.calls.filterMap Call.kernel?

/-- A call to the sink is not a call of a kernel and changes no value. -/
structure Quiet (m m' : Machine V K S) : Prop where
  calls : m'.kernelCalls = m.kernelCalls
  buffers : m'.buffers = m.buffers

section Step

variable {executor : PlanExecutor V K S} {node : CompiledNode}

theorem Succeeds.prepare_ok (h : Succeeds plan executor f) (hnode : node ∈ plan.nodes)
    (key : String) (m : Machine V K S) :
    ∃ m', executor.prepare node key m = (m', .ok ()) ∧ Quiet m m' := by
  unfold PlanExecutor.prepare
  split_ifs with heffect
  · obtain ⟨s', hs'⟩ := h.prepare node hnode heffect m.sink key
    rw [hs']
    refine ⟨_, rfl, ?_, rfl⟩
    unfold Machine.kernelCalls
    simp [Call.kernel?]
  · exact ⟨m, rfl, rfl, rfl⟩

theorem Succeeds.commit_ok (h : Succeeds plan executor f) (hnode : node ∈ plan.nodes) (key : String)
    (m : Machine V K S) :
    ∃ m' transaction, executor.commit node key m = (m', .ok transaction) ∧ Quiet m m' := by
  unfold PlanExecutor.commit
  split_ifs with heffect
  · obtain ⟨s', transaction, hs'⟩ := h.commit node hnode heffect m.sink key
    rw [hs']
    refine ⟨_, _, rfl, ?_, rfl⟩
    unfold Machine.kernelCalls
    simp [Call.kernel?]
  · exact ⟨m, none, rfl, rfl, rfl⟩

/-- The first attempt succeeds. -/
theorem Succeeds.attempt_ok (h : Succeeds plan executor f) (hnode : node ∈ plan.nodes)
    (key : String) (inputs : List (Option V)) (left : Nat) (m : Machine V K S) :
    ∃ m', executor.attempt node key inputs left m =
        (m', .ok { outputs := f node inputs, gaps := [] }) ∧
      m'.kernelCalls = m.kernelCalls ++
        [(node.id, inputs, .ok { outputs := f node inputs, gaps := [] })] ∧
      m'.buffers = m.buffers := by
  obtain ⟨k', hk'⟩ := h.kernel node hnode m.kernels inputs
  unfold PlanExecutor.attempt PlanExecutor.callKernel
  rw [hk']
  refine ⟨_, rfl, ?_, rfl⟩
  unfold Machine.kernelCalls
  simp [Call.kernel?]

/-- A step whose inputs can be gathered completes. -/
theorem Succeeds.runStep_ok (h : Succeeds plan executor f) (hnode : node ∈ plan.nodes)
    (blake3 : Blake3) (invocationId : Digest) {m : Machine V K S} {inputs : List (Option V)}
    (hinputs : gatherInputs plan invocations m.buffers node = .ok inputs)
    (harity : (f node inputs).length = node.outputBindings.length) :
    ∃ m', executor.runStep blake3 plan invocationId invocations node m = (m', .ok ()) ∧
      m'.kernelCalls = m.kernelCalls ++
        [(node.id, inputs, .ok { outputs := f node inputs, gaps := [] })] ∧
      m'.buffers = (released plan.buffers node).foldl BTreeMap.erase
        ((scattered node (f node inputs)).foldl
          (fun buffers (buffer, output) => buffers.insert buffer output) m.buffers) := by
  unfold PlanExecutor.runStep
  generalize idempotencyKey blake3 plan invocationId node.id node.implementationId = key
  obtain ⟨prepared, hprepared, hquiet⟩ := h.prepare_ok hnode key (m.begin node)
  have hbuffers : prepared.buffers = m.buffers := hquiet.buffers
  obtain ⟨called, hcalled, hcalls, hstore⟩ :=
    h.attempt_ok hnode key inputs node.retryLimit prepared
  obtain ⟨committed, transaction, hcommitted, hquiet'⟩ := h.commit_ok hnode key
    (called.scatter node { outputs := f node inputs, gaps := [] })
  refine ⟨committed.complete plan node transaction, ?_, ?_, ?_⟩
  · simp only [hprepared, hbuffers, hinputs, hcalled]
    unfold PlanExecutor.deliver
    rw [if_neg (not_not_intro harity), if_neg (by simp), hcommitted]
  · show committed.kernelCalls = _
    rw [hquiet'.calls]
    show called.kernelCalls = _
    rw [hcalls, hquiet.calls]
    rfl
  · show (released plan.buffers node).foldl BTreeMap.erase committed.buffers = _
    rw [hquiet'.buffers]
    show (released plan.buffers node).foldl BTreeMap.erase ((scattered node (f node inputs)).foldl
      (fun buffers (buffer, output) => buffers.insert buffer output) called.buffers) = _
    rw [hstore, hbuffers]

end Step

/-! ## Values -/

section

variable (hd : Disciplined plan.nodes plan.buffers)
include hd

/-- The value of a buffer is the output at the place where it is written. -/
theorem bufferValue_eq {o b : Nat}
    (h : outputAt plan.nodes (s, o) = some (.buffer b)) : bufferValue plan env b = (env s)[o]? := by
  obtain ⟨buffer, hbuffer, hproducer⟩ := hd.writes s o b h
  obtain ⟨node, hnode, hget⟩ := Option.bind_eq_some_iff.mp h
  have hget : node.outputBindings[o]? = some (.buffer b) := hget
  have hnode : plan.nodes[s]? = some node := hnode
  -- the first place is the only one
  have hidx : node.outputBindings.idxOf (.buffer b) = o := by
    have hlt := List.idxOf_lt_length_of_mem (List.mem_of_getElem? hget)
    have hfirst : outputAt plan.nodes (s, node.outputBindings.idxOf (.buffer b)) =
        some (.buffer b) := by
      refine Option.bind_eq_some_iff.mpr ⟨node, hnode, ?_⟩
      show node.outputBindings[node.outputBindings.idxOf (.buffer b)]? = _
      rw [List.getElem?_eq_getElem hlt, List.getElem_idxOf hlt]
    exact congrArg Prod.snd (hd.unique _ _ b hfirst h)
  unfold bufferValue
  rw [hbuffer, Option.bind_some, hproducer, hnode, Option.bind_some, hidx]

variable (hsolution : Solution plan invocations f env)
include hsolution

/-- A buffer of the plan has a value. -/
theorem bufferValue_isSome {b : Nat} {buffer : BufferPlan}
    (hb : plan.buffers[b]? = some buffer) : ∃ v, bufferValue plan env b = some v := by
  obtain ⟨o, ho⟩ := hd.produced b buffer hb
  obtain ⟨node, hnode, hget⟩ := Option.bind_eq_some_iff.mp ho
  have hlt : o < (env buffer.producer).length := by
    rw [hsolution.arity _ node hnode]
    exact (List.getElem?_eq_some_iff.mp hget).1
  exact ⟨_, (bufferValue_eq hd ho).trans (List.getElem?_eq_getElem hlt)⟩

/-! ## One step -/

variable {buffers : BTreeMap BufferId V}

/-- Every buffer that is alive before step `s` holds its value. -/
def Live (plan : CompiledPlan) (env : StepId → List V) (s : Nat) (buffers : BTreeMap BufferId V) :
    Prop :=
  ∀ (b : Nat) (buffer : BufferPlan), plan.buffers[b]? = some buffer → buffer.producer < s →
    s ≤ buffer.lastConsumer → buffers.get? b = bufferValue plan env b

/-- The inputs of a step are gathered from the live buffers. -/
theorem gatherInputs_eq (hsupplied : Supplied plan invocations) (hnode : plan.nodes[s]? = some node)
    (hlive : Live plan env s buffers) :
    gatherInputs plan invocations buffers node = .ok (stepInputs plan invocations env node) := by
  unfold gatherInputs stepInputs
  refine mapM_eq_map fun binding hbinding => ?_
  obtain ⟨hfeedback, hinvocation⟩ := hsupplied node (List.mem_of_getElem? hnode) binding hbinding
  cases binding with
  | absent => rfl
  | feedback id => exact absurd rfl (hfeedback id)
  | invocation k =>
    obtain ⟨port, value, hport, hvalue⟩ := hinvocation k rfl
    rw [bindingValue, gatherBinding, hport, Option.bind_some]
    show (okOr (invocations.get? port) _ >>= fun value => pure (some value)) = _
    rw [hvalue]
    rfl
  | buffer b =>
    obtain ⟨i, hi⟩ := List.mem_iff_getElem?.mp hbinding
    obtain ⟨buffer, hbuffer, hlt, hle⟩ :=
      hd.reads s i b (Option.bind_eq_some_iff.mpr ⟨node, hnode, hi⟩)
    obtain ⟨v, hv⟩ := bufferValue_isSome hd hsolution hbuffer
    rw [gatherBinding, bindingValue, hlive b buffer hbuffer hlt hle, hv]
    rfl

/-- Writing the outputs of a step and releasing what it read last keeps the live buffers right. -/
theorem Live.next (hnode : plan.nodes[s]? = some node) (hlive : Live plan env s buffers) :
    Live plan env (s + 1) ((released plan.buffers node).foldl BTreeMap.erase
      ((scattered node (env s)).foldl (fun buffers (buffer, output) => buffers.insert buffer output)
        buffers)) := by
  intro b buffer hbuffer hproducer hlast
  have hkept : b ∉ released plan.buffers node := by
    intro hmem
    have hany := (List.mem_filter.mp hmem).2
    rw [hbuffer, Option.any_some, decide_eq_true_eq, hd.stepIds s node hnode] at hany
    rw [hany] at hlast
    exact Nat.not_succ_le_self s hlast
  rw [BTreeMap.get?_foldl_erase, if_neg hkept, BTreeMap.get?_foldl_insert]
  -- what this step writes has the value of its location
  have hvalue : ∀ v, (b, v) ∈ scattered node (env s) → bufferValue plan env b = some v := by
    intro v hv
    obtain ⟨o, hbinding, houtput⟩ := mem_scattered.mp hv
    rw [bufferValue_eq hd (Option.bind_eq_some_iff.mpr ⟨node, hnode, hbinding⟩), houtput]
  by_cases hnow : buffer.producer = s
  · obtain ⟨o, ho⟩ := hd.produced b buffer hbuffer
    rw [hnow] at ho
    obtain ⟨node', hnode', hget⟩ := Option.bind_eq_some_iff.mp ho
    have hsame : node' = node := Option.some.inj (hnode'.symm.trans hnode)
    subst hsame
    obtain ⟨v, hv⟩ := bufferValue_isSome hd hsolution hbuffer
    have houtput := (bufferValue_eq hd ho).symm.trans hv
    rw [writeAll_of_unique (mem_scattered.mpr ⟨o, hget, houtput⟩) fun v' hv' =>
      Option.some.inj ((hvalue v' hv').symm.trans hv), hv]
  · rw [writeAll_of_not_mem, hlive b buffer hbuffer
      (Nat.lt_of_le_of_ne (Nat.le_of_lt_succ hproducer) hnow) (Nat.le_of_succ_le hlast)]
    intro hmem
    obtain ⟨⟨b', v⟩, hv, rfl⟩ := List.mem_map.mp hmem
    obtain ⟨o, hbinding, -⟩ := mem_scattered.mp hv
    obtain ⟨found, hfound, heq⟩ :=
      hd.writes s o b' (Option.bind_eq_some_iff.mpr ⟨node, hnode, hbinding⟩)
    rw [Option.some.inj (hbuffer.symm.trans hfound)] at hnow
    exact hnow heq

/-! ## The run -/

variable {executor : PlanExecutor V K S}

/-- The state before step `s` of a run that follows the equations. -/
structure RanTo (plan : CompiledPlan) (invocations : BTreeMap PortRef V) (env : StepId → List V)
    (s : Nat) (m : Machine V K S) : Prop where
  live : Live plan env s m.buffers
  calls : m.kernelCalls = (plan.nodes.take s).map fun node =>
    (node.id, stepInputs plan invocations env node, .ok { outputs := env node.id, gaps := [] })

omit hd hsolution in
theorem RanTo.start (kernels : K) (sink : S) (invocationId : Digest) :
    RanTo plan invocations env 0 (Machine.start kernels sink plan invocationId) :=
  ⟨fun _ _ _ hlt => absurd hlt (Nat.not_lt_zero _), rfl⟩

theorem RanTo.step (hsupplied : Supplied plan invocations) (hsucceeds : Succeeds plan executor f)
    (blake3 : Blake3) (invocationId : Digest) (hnode : plan.nodes[s]? = some node)
    {m : Machine V K S} (h : RanTo plan invocations env s m) :
    ∃ m', executor.runStep blake3 plan invocationId invocations node m = (m', .ok ()) ∧
      RanTo plan invocations env (s + 1) m' := by
  have hid := hd.stepIds s node hnode
  have hstep := hsolution.step s node hnode
  have hinputs := gatherInputs_eq hd hsolution hsupplied hnode h.live
  have harity : (f node (stepInputs plan invocations env node)).length =
      node.outputBindings.length := by
    rw [← hstep]
    exact hsolution.arity s node hnode
  obtain ⟨m', hrun, hcalls, hbuffers⟩ := hsucceeds.runStep_ok
    (List.mem_of_getElem? hnode) blake3 invocationId hinputs harity
  have htake : plan.nodes.take (s + 1) = plan.nodes.take s ++ [node] := by
    rw [List.take_add_one, hnode]
    rfl
  rw [← hstep] at hcalls hbuffers
  refine ⟨m', hrun, ?_, ?_⟩
  · rw [hbuffers]
    exact h.live.next hd hsolution hnode
  · rw [hcalls, h.calls, htake, List.map_append, List.map_singleton, hid]

/-- The whole run succeeds and follows the equations. -/
theorem runSteps_solution (hsupplied : Supplied plan invocations)
    (hsucceeds : Succeeds plan executor f) (blake3 : Blake3) (invocationId : Digest)
    {m : Machine V K S} (h : RanTo plan invocations env 0 m) :
    ∃ m', executor.runSteps blake3 plan invocationId invocations plan.nodes m = (m', .ok ()) ∧
      RanTo plan invocations env plan.nodes.length m' := by
  -- from any step on
  have key : ∀ (rest before : List CompiledNode) (m : Machine V K S), plan.nodes = before ++ rest →
      RanTo plan invocations env before.length m →
      ∃ m', executor.runSteps blake3 plan invocationId invocations rest m = (m', .ok ()) ∧
        RanTo plan invocations env plan.nodes.length m' := by
    intro rest
    induction rest with
    | nil =>
      intro before m hsplit hm
      rw [List.append_nil] at hsplit
      exact ⟨m, rfl, hsplit ▸ hm⟩
    | cons node rest ih =>
      intro before m hsplit hm
      have hnode : plan.nodes[before.length]? = some node := by
        rw [hsplit, List.getElem?_append_right le_rfl, Nat.sub_self, List.getElem?_cons_zero]
      obtain ⟨m', hrun, hm'⟩ := hm.step hd hsolution hsupplied hsucceeds blake3
        invocationId hnode
      obtain ⟨last, hlast, hranto⟩ := ih (before ++ [node]) m' (by simp [hsplit])
        (by rw [List.length_append, List.length_singleton]; exact hm')
      refine ⟨last, ?_, hranto⟩
      rw [PlanExecutor.runSteps, hrun]
      exact hlast
  exact key plan.nodes [] m rfl h

end

/-- The run of a stateless plan without feedback whose ports all have a value. -/
theorem execute_solution {authorized : AuthorizedPlan}
    (hd : Disciplined authorized.plan.nodes authorized.plan.buffers)
    (hsolution : Solution authorized.plan invocations f env)
    (hsupplied : Supplied authorized.plan invocations)
    {executor : PlanExecutor V K S} (hsucceeds : Succeeds authorized.plan executor f)
    (hadmitted : admitInvocation authorized.plan invocations = .ok ()) (blake3 : Blake3)
    (invocationId : Digest) (kernels : K) (sink : S) :
    ∃ m result, executor.execute blake3 authorized invocationId invocations kernels sink =
        (m, .ok result) ∧
      RanTo authorized.plan invocations env authorized.plan.nodes.length m := by
  obtain ⟨m, hrun, hranto⟩ := runSteps_solution hd hsolution hsupplied hsucceeds blake3 invocationId
    (RanTo.start kernels sink invocationId)
  refine ⟨m, { terminalValues := m.terminalValues, receipt := m.receipt }, ?_, hranto⟩
  unfold PlanExecutor.execute
  simp only [hadmitted, hrun]

end Plan

end Blut.GraphCore
