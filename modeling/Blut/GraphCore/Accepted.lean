/-
  What the decoder accepts.

  From the checks on the buffers, those on the steps and the counts of the writes (`validate_ok`)
  it follows that an accepted plan is disciplined (`Validated.disciplined`), and that exactly the
  invocation ports and the feedback edges of the plan are bound to inputs.
-/
import Blut.GraphCore.Wire

namespace Blut.GraphCore

open Blut.Lib

/-- The checks of an accepted plan that its discipline rests on. -/
structure Validated (limits : PlanLimits) (plan : CompiledPlan) (bufferBytes : Nat)
    (scan : NodeScan) : Prop where
  buffers : checkBuffers plan = .ok bufferBytes
  nodes : scanNodes limits plan = .ok scan
  invocations : scan.usedInvocations.toList = List.range plan.invocationPorts.length
  feedback : scan.usedFeedback.toList = List.range plan.feedback.length
  produced : ∃ counts, countProduced plan = .ok counts ∧ ∀ count ∈ counts, count = 1

section

variable {plan : CompiledPlan} {limits : PlanLimits}

theorem validate_ok {blake3 : Blake3} (h : plan.validate blake3 limits = .ok ()) :
    ∃ bufferBytes scan, Validated limits plan bufferBytes scan := by
  simp only [CompiledPlan.validate, bind_eq_ok] at h
  obtain ⟨_, -, bufferBytes, hbuffers, _, -, scan, hscan, _, -, _, hinvocations, _, hfeedback, _, -,
    _, -, _, -, counts, hcounts, _, hones, -⟩ := h
  simp only [decide_eq_false_iff_not, not_not, List.any_eq_false,
    reject_eq_ok] at hinvocations hfeedback hones
  refine ⟨bufferBytes, scan, hbuffers, hscan, hinvocations, hfeedback, counts, hcounts,
    fun count hcount => ?_⟩
  have hone := hones count hcount
  simpa using hone

/-! ## Buffers -/

variable {buffer : BufferPlan}

theorem checkBuffers_ok {bytes : Nat} (h : checkBuffers plan = .ok bytes) {b : Nat}
    (hb : plan.buffers[b]? = some buffer) :
    invalidBuffer plan b buffer = false := by
  unfold checkBuffers at h
  obtain ⟨before, after, hstep⟩ := foldlM_step_of_mem h (List.mk_mem_zipIdx_iff_getElem?.mpr hb)
  exact (reject_bind_eq_ok.mp hstep).1

/-- What the checks say of one buffer. -/
structure BufferChecked (plan : CompiledPlan) (index : Nat) (buffer : BufferPlan) : Prop where
  id : buffer.id = index
  latest : ∀ consumer ∈ buffer.consumers, consumer ≤ buffer.lastConsumer
  later : ∀ consumer ∈ buffer.consumers, buffer.producer < consumer
  written : ∃ node, plan.nodes[buffer.producer]? = some node ∧
    .buffer buffer.id ∈ node.outputBindings

theorem bufferChecked {index : Nat} (h : invalidBuffer plan index buffer = false) :
    BufferChecked plan index buffer := by
  unfold invalidBuffer at h
  simp only [Bool.or_eq_false_iff, decide_eq_false_iff_not, not_not, List.any_eq_false,
    decide_eq_true_eq, not_le, Bool.not_eq_false', Option.any_eq_true] at h
  obtain ⟨⟨⟨⟨⟨⟨⟨⟨⟨⟨⟨⟨hid, -⟩, -⟩, -⟩, -⟩, -⟩, -⟩, -⟩, hmax⟩, hlater⟩, hwritten⟩, -⟩, -⟩ := h
  refine ⟨hid, fun consumer hc => ?_, hlater, ?_⟩
  · exact (List.max?_eq_some_iff.mp hmax).2 consumer hc
  · obtain ⟨node, hnode, hmem⟩ := hwritten
    exact ⟨node, hnode, List.contains_iff_mem.mp hmem⟩

/-! ## Steps -/

variable {s : Nat} {node : CompiledNode}

theorem scanNodes_ok {scan : NodeScan} (h : scanNodes limits plan = .ok scan)
    (hs : plan.nodes[s]? = some node) :
    invalidNode limits plan s node = false := by
  unfold scanNodes at h
  obtain ⟨before, after, hstep⟩ := foldlM_step_of_mem h (List.mk_mem_zipIdx_iff_getElem?.mpr hs)
  simp only [scanNode, bind_eq_ok, reject_eq_ok] at hstep
  obtain ⟨_, -, _, -, _, -, _, hvalid, -⟩ := hstep
  exact hvalid

theorem useOnce_ok {xs : List Nat} {used used' : BTreeSet Nat}
    (h : xs.foldlM useOnce used = .ok used') : used' = BTreeSet.extend used xs := by
  have hstep : ∀ (s : BTreeSet Nat) (k : Nat) (s' : BTreeSet Nat), useOnce s k = .ok s' ↔
      True ∧ s.contains (id k) = false ∧ s' = BTreeSet.add s (id k) := by
    intro s k s'
    unfold useOnce
    rw [reject_bind_eq_ok, pure_eq_ok, Except.ok.injEq, true_and]
    exact and_congr_right fun _ => eq_comm
  obtain ⟨-, -, -, heq⟩ := (BTreeSet.foldlM_fresh id (fun _ => True) hstep).mp h
  rwa [List.map_id] at heq

/-- Every number in use is bound to an input of a step. -/
theorem scanNodes_used {scan : NodeScan} (h : scanNodes limits plan = .ok scan) :
    (∀ k, scan.usedInvocations.contains k = true →
      ∃ node ∈ plan.nodes, .invocation k ∈ node.inputBindings) ∧
    ∀ f, scan.usedFeedback.contains f = true → ∃ node ∈ plan.nodes,
      .feedback f ∈ node.inputBindings := by
  unfold scanNodes at h
  refine foldlM_inv (fun scan => (∀ k, scan.usedInvocations.contains k = true →
      ∃ node ∈ plan.nodes, .invocation k ∈ node.inputBindings) ∧
    ∀ f, scan.usedFeedback.contains f = true →
      ∃ node ∈ plan.nodes, .feedback f ∈ node.inputBindings) _
    (fun scan entry scan' hentry hscan hstep => ?_) ⟨fun k hk => ?_, fun f hf => ?_⟩ h
  · have hnode : entry.1 ∈ plan.nodes :=
      List.mem_of_getElem? (List.mk_mem_zipIdx_iff_getElem?.mp hentry)
    simp only [scanNode, bind_eq_ok] at hstep
    obtain ⟨_, -, invocations, hinvocations, feedback, hfeedback, _, -, _, -, _, -, _, -, hstep⟩ :=
      hstep
    rw [← Except.ok.inj hstep]
    obtain rfl := useOnce_ok hinvocations
    obtain rfl := useOnce_ok hfeedback
    constructor
    · intro k hk
      rw [BTreeSet.contains_extend, Bool.or_eq_true, decide_eq_true_eq, List.mem_filterMap] at hk
      rcases hk with ⟨binding, hmem, hbinding⟩ | hold
      · cases binding with
        | invocation port =>
          rw [← Option.some.inj hbinding]
          exact ⟨entry.1, hnode, hmem⟩
        | _ => cases hbinding
      · exact hscan.1 k hold
    · intro f hf
      rw [BTreeSet.contains_extend, Bool.or_eq_true, decide_eq_true_eq, List.mem_filterMap] at hf
      rcases hf with ⟨binding, hmem, hbinding⟩ | hold
      · cases binding with
        | feedback id =>
          rw [← Option.some.inj hbinding]
          exact ⟨entry.1, hnode, hmem⟩
        | _ => cases hbinding
      · exact hscan.2 f hold
  · exact absurd hk (by rw [show NodeScan.start.usedInvocations = BTreeMap.empty from rfl]; simp)
  · exact absurd hf (by rw [show NodeScan.start.usedFeedback = BTreeMap.empty from rfl]; simp)

/-- What the checks say of one step and its bindings. -/
structure NodeChecked (plan : CompiledPlan) (index : Nat) (node : CompiledNode) : Prop where
  id : node.id = index
  reads : ∀ b, .buffer b ∈ node.inputBindings →
    ∃ buffer : BufferPlan, plan.buffers[b]? = some buffer ∧ node.id ∈ buffer.consumers
  writes : ∀ b, .buffer b ∈ node.outputBindings →
    ∃ buffer : BufferPlan, plan.buffers[b]? = some buffer ∧ buffer.producer = node.id

theorem nodeChecked {index : Nat} (h : invalidNode limits plan index node = false) :
    NodeChecked plan index node := by
  unfold invalidNode at h
  simp only [Bool.or_eq_false_iff, decide_eq_false_iff_not, not_not, List.any_eq_false] at h
  obtain ⟨⟨⟨hrest, hreads⟩, hwrites⟩, -⟩ := h
  refine ⟨by simp_all only, fun b hb => ?_, fun b hb => ?_⟩
  · have hread := hreads _ hb
    simpa [InputBinding.buffer?, Option.any_eq_true] using hread
  · have hwrite := hwrites _ hb
    simpa [OutputBinding.buffer?, Option.any_eq_true] using hwrite

/-! ## Writes -/

/-- The counters after some of the bindings. -/
theorem countProduced_ok {counts : List Nat} (h : countProduced plan = .ok counts) :
    ∀ b < plan.buffers.length,
      counts[b]? = some ((plan.nodes.flatMap CompiledNode.outputBindings).count (.buffer b)) := by
  unfold countProduced at h
  refine foldlM_prefix_inv (fun done counts => ∀ b < plan.buffers.length,
    counts[b]? = some (done.count (.buffer b))) _
      (fun done binding rest counts counts' _ hcounts hstep => ?_)
    (fun b hb => ?_) h
  · intro b hb
    cases binding with
    | terminal =>
      rw [← Except.ok.inj hstep, hcounts b hb, List.count_append]
      simp
    | buffer id =>
      obtain ⟨count, hcount, hstep⟩ := bind_eq_ok.mp hstep
      obtain ⟨-, hstep⟩ := reject_bind_eq_ok.mp hstep
      have hget := expect_eq_ok.mp hcount
      rw [← Except.ok.inj hstep, List.count_append]
      by_cases heq : id = b
      · subst heq
        have hlt := (List.getElem?_eq_some_iff.mp hget).1
        rw [List.getElem?_set_self hlt]
        have hsame := Option.some.inj (hget.symm.trans (hcounts id hb))
        simp [hsame]
      · rw [List.getElem?_set_ne heq, hcounts b hb]
        have hne : (OutputBinding.buffer id == OutputBinding.buffer b) = false := by
          simpa using heq
        simp [List.count_cons, hne]
  · simp [hb]

end

/-! ## Discipline -/

/-- A binding that occurs once in all steps has one location. -/
theorem location_unique {nodes : List CompiledNode} {b : BufferId} {o o' : Nat}
    (hone : (nodes.flatMap CompiledNode.outputBindings).count (.buffer b) = 1)
    (h : outputAt nodes (s, o) = some (.buffer b))
    (h' : outputAt nodes (s, o') = some (.buffer b)) : o = o' := by
  unfold outputAt at h h'
  obtain ⟨node, hnode, hget⟩ := Option.bind_eq_some_iff.mp h
  rw [hnode, Option.bind_some] at h'
  have hle : node.outputBindings.count (.buffer b) ≤ 1 := by
    rw [← hone]
    have hmem : node.outputBindings ∈ nodes.map CompiledNode.outputBindings :=
      List.mem_map_of_mem (List.mem_of_getElem? hnode)
    exact (List.sublist_flatten_of_mem hmem).count_le _
  obtain ⟨hlt, heq⟩ := List.getElem?_eq_some_iff.mp hget
  obtain ⟨hlt', heq'⟩ := List.getElem?_eq_some_iff.mp h'
  by_contra hne
  have hdup : List.Duplicate (.buffer b) node.outputBindings := by
    rw [List.duplicate_iff_exists_distinct_get]
    rcases Nat.lt_or_gt_of_ne hne with hbefore | hafter
    · exact ⟨⟨o, hlt⟩, ⟨o', hlt'⟩, hbefore, heq.symm, heq'.symm⟩
    · exact ⟨⟨o', hlt'⟩, ⟨o, hlt⟩, hafter, heq'.symm, heq.symm⟩
  have htwo := List.duplicate_iff_two_le_count.mp hdup
  omega

section Validated

variable {limits : PlanLimits} {plan : CompiledPlan} {bufferBytes : Nat} {scan : NodeScan}

section

variable (h : Validated limits plan bufferBytes scan)
include h

theorem Validated.buffer {b : Nat} {buffer : BufferPlan} (hb : plan.buffers[b]? = some buffer) :
    BufferChecked plan b buffer :=
  bufferChecked (checkBuffers_ok h.buffers hb)

theorem Validated.node {node : CompiledNode} (hs : plan.nodes[s]? = some node) :
    NodeChecked plan s node :=
  nodeChecked (scanNodes_ok h.nodes hs)

theorem Validated.disciplined :
    Disciplined plan.nodes plan.buffers := by
  have hwrites : ∀ (s o b : Nat), outputAt plan.nodes (s, o) = some (.buffer b) →
      ∃ buffer : BufferPlan, plan.buffers[b]? = some buffer ∧ buffer.producer = s := by
    intro s o b hout
    obtain ⟨node, hnode, hget⟩ := Option.bind_eq_some_iff.mp hout
    obtain ⟨buffer, hbuffer, hproducer⟩ := (h.node hnode).writes b (List.mem_of_getElem? hget)
    exact ⟨buffer, hbuffer, hproducer.trans (h.node hnode).id⟩
  refine ⟨fun s node hs => (h.node hs).id, fun s i b hread => ?_, hwrites, fun b buffer hb => ?_,
    fun loc loc' b hloc hloc' => ?_⟩
  · obtain ⟨node, hnode, hget⟩ := Option.bind_eq_some_iff.mp hread
    obtain ⟨buffer, hbuffer, hconsumer⟩ := (h.node hnode).reads b (List.mem_of_getElem? hget)
    rw [(h.node hnode).id] at hconsumer
    exact ⟨buffer, hbuffer, (h.buffer hbuffer).later s hconsumer,
      (h.buffer hbuffer).latest s hconsumer⟩
  · obtain ⟨node, hnode, hmem⟩ := (h.buffer hb).written
    obtain ⟨o, ho⟩ := List.mem_iff_getElem?.mp hmem
    rw [(h.buffer hb).id] at ho
    exact ⟨o, Option.bind_eq_some_iff.mpr ⟨node, hnode, ho⟩⟩
  · obtain ⟨s, o⟩ := loc
    obtain ⟨s', o'⟩ := loc'
    obtain ⟨buffer, hbuffer, hproducer⟩ := hwrites s o b hloc
    obtain ⟨buffer', hbuffer', hproducer'⟩ := hwrites s' o' b hloc'
    have hstep : s = s' := by
      rw [← hproducer, ← hproducer', Option.some.inj (hbuffer.symm.trans hbuffer')]
    subst hstep
    obtain ⟨counts, hcounts, hones⟩ := h.produced
    have hcount := countProduced_ok hcounts b (List.getElem?_eq_some_iff.mp hbuffer).1
    rw [location_unique (hones _ (List.mem_of_getElem? hcount)) hloc hloc']

/-- A plan without invocation inputs has no invocation ports. -/
theorem Validated.ports_eq_nil
    (hfree : ∀ node ∈ plan.nodes, ∀ k, .invocation k ∉ node.inputBindings) :
    plan.invocationPorts = [] := by
  by_contra hne
  have hpos := List.length_pos_iff.mpr hne
  have hused : 0 ∈ scan.usedInvocations.toList := by
    rw [h.invocations]
    exact List.mem_range.mpr hpos
  obtain ⟨node, hnode, hmem⟩ := (scanNodes_used h.nodes).1 0 ((BTreeSet.mem_toList _).mp hused)
  exact hfree node hnode 0 hmem

theorem Validated.feedback_eq_nil
    (hfree : ∀ node ∈ plan.nodes, ∀ f, .feedback f ∉ node.inputBindings) : plan.feedback = [] := by
  by_contra hne
  have hpos := List.length_pos_iff.mpr hne
  have hused : 0 ∈ scan.usedFeedback.toList := by
    rw [h.feedback]
    exact List.mem_range.mpr hpos
  obtain ⟨node, hnode, hmem⟩ := (scanNodes_used h.nodes).2 0 ((BTreeSet.mem_toList _).mp hused)
  exact hfree node hnode 0 hmem

end

end Validated

end Blut.GraphCore
