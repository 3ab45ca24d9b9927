/-
  What the lowering of a candidate returns.

  The wires of the groups go from earlier to later steps (`allWires_forward`), so their netlist is
  disciplined. Renumbering, layouts and aliases change none of that: `lowerSemanticRegions_ok`
  says what a candidate is lowered to, and `LoweredFrom.disciplined` that its buffers are written
  once, before they are read.
-/
import Blut.GraphCore.Buffers

namespace Blut.GraphCore

open Blut.Lib

/-! ## Wires go forward -/

/-- A wire that is read only after it is written. -/
def Wire.Forward (wire : Wire) : Prop := ∀ dst ∈ wire.dsts, wire.src.1 < dst.1

theorem pathWires_forward {consumer : Location} {path : List LayoutConversion}
    {step : StepId} (hconsumer : ∀ s ∈ List.range' step path.length, s < consumer.1) :
    ∀ wire ∈ pathWires consumer path step, wire.Forward := by
  induction path generalizing step with
  | nil => exact fun wire hwire => absurd hwire List.not_mem_nil
  | cons conversion path ih =>
    rw [List.length_cons, List.range'_succ] at hconsumer
    intro wire hwire
    rcases List.mem_cons.mp hwire with rfl | hrest
    · intro dst hdst
      rw [List.mem_singleton.mp hdst]
      cases path with
      | nil => exact hconsumer step List.mem_cons_self
      | cons => exact Nat.lt_succ_self step
    · exact ih (fun s hs => hconsumer s (List.mem_cons_of_mem _ hs)) wire hrest

section Candidate

variable {context : PhysicalLowering} {regions : List CompiledNode} {groups : List PortGroup}
  {emission : Emission}

/-- A route is entered after its producer. -/
theorem Laid.entry_later (hlaid : Laid regions groups emission)
    (hrouted : Routed context regions groups) {job : Job} (hjob : job ∈ allJobs groups) :
    emission.stepAt job.group.producerRegion < (jobEntry emission job).1 := by
  obtain ⟨-, -, -, hforward⟩ := hrouted.job job hjob
  unfold jobEntry
  cases hpath : conversionsOf job.route.path with
  | nil => exact hlaid.ascending _ _ hforward (hrouted.consumer_lt hjob)
  | cons conversion path =>
    refine hlaid.after job hjob _ hforward _ ?_
    unfold convSteps
    rw [hpath, List.length_cons, List.range'_succ]
    exact List.mem_cons_self

theorem allWires_forward (hlaid : Laid regions groups emission)
    (hrouted : Routed context regions groups) :
    ∀ wire ∈ allWires emission groups, wire.Forward := by
  intro wire hwire
  obtain ⟨⟨group, g⟩, hgroup, hwire⟩ := List.mem_flatMap.mp hwire
  have hjobs : ∀ job ∈ groupJobs (group, g), job ∈ allJobs groups := fun job hjob => by
    rw [allJobs_eq]
    exact List.mem_flatMap.mpr ⟨(group, g), hgroup, hjob⟩
  rcases List.mem_cons.mp hwire with rfl | hrest
  · intro dst hdst
    obtain ⟨job, hjob, rfl⟩ := List.mem_map.mp hdst
    obtain ⟨route, -, rfl⟩ := List.mem_map.mp hjob
    exact hlaid.entry_later hrouted (hjobs _ hjob)
  · obtain ⟨job, hjob, hwire⟩ := List.mem_flatMap.mp hrest
    have hbefore := hlaid.before job (hjobs job hjob)
    unfold convSteps at hbefore
    exact pathWires_forward hbefore wire hwire

end Candidate

/-! ## Disciplined netlists -/

variable {locs : List Location} {wires : List Wire}

theorem Wire.le_lastConsumer {wire : Wire} {dst : Location} (hdst : dst ∈ wire.dsts)
    (id : BufferId) : dst.1 ≤ (wire.plan id).lastConsumer := by
  have hmem : dst.1 ∈ sortDedup (wire.dsts.map Prod.fst) :=
    mem_sortDedup.mpr (List.mem_map_of_mem hdst)
  have hne := List.ne_nil_of_mem hmem
  have hsorted : (sortDedup (wire.dsts.map Prod.fst)).Pairwise (· ≤ ·) :=
    (sortDedup_sorted _).imp fun hlt => le_of_lt hlt
  show dst.1 ≤ ((sortDedup (wire.dsts.map Prod.fst)).getLast?).getD 0
  rw [List.getLast?_eq_getLast_of_ne_nil hne]
  exact hsorted.rel_getLast_of_rel_getLast_getLast hmem le_rfl

theorem getElem?_wirePlans {b : Nat} {buffer : BufferPlan} :
    (wirePlans wires 0)[b]? = some buffer ↔
      ∃ wire, wires[b]? = some wire ∧ buffer = wire.plan b := by
  unfold wirePlans
  simp only [List.getElem?_map, List.getElem?_zipIdx, Option.map_map, Option.map_eq_some_iff,
    Function.comp_apply, Nat.zero_add]
  exact exists_congr fun wire => and_congr_right fun _ => eq_comm

variable {nodes nodes' : List CompiledNode} {node node' : CompiledNode}

theorem stepIds_of_frame (hframe : nodes'.map CompiledNode.unbound = nodes.map CompiledNode.unbound)
    (hids : ∀ (s : Nat) (node : CompiledNode), nodes[s]? = some node → node.id = s) (s : Nat)
    (node' : CompiledNode) (hnode' : nodes'[s]? = some node') : node'.id = s := by
  have hget := congrArg (fun l => l[s]?) hframe
  simp only [List.getElem?_map, hnode', Option.map_some] at hget
  obtain ⟨node, hnode, heq⟩ := Option.map_eq_some_iff.mp hget.symm
  exact (congrArg CompiledNode.id heq).symm.trans (hids s node hnode)

/-- The netlist of forward wires is disciplined. -/
theorem Netlist.disciplined {emitted : List CompiledNode} {wiring : Wiring}
    (hnet : Netlist emitted locs wires wiring)
    (hids : ∀ (s : Nat) (node : CompiledNode), emitted[s]? = some node → node.id = s)
    (hforward : ∀ wire ∈ wires, wire.Forward) : Disciplined wiring.nodes wiring.buffers := by
  have hbuffer : ∀ (b : Nat) (buffer : BufferPlan), wiring.buffers[b]? = some buffer ↔
      ∃ wire, wires[b]? = some wire ∧ buffer = wire.plan b := by
    intro b buffer
    rw [hnet.buffers]
    exact getElem?_wirePlans
  refine ⟨stepIds_of_frame hnet.frame hids, fun s i b h => ?_, fun s o b h => ?_,
    fun b buffer h => ?_, fun loc loc' b h h' => ?_⟩
  · obtain ⟨wire, hwire, hdst⟩ := (hnet.buffer (s, i) b).mp h
    exact ⟨wire.plan b, (hbuffer b _).mpr ⟨wire, hwire, rfl⟩,
      hforward wire (List.mem_of_getElem? hwire) _ hdst, wire.le_lastConsumer hdst b⟩
  · obtain ⟨wire, hwire, hsrc⟩ := (hnet.output (s, o) b).mp h
    exact ⟨wire.plan b, (hbuffer b _).mpr ⟨wire, hwire, rfl⟩, congrArg Prod.fst hsrc⟩
  · obtain ⟨wire, hwire, rfl⟩ := (hbuffer b buffer).mp h
    exact ⟨wire.src.2, (hnet.output _ b).mpr ⟨wire, hwire, rfl⟩⟩
  · obtain ⟨wire, hwire, hsrc⟩ := (hnet.output loc b).mp h
    obtain ⟨wire', hwire', hsrc'⟩ := (hnet.output loc' b).mp h'
    rw [← hsrc, ← hsrc', Option.some.inj (hwire.symm.trans hwire')]

/-! ## What the later passes change -/

variable {buffers : List BufferPlan} {node'' : CompiledNode}

/-- The step reads no other buffer than before, and writes the same. -/
structure NarrowedNode (node node' : CompiledNode) : Prop where
  id : node'.id = node.id
  outputs : node'.outputBindings = node.outputBindings
  inputs : ∀ (i b : Nat), node'.inputBindings[i]? = some (.buffer b) →
    node.inputBindings[i]? = some (.buffer b)

theorem NarrowedNode.refl (node : CompiledNode) : NarrowedNode node node :=
  ⟨rfl, rfl, fun _ _ h => h⟩

theorem NarrowedNode.trans (h : NarrowedNode node node') (h' : NarrowedNode node' node'') :
    NarrowedNode node node'' :=
  ⟨h'.id.trans h.id, h'.outputs.trans h.outputs, fun i b hb => h.inputs i b (h'.inputs i b hb)⟩

theorem Disciplined.narrowed (hd : Disciplined nodes buffers)
    (h : List.Forall₂ NarrowedNode nodes nodes') : Disciplined nodes' buffers := by
  have hout : ∀ loc, outputAt nodes' loc = outputAt nodes loc :=
    bindings_eq _ (map_eq_of_forall₂ h fun _ _ _ _ hnarrow => hnarrow.outputs.symm).symm
  refine ⟨fun s node' hnode' => ?_, fun s i b hread => ?_, fun s o b hwrite => ?_,
    fun b buffer hbuffer => ?_, fun loc loc' b hloc hloc' => ?_⟩
  · obtain ⟨node, hnode, hnarrow⟩ := forall₂_getElem?_right h hnode'
    exact hnarrow.id.trans (hd.stepIds s node hnode)
  · unfold inputAt at hread
    obtain ⟨node', hnode', hbinding⟩ := Option.bind_eq_some_iff.mp hread
    obtain ⟨node, hnode, hnarrow⟩ := forall₂_getElem?_right h hnode'
    exact hd.reads s i b (Option.bind_eq_some_iff.mpr ⟨node, hnode, hnarrow.inputs i b hbinding⟩)
  · exact hd.writes s o b ((hout (s, o)).symm.trans hwrite)
  · obtain ⟨o, ho⟩ := hd.produced b buffer hbuffer
    exact ⟨o, (hout _).trans ho⟩
  · exact hd.unique loc loc' b ((hout loc).symm.trans hloc) ((hout loc').symm.trans hloc')

theorem Recontracted.refl (node : CompiledNode) : Recontracted node node := rfl

theorem Recontracted.trans (h : Recontracted node node') (h' : Recontracted node' node'') :
    Recontracted node node'' := by
  unfold Recontracted at *
  rw [← h, ← h']

theorem Recontracted.inputs (h : Recontracted node node') :
    node'.inputBindings = node.inputBindings := by
  rw [← h]

theorem Recontracted.narrowed (h : Recontracted node node') : NarrowedNode node node' := by
  refine ⟨?_, ?_, fun i b hb => ?_⟩
  · rw [← h]
  · rw [← h]
  · rw [← h.inputs]
    exact hb

theorem inputAt_recontracted (h : List.Forall₂ Recontracted nodes nodes') (loc : Location) :
    inputAt nodes' loc = inputAt nodes loc :=
  bindings_eq _ (map_eq_of_forall₂ h fun _ _ _ _ hsame => hsame.inputs.symm).symm loc

/-- The same buffer with another alias. -/
def Realiased (buffer buffer' : BufferPlan) : Prop :=
  buffer' = { buffer with aliases := buffer'.aliases }

theorem foldl_assignAlias (buffers : List BufferPlan) (state : List Slot × List BufferPlan) :
    ∃ placed, (buffers.foldl assignAlias state).2 = state.2 ++ placed ∧
      List.Forall₂ Realiased buffers placed := by
  induction buffers generalizing state with
  | nil => exact ⟨[], (List.append_nil _).symm, .nil⟩
  | cons buffer buffers ih =>
    obtain ⟨placed, heq, hplaced⟩ := ih (assignAlias state buffer)
    have hstep : ∃ buffer', (assignAlias state buffer).2 = state.2 ++ [buffer'] ∧
        Realiased buffer buffer' := by
      unfold assignAlias
      cases slotFor state.1 buffer with
      | none => exact ⟨buffer, rfl, rfl⟩
      | some slot => exact ⟨_, rfl, rfl⟩
    obtain ⟨buffer', hnext, hsame⟩ := hstep
    refine ⟨buffer' :: placed, ?_, .cons hsame hplaced⟩
    rw [List.foldl_cons, heq, hnext, List.append_assoc]
    rfl

theorem assignAliases_realiased (buffers : List BufferPlan) :
    List.Forall₂ Realiased buffers (assignAliases buffers) := by
  obtain ⟨placed, heq, hplaced⟩ := foldl_assignAlias buffers ([], [])
  unfold assignAliases
  rw [heq]
  exact hplaced

theorem Disciplined.realiased {buffers' : List BufferPlan} (hd : Disciplined nodes buffers)
    (h : List.Forall₂ Realiased buffers buffers') : Disciplined nodes buffers' := by
  refine ⟨hd.stepIds, fun s i b hread => ?_, fun s o b hwrite => ?_, fun b buffer' hb => ?_,
    hd.unique⟩
  · obtain ⟨buffer, hbuffer, hlt, hle⟩ := hd.reads s i b hread
    obtain ⟨buffer', hbuffer', hsame⟩ := forall₂_getElem? h hbuffer
    refine ⟨buffer', hbuffer', ?_⟩
    rw [hsame]
    exact ⟨hlt, hle⟩
  · obtain ⟨buffer, hbuffer, hproducer⟩ := hd.writes s o b hwrite
    obtain ⟨buffer', hbuffer', hsame⟩ := forall₂_getElem? h hbuffer
    refine ⟨buffer', hbuffer', ?_⟩
    rw [hsame]
    exact hproducer
  · obtain ⟨buffer, hbuffer, hsame⟩ := forall₂_getElem?_right h hb
    rw [hsame]
    exact hd.produced b buffer hbuffer

/-! ## The lowered candidate -/

/-- How the steps and buffers of a candidate came about. -/
structure LoweredFrom (context : PhysicalLowering) (regions : List CompiledNode)
    (groups : List PortGroup) (emission : Emission) (locs : List Location) (wiring : Wiring)
    (lowered : Lowered) : Prop where
  routed : Routed context regions groups
  laid : Laid regions groups emission
  invocations : List.Forall₂ (InvocationAt (regionTable context regions) emission.semanticSteps)
    (sortDedup context.graph.invocationInputs) locs
  netlist : Netlist emission.nodes locs (sortedWires (allWires emission groups)) wiring
  synced : List.Forall₂ Recontracted wiring.nodes lowered.nodes
  buffers : lowered.buffers = assignAliases wiring.buffers

section Candidate

variable {context : PhysicalLowering} {members : List Member} {segments : List Segment}
  {regions : List CompiledNode} {lowered : Lowered}

theorem lowerSemanticRegions_ok (hcut : IsCut context members segments regions)
    (hmembers : members.map Member.id = context.order) (hchecked : context.Checked)
    {maxConversionStates : Nat}
    (h : lowerSemanticRegions context regions maxConversionStates = .ok lowered) :
    ∃ groups emission locs wiring,
      LoweredFrom context regions groups emission locs wiring lowered := by
  simp only [lowerSemanticRegions, bind_eq_ok] at h
  obtain ⟨crossing, hcrossing, groups, hgroups, wired, hwired, wiring, hwiring, nodes, hnodes, _,
    -, _, -, _, -, h⟩ := h
  have hrouted := routed_of_ok hcut hmembers hchecked hcrossing hgroups
  obtain ⟨emission, locs, hlaid, hlocs, hnet⟩ := wireRegions_netlist hcut hchecked hrouted hwired
  rw [← Except.ok.inj h]
  exact ⟨groups, emission, locs, wiring, hrouted, hlaid, hlocs,
    canonicalizeBuffers_netlist hnet hwiring, synchronizePortLayouts_ok hnodes, rfl⟩

theorem LoweredFrom.disciplined {groups : List PortGroup} {emission : Emission} {wiring : Wiring}
    (h : LoweredFrom context regions groups emission locs wiring lowered) :
    Disciplined lowered.nodes lowered.buffers := by
  have hforward : ∀ wire ∈ sortedWires (allWires emission groups), wire.Forward := fun wire hwire =>
    allWires_forward h.laid h.routed wire ((sortedWires_perm _).mem_iff.mp hwire)
  rw [h.buffers]
  exact ((h.netlist.disciplined h.laid.ids hforward).narrowed
    (h.synced.imp fun _ _ => Recontracted.narrowed)).realiased (assignAliases_realiased _)

end Candidate

end Blut.GraphCore
