/-
  Renumbering of the buffers and layouts of the ports (`canonicalize_buffers`,
  `synchronize_port_layouts`).

  Renumbering permutes the wires and leaves the netlist what it was
  (`canonicalizeBuffers_netlist`). Synchronizing touches the layouts of the contracts only.
-/
import Blut.GraphCore.Schedule

namespace Blut.GraphCore

open Blut.Lib

/-! ## Renumbering -/

variable {loc : Location} {binding' binding : InputBinding}

/-- The wires with their old numbers, in the order of the new ones. -/
def rankedWires (wires : List Wire) : List (Wire × Nat) :=
  sortBy (fun entry => (entry.1.plan entry.2).order) wires.zipIdx

/-- The wires in the order of the renumbered buffers. -/
def sortedWires (wires : List Wire) : List Wire := (rankedWires wires).map Prod.fst

theorem rankedWires_perm (wires : List Wire) : (rankedWires wires).Perm wires.zipIdx :=
  sortBy_perm _ _

theorem sortedWires_perm (wires : List Wire) : (sortedWires wires).Perm wires := by
  have hperm := (rankedWires_perm wires).map Prod.fst
  rw [List.zipIdx_map_fst] at hperm
  exact hperm

variable {wires : List Wire} {remap : BTreeMap BufferId BufferId} {nodes nodes' : List CompiledNode}

theorem mem_rankedWires {w : Wire} {b : Nat} : (w, b) ∈ rankedWires wires ↔ wires[b]? = some w := by
  rw [(rankedWires_perm wires).mem_iff]
  exact List.mk_mem_zipIdx_iff_getElem?

/-- The new number of every old one. -/
def renumbering (wires : List Wire) : BTreeMap BufferId BufferId :=
  BTreeMap.ofList ((rankedWires wires).zipIdx.map fun entry => (entry.1.2, entry.2))

theorem get?_renumbering {b new : Nat} :
    (renumbering wires).get? b = some new ↔ ∃ w, (rankedWires wires)[new]? = some (w, b) := by
  have hkeys : (((rankedWires wires).zipIdx.map fun entry => (entry.1.2, entry.2)).map Prod.fst) =
      (rankedWires wires).map Prod.snd := by
    rw [List.map_map]
    have hfst : (rankedWires wires).map Prod.snd =
        ((rankedWires wires).zipIdx.map Prod.fst).map Prod.snd := by
      rw [List.zipIdx_map_fst]
    rw [hfst, List.map_map]
    rfl
  have hnd : ((rankedWires wires).map Prod.snd).Nodup := by
    rw [((rankedWires_perm wires).map Prod.snd).nodup_iff, List.zipIdx_map_snd]
    exact List.nodup_range'
  unfold renumbering
  rw [BTreeMap.get?_ofList_eq_some (by rw [hkeys]; exact hnd), List.mem_map]
  constructor
  · rintro ⟨⟨⟨w, b'⟩, new'⟩, hmem, heq⟩
    obtain ⟨rfl, rfl⟩ := Prod.mk.inj heq
    exact ⟨w, List.mk_mem_zipIdx_iff_getElem?.mp hmem⟩
  · rintro ⟨w, hw⟩
    exact ⟨((w, b), new), List.mk_mem_zipIdx_iff_getElem?.mpr hw, rfl⟩

/-- A wire keeps its place in the netlist under its new number. -/
theorem renumbered_wire {new : Nat} {w : Wire} : (sortedWires wires)[new]? = some w ↔
      ∃ b, wires[b]? = some w ∧ (renumbering wires).get? b = some new := by
  unfold sortedWires
  rw [List.getElem?_map, Option.map_eq_some_iff]
  constructor
  · rintro ⟨⟨w', b⟩, hget, rfl⟩
    exact ⟨b, mem_rankedWires.mp (List.mem_of_getElem? hget), get?_renumbering.mpr ⟨w', hget⟩⟩
  · rintro ⟨b, hw, hnew⟩
    obtain ⟨w', hget⟩ := get?_renumbering.mp hnew
    have hw' := mem_rankedWires.mp (List.mem_of_getElem? hget)
    rw [Option.some.inj (hw.symm.trans hw')]
    exact ⟨(w', b), hget, rfl⟩

theorem sorted_wirePlans (wires : List Wire) :
    sortBy BufferPlan.order (wirePlans wires 0) =
      (rankedWires wires).map fun entry => entry.1.plan entry.2 := by
  unfold wirePlans rankedWires
  exact sortBy_map BufferPlan.order (fun entry : Wire × Nat => entry.1.plan entry.2) wires.zipIdx

theorem sorted_ids (wires : List Wire) :
    BTreeMap.ofList ((sortBy BufferPlan.order (wirePlans wires 0)).zipIdx.map
      fun (buffer, new) => (buffer.id, new)) = renumbering wires := by
  rw [sorted_wirePlans, List.zipIdx_map, List.map_map]
  rfl

theorem renumbered_plans (wires : List Wire) :
    ((sortBy BufferPlan.order (wirePlans wires 0)).zipIdx.map
      fun (buffer, new) => { buffer with id := new, aliases := none }) =
      wirePlans (sortedWires wires) 0 := by
  rw [sorted_wirePlans, List.zipIdx_map, List.map_map]
  unfold wirePlans sortedWires
  rw [List.zipIdx_map, List.map_map]
  rfl

/-- A node with remapped bindings is otherwise the same. -/
structure RemappedNode (remap : BTreeMap BufferId BufferId) (node node' : CompiledNode) : Prop where
  frame : node'.unbound = node.unbound
  input : ∀ (i : Nat) (binding' : InputBinding), node'.inputBindings[i]? = some binding' ↔
    ∃ binding, node.inputBindings[i]? = some binding ∧ remapInput remap binding = .ok binding'
  output : ∀ (i : Nat) (binding' : OutputBinding), node'.outputBindings[i]? = some binding' ↔
    ∃ binding, node.outputBindings[i]? = some binding ∧ remapOutput remap binding = .ok binding'

theorem remapNode_ok {node node' : CompiledNode} (h : remapNode remap node = .ok node') :
    RemappedNode remap node node' := by
  unfold remapNode at h
  obtain ⟨inputs, hinputs, h⟩ := bind_eq_ok.mp h
  obtain ⟨outputs, houtputs, h⟩ := bind_eq_ok.mp h
  rw [← Except.ok.inj h]
  refine ⟨?_, fun i binding' => mapM_ok_iff hinputs, fun i binding' => mapM_ok_iff houtputs⟩
  unfold CompiledNode.unbound
  simp [mapM_ok_length hinputs, mapM_ok_length houtputs, List.map_const']

theorem remapInput_buffer {new : BufferId} :
    remapInput remap binding = .ok (.buffer new) ↔
      ∃ b, binding = .buffer b ∧ remap.get? b = some new := by
  cases binding <;> simp [remapInput, bind_eq_ok, BTreeMap.index_eq_ok, pure_eq_ok]

theorem remapInput_kept (h : ∀ b, binding' ≠ .buffer b) :
    remapInput remap binding = .ok binding' ↔ binding = binding' := by
  cases binding with
  | buffer id =>
    simp only [remapInput, bind_eq_ok, pure_eq_ok, Except.ok.injEq]
    exact iff_of_false (fun hnew => hnew.elim fun new hnew => h new hnew.2.symm) fun heq =>
      h id heq.symm
  | invocation _ | feedback _ | absent => simp [remapInput]

theorem remapOutput_buffer {binding : OutputBinding} {new : BufferId} :
    remapOutput remap binding = .ok (.buffer new) ↔
      ∃ b, binding = .buffer b ∧ remap.get? b = some new := by
  cases binding <;> simp [remapOutput, bind_eq_ok, BTreeMap.index_eq_ok, pure_eq_ok]

theorem remapped_at {β : Type} {f : CompiledNode → List β} {g : β → Outcome CompileError β}
    (hf : ∀ node node', RemappedNode remap node node' → ∀ (i : Nat) binding',
      (f node')[i]? = some binding' ↔ ∃ binding, (f node)[i]? = some binding ∧
        g binding = .ok binding')
    (h : nodes.mapM (remapNode remap) = .ok nodes') {binding' : β} :
    (nodes'[loc.1]?.bind fun node => (f node)[loc.2]?) = some binding' ↔
      ∃ binding, (nodes[loc.1]?.bind fun node => (f node)[loc.2]?) = some binding ∧
        g binding = .ok binding' := by
  simp only [Option.bind_eq_some_iff]
  constructor
  · rintro ⟨node', hnode', hbinding⟩
    obtain ⟨node, hnode, hremap⟩ := (mapM_ok_iff h).mp hnode'
    obtain ⟨binding, hold, hnew⟩ := (hf _ _ (remapNode_ok hremap) _ _).mp hbinding
    exact ⟨binding, ⟨node, hnode, hold⟩, hnew⟩
  · rintro ⟨binding, ⟨node, hnode, hold⟩, hnew⟩
    obtain ⟨node', hnode', hremap⟩ := mapM_ok_getElem? h _ node hnode
    exact ⟨node', hnode', (hf _ _ (remapNode_ok hremap) _ _).mpr ⟨binding, hold, hnew⟩⟩

section

variable (h : nodes.mapM (remapNode remap) = .ok nodes')
include h

theorem remapped_inputAt :
    inputAt nodes' loc = some binding' ↔
      ∃ binding, inputAt nodes loc = some binding ∧ remapInput remap binding = .ok binding' :=
  remapped_at (fun _ _ => RemappedNode.input) h

theorem remapped_outputAt {binding' : OutputBinding} :
    outputAt nodes' loc = some binding' ↔
      ∃ binding, outputAt nodes loc = some binding ∧ remapOutput remap binding = .ok binding' :=
  remapped_at (fun _ _ => RemappedNode.output) h

theorem remapped_frame :
    nodes'.map CompiledNode.unbound = nodes.map CompiledNode.unbound :=
  (map_eq_of_forall₂ (mapM_ok_forall₂ h) fun _ _ _ _ hremap =>
    (remapNode_ok hremap).frame.symm).symm

end

/-- Renumbering keeps the netlist, with its wires in the new order. -/
theorem canonicalizeBuffers_netlist {emitted : List CompiledNode} {locs : List Location}
    {wiring wiring' : Wiring} (hnet : Netlist emitted locs wires wiring)
    (h : canonicalizeBuffers wiring = .ok wiring') :
    Netlist emitted locs (sortedWires wires) wiring' := by
  unfold canonicalizeBuffers at h
  obtain ⟨nodes, hnodes, h⟩ := bind_eq_ok.mp h
  rw [hnet.buffers] at hnodes h
  rw [← Except.ok.inj h]
  rw [sorted_ids] at hnodes
  refine ⟨renumbered_plans wires, (remapped_frame hnodes).trans hnet.frame, fun loc new => ?_,
    fun loc k => ?_, fun loc new => ?_⟩
  · simp only [remapped_inputAt hnodes, remapInput_buffer]
    constructor
    · rintro ⟨_, hget, b, rfl, hnew⟩
      obtain ⟨w, hw, hdst⟩ := (hnet.buffer loc b).mp hget
      exact ⟨w, renumbered_wire.mpr ⟨b, hw, hnew⟩, hdst⟩
    · rintro ⟨w, hw, hdst⟩
      obtain ⟨b, hold, hnew⟩ := renumbered_wire.mp hw
      exact ⟨_, (hnet.buffer loc b).mpr ⟨w, hold, hdst⟩, b, rfl, hnew⟩
  · simp [remapped_inputAt hnodes, remapInput_kept, hnet.invocation]
  · simp only [remapped_outputAt hnodes, remapOutput_buffer]
    constructor
    · rintro ⟨_, hget, b, rfl, hnew⟩
      obtain ⟨w, hw, hsrc⟩ := (hnet.output loc b).mp hget
      exact ⟨w, renumbered_wire.mpr ⟨b, hw, hnew⟩, hsrc⟩
    · rintro ⟨w, hw, hsrc⟩
      obtain ⟨b, hold, hnew⟩ := renumbered_wire.mp hw
      exact ⟨_, (hnet.output loc b).mpr ⟨w, hold, hsrc⟩, b, rfl, hnew⟩

/-! ## Layouts of the ports -/

variable {buffers : List BufferPlan}

/-- The step with other contracts of its ports. -/
def Recontracted (node node' : CompiledNode) : Prop :=
  { node' with inputContracts := node.inputContracts
               outputContracts := node.outputContracts } = node

theorem synchronizePortLayouts_ok (h : synchronizePortLayouts nodes buffers = .ok nodes') :
    List.Forall₂ Recontracted nodes nodes' := by
  refine (mapM_ok_forall₂ h).imp fun node node' hnode => ?_
  simp only [bind_eq_ok] at hnode
  obtain ⟨inputs, -, outputs, -, hnode⟩ := hnode
  rw [← Except.ok.inj hnode]
  rfl

end Blut.GraphCore
