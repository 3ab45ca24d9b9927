/-
  Port contracts across a lowering.

  A child is attached to a node only when `subgraph_implements_descriptor` finds every inner
  interface port equal to the node's own, up to its name. A lowering is attached to a
  descriptor by `validate_subgraph_lowering`, which compares names alone: it sees to it that every
  mapped port is there on both sides. So every registered lowering agrees with its descriptor
  along a run exactly when no accepted call maps a port to one of another contract
  (`lowerings_agree_iff`); a run that does is `lowering_disagrees`.
-/
import Blut.GraphCore.RegistryInvariant

namespace Blut.GraphCore

open Blut.Lib

/-- Everything `subgraph_implements_descriptor` compares: all of the contract but the name. -/
structure SameContract (outer inner : PortDescriptor) : Prop where
  semanticType : inner.semanticType = outer.semanticType
  domain : inner.domain = outer.domain
  extent : inner.extent = outer.extent
  proof : inner.proof = outer.proof
  policy : inner.policy = outer.policy
  fidelity : inner.fidelity = outer.fidelity
  lease : inner.lease = outer.lease
  optional : inner.optional = outer.optional
  layouts : inner.layouts = outer.layouts
  maxBytes : inner.maxBytes = outer.maxBytes

/-- Every mapped outer port agrees with the inner port behind the interface port it is mapped
    to. `inner` finds that port. -/
def MapsAgree (ports : List PortDescriptor) (maps : List PortMap)
    (interfaces : List SubgraphInterfacePort) (inner : PortRef → Option PortDescriptor) : Prop :=
  ∀ map ∈ maps, ∃ outer ∈ ports, outer.name = map.outer ∧ ∃ interface ∈ interfaces,
    interface.name = map.inner ∧ ∃ port, inner interface.inner = some port ∧ SameContract outer port

/-- The agreement of a descriptor's lowering with the descriptor's own ports. -/
def LoweringAgrees (registry : KernelRegistry) (d : NodeDescriptor)
    (lowering : SubgraphLowering) : Prop :=
  ∃ schema, registry.subgraphs.get? lowering.subgraph = some schema ∧
    MapsAgree d.inputs lowering.inputMap schema.inputs (schema.inputPort registry.descriptors) ∧
    MapsAgree d.outputs lowering.outputMap schema.outputs (schema.outputPort registry.descriptors)

/-- Every registered lowering agrees. -/
def LoweringsAgree (registry : KernelRegistry) : Prop :=
  ∀ key d, registry.descriptors.get? key = some d → ∀ lowering, d.subgraph = some lowering →
    LoweringAgrees registry d lowering

/-! ## Mapped pairs -/

variable {inner : PortRef → Option PortDescriptor} {interfaces : List SubgraphInterfacePort}
  {ports : List PortDescriptor} {maps : List PortMap}

/-- Where a port is mapped to one behind an interface, the two have the same contract. -/
def MapsMatch (ports : List PortDescriptor) (maps : List PortMap)
    (interfaces : List SubgraphInterfacePort) (inner : PortRef → Option PortDescriptor) : Prop :=
  ∀ map ∈ maps, ∀ outer ∈ ports, outer.name = map.outer → ∀ interface ∈ interfaces,
    interface.name = map.inner → ∀ port, inner interface.inner = some port → SameContract outer port

/-- The mapped pairs of a descriptor's lowering match. -/
def LoweringMatches (registry : KernelRegistry) (d : NodeDescriptor) : Prop :=
  ∀ lowering, d.subgraph = some lowering → ∀ schema,
    registry.subgraphs.get? lowering.subgraph = some schema →
      MapsMatch d.inputs lowering.inputMap schema.inputs
          (schema.inputPort registry.descriptors) ∧
        MapsMatch d.outputs lowering.outputMap schema.outputs
          (schema.outputPort registry.descriptors)

/-- Maps that pass the check of `validate_subgraph_lowering` have both sides. -/
theorem mapsAgree_iff (hports : (ports.map PortDescriptor.name).Nodup)
    (hinterfaces : (interfaces.map SubgraphInterfacePort.name).Nodup)
    (hinner : ∀ interface ∈ interfaces, ∃ port, inner interface.inner = some port)
    (hmaps : validPortMaps (ports.map PortDescriptor.name) maps
      (interfaces.map SubgraphInterfacePort.name) = true) :
    MapsAgree ports maps interfaces inner ↔ MapsMatch ports maps interfaces inner := by
  constructor
  · intro h map hmap outer houter hname interface hinterface hiname port hport
    obtain ⟨outer', houter', hname', interface', hinterface', hiname', port', hport', hsame⟩ :=
      h map hmap
    obtain rfl := List.inj_on_of_nodup_map hports houter houter' (hname.trans hname'.symm)
    obtain rfl := List.inj_on_of_nodup_map hinterfaces hinterface hinterface'
      (hiname.trans hiname'.symm)
    obtain rfl := Option.some.inj (hport.symm.trans hport')
    exact hsame
  · intro h map hmap
    unfold validPortMaps at hmaps
    simp only [Bool.and_eq_true, decide_eq_true_eq, List.all_eq_true, List.contains_iff_mem]
      at hmaps
    obtain ⟨⟨⟨hnames, -⟩, hcontains⟩, -⟩ := hmaps
    have hmem := (BTreeSet.ofList_eq_iff.mp hnames map.outer).mpr (List.mem_map_of_mem hmap)
    obtain ⟨outer, houter, hname⟩ := List.mem_map.mp hmem
    obtain ⟨interface, hinterface, hiname⟩ := List.mem_map.mp (hcontains map hmap)
    obtain ⟨port, hport⟩ := hinner interface hinterface
    exact ⟨outer, houter, hname, interface, hinterface, hiname, port, hport,
      h map hmap outer houter hname interface hinterface hiname port hport⟩

/-! ## Along a run -/

variable {lowering : SubgraphLowering} {registry : KernelRegistry} {d : NodeDescriptor}

theorem MapsAgree.mono {inner' : PortRef → Option PortDescriptor}
    (hmono : ∀ ref port, inner ref = some port → inner' ref = some port)
    (h : MapsAgree ports maps interfaces inner) : MapsAgree ports maps interfaces inner' := by
  intro map hmap
  obtain ⟨outer, hmem, hname, interface, himem, hiname, port, hport, hsame⟩ := h map hmap
  exact ⟨outer, hmem, hname, interface, himem, hiname, port, hmono _ _ hport, hsame⟩

theorem LoweringAgrees.mono {small large : KernelRegistry} (hext : small.Extends large)
    (h : LoweringAgrees small d lowering) :
    LoweringAgrees large d lowering := by
  obtain ⟨schema, hget, hin, hout⟩ := h
  exact ⟨schema, hext.subgraph _ _ hget, hin.mono fun _ _ hp => hext.inputPort hp,
    hout.mono fun _ _ hp => hext.outputPort hp⟩

/-- A registered descriptor agrees with its lowering where the mapped pairs match. -/
theorem loweringAgrees_iff {blake3 : Blake3} (hi : registry.Invariant blake3) {key : String × Nat}
    (hget : registry.descriptors.get? key = some d) :
    (∀ lowering, d.subgraph = some lowering → LoweringAgrees registry d lowering) ↔
      LoweringMatches registry d := by
  have hd := hi.descriptor key d hget
  refine forall₂_congr fun lowering hl => ?_
  obtain ⟨schema, hv⟩ := hi.lowering key d hget lowering hl
  have hs := hi.schema _ _ hv.registered
  obtain ⟨hin, hout⟩ := invalidSchema_interfaces hs.normal hs.valid
  have hinputs := mapsAgree_iff hd.inputs_nodup hin (fun port hp => (hs.input port hp).2) hv.inputs
  have houtputs := mapsAgree_iff hd.outputs_nodup hout
    (fun port hp => (hs.output port hp).2) hv.outputs
  constructor
  · rintro ⟨schema', hschema', hagree, hagree'⟩ schema'' hschema''
    obtain rfl := Option.some.inj (hv.registered.symm.trans hschema')
    obtain rfl := Option.some.inj (hv.registered.symm.trans hschema'')
    exact ⟨hinputs.mp hagree, houtputs.mp hagree'⟩
  · intro h
    obtain ⟨hmatch, hmatch'⟩ := h schema hv.registered
    exact ⟨schema, hv.registered, hinputs.mpr hmatch, houtputs.mpr hmatch'⟩

/-- If the call registers a descriptor and is accepted, the mapped pairs of the entry match. -/
def RegisterCall.Matches (blake3 : Blake3) (registry : KernelRegistry) : RegisterCall → Prop
  | .descriptor d => (RegisterCall.run blake3 registry (.descriptor d)).1 = .ok () →
    LoweringMatches (RegisterCall.run blake3 registry (.descriptor d)).2 (d.normalized d.config)
  | .subgraph _ => True
  | .kernel _ => True

/-- One call keeps the agreement exactly where it matches. -/
theorem LoweringsAgree.step_iff {blake3 : Blake3} {call : RegisterCall}
    (hi : (call.run blake3 registry).2.Invariant blake3) (hagree : LoweringsAgree registry) :
    LoweringsAgree (call.run blake3 registry).2 ↔ call.Matches blake3 registry := by
  rcases run_cases blake3 registry call with ⟨fault, hr⟩ | ⟨d, stored, rfl, ha, hr⟩ |
    ⟨s, stored, rfl, ha, hr⟩ | ⟨k, stored, rfl, -, hr⟩
  · rw [hr]
    refine iff_of_true hagree ?_
    cases call with
    | descriptor d =>
      intro hok
      rw [hr] at hok
      cases hok
    | subgraph s => trivial
    | kernel k => trivial
  · obtain ⟨⟨config, -, hstored⟩, -, hfresh, -⟩ := admitDescriptor_ok ha
    rw [hr] at hi ⊢
    have hnew := loweringAgrees_iff hi (BTreeMap.get?_insert_self ..)
    -- the ports of the entry do not depend on its schema of parameters
    have hmatches : RegisterCall.Matches blake3 registry (.descriptor d) ↔
        LoweringMatches { registry with
          descriptors := registry.descriptors.insert stored.key stored } stored := by
      simp only [RegisterCall.Matches]
      rw [hr, hstored]
      exact ⟨fun h => h rfl, fun h _ => h⟩
    rw [hmatches, ← hnew]
    refine ⟨fun h lowering hl => h _ _ (BTreeMap.get?_insert_self ..) lowering hl, fun h => ?_⟩
    intro key d' hget lowering hl
    rcases BTreeMap.get?_insert_cases hget with hold | ⟨-, rfl⟩
    · exact (hagree key d' hold lowering hl).mono (extends_descriptor hfresh)
    · exact h lowering hl
  · obtain ⟨-, hfresh⟩ := admitSubgraph_ok ha
    rw [hr]
    refine iff_of_true (fun key d hget lowering hl => ?_) trivial
    exact (hagree key d hget lowering hl).mono (extends_subgraph hfresh)
  · rw [hr]
    refine iff_of_true (fun key d hget lowering hl => ?_) trivial
    exact (hagree key d hget lowering hl).mono (extends_kernel _)

/-- No accepted call of the run maps a port to one of another contract. -/
def RunMatches (blake3 : Blake3) (calls : List RegisterCall) : Prop :=
  ∀ done call rest, calls = done ++ call :: rest →
    call.Matches blake3 (KernelRegistry.after blake3 done)

/-- Every registered lowering agrees with its descriptor's ports in every registry along a run
    exactly where every accepted call of the run maps ports to ports of the same contract. -/
theorem lowerings_agree_iff (blake3 : Blake3) (calls : List RegisterCall) :
    (∀ n, LoweringsAgree (KernelRegistry.after blake3 (calls.take n))) ↔
      RunMatches blake3 calls := by
  have hstep : ∀ done call, LoweringsAgree (KernelRegistry.after blake3 done) →
      (LoweringsAgree (KernelRegistry.after blake3 (done ++ [call])) ↔
        call.Matches blake3 (KernelRegistry.after blake3 done)) := by
    intro done call hagree
    have hi : (KernelRegistry.after blake3 (done ++ [call])).Invariant blake3 :=
      KernelRegistry.Reachable.invariant ⟨done ++ [call], rfl⟩
    rw [after_append] at hi ⊢
    exact LoweringsAgree.step_iff hi hagree
  constructor
  · rintro h done call rest rfl
    have hbefore := h done.length
    have hafter := h (done.length + 1)
    rw [List.take_left] at hbefore
    rw [List.take_length_add_append, List.take_succ_cons, List.take_zero] at hafter
    exact (hstep done call hbefore).mp hafter
  · intro h n
    induction n with
    | zero =>
      intro key d hget
      exact absurd hget (by simp [KernelRegistry.after, KernelRegistry.empty])
    | succ n ih =>
      rw [List.take_add_one]
      cases hcall : calls[n]? with
      | none => simpa using ih
      | some call =>
        obtain ⟨hlt, rfl⟩ := List.getElem?_eq_some_iff.mp hcall
        refine (hstep _ _ ih).mpr (h _ _ (calls.drop (n + 1)) ?_)
        rw [← List.drop_eq_getElem_cons, List.take_append_drop]

/-! ## A run with one lowering -/

/-- A descriptor that lowers to `processSchema`, with an input of the given type. -/
def loweredDescriptor (semanticType : String) : NodeDescriptor :=
  { fixtureDescriptor "outer" true with
    inputs := [PortDescriptor.opaqueBlob "in" semanticType 4096]
    subgraph := some
      { subgraph := processSchema.id
        inputMap := [{ outer := "in", inner := "in" }]
        outputMap := [{ outer := "out", inner := "out" }]
        configMap := [] } }

/-- The three registrations: the inner node, the schema, the outer node. -/
def loweringCalls (semanticType : String) : List RegisterCall :=
  [.descriptor (fixtureDescriptor "process" true), .subgraph processSchema,
    .descriptor (loweredDescriptor semanticType)]

/-- The outer input has another type than the inner one, and every registration succeeds. -/
theorem lowering_disagrees :
    ¬ LoweringsAgree (KernelRegistry.after processBlake3 (loweringCalls "other.block")) := by
  intro h
  have hget : (KernelRegistry.after processBlake3 (loweringCalls "other.block")).descriptors.get?
      (loweredDescriptor "other.block").key =
        some ((loweredDescriptor "other.block").normalized { fields := [] }) := by decide +kernel
  have hsub : (KernelRegistry.after processBlake3 (loweringCalls "other.block")).subgraphs.get?
      processSchema.id = some processSchema := by decide +kernel
  obtain ⟨schema, hschema, hin, -⟩ := h _ _ hget _ rfl
  have hsame : schema = processSchema := Option.some.inj (hschema.symm.trans hsub)
  rw [hsame] at hin
  obtain ⟨outer, houter, -, interface, hinterface, -, port, hport, hcontract⟩ :=
    hin { outer := "in", inner := "in" } (by decide +kernel)
  have houtType : ∀ outer ∈ ((loweredDescriptor "other.block").normalized { fields := [] }).inputs,
      outer.semanticType = "other.block" := by decide +kernel
  have hinType : ∀ interface ∈ processSchema.inputs, ((processSchema.inputPort (KernelRegistry.after
      processBlake3 (loweringCalls "other.block")).descriptors interface.inner).all fun port =>
        port.semanticType = "sample.block") = true := by decide +kernel
  have hinner := hinType interface hinterface
  rw [hport, Option.all_some, decide_eq_true_eq, hcontract.semanticType, houtType outer houter]
    at hinner
  exact absurd hinner (by decide)

end Blut.GraphCore
