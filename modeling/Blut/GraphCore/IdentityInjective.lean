/-
  The identity texts are injective.

  `hash_plan`, `hash_graph` and `subgraph_identity` feed equal texts only for equal plans
  (apart from the plan id), for graphs and descriptors equal up to the order of their set-like
  lists, and for equal schemas (apart from the id) up to the order of their lists. Equal ids then
  mean equal content wherever BLAKE3 does not collide on the two texts (`identities_injective`).
-/
import Blut.GraphCore.Encoding
import Blut.GraphCore.Registry

namespace Blut.GraphCore

open Blut.Lib

/-! ## Plans -/

def CompiledPlan.Fits (plan : CompiledPlan) : Prop :=
  plan.schemaVersion < 2 ^ 32 ∧ plan.realm < 2 ^ 32 ∧ ListFits (· < 2 ^ 32) plan.order ∧
    ListFits CompiledNode.Fits plan.nodes ∧ ListFits PortRef.Fits plan.invocationPorts ∧
    ListFits BufferPlan.Fits plan.buffers ∧ ListFits FeedbackPlan.Fits plan.feedback ∧
    ListFits StrFits plan.propagatedProofs ∧ ListFits StrFits plan.propagatedPolicy ∧
    plan.resultingFidelity < 2 ^ 32 ∧ plan.peakBytes < 2 ^ 64 ∧
    plan.persistentStateBytes < 2 ^ 64 ∧ OptionFits SessionContract.Fits plan.session

instance : DecidablePred CompiledPlan.Fits := fun plan => by
  delta CompiledPlan.Fits
  infer_instance

abbrev CompiledPlan.SortedDomains (plan : CompiledPlan) : Prop :=
  ∀ node ∈ plan.nodes, node.failure.Sorted

/-- Two plans that differ at most in their ids. -/
abbrev CompiledPlan.SameExceptId (plan plan' : CompiledPlan) : Prop :=
  { plan with planId := plan'.planId } = plan'

theorem planPreimage_unambiguous :
    UnambiguousUpTo CompiledPlan.SameExceptId
      (fun plan => CompiledPlan.Fits plan ∧ plan.SortedDomains) planPreimage := by
  rintro plan plan' s s' ⟨⟨_, _, _, hnodes, _, _, _, _, _, _, _, _, _⟩, hsorted⟩
    ⟨⟨_, _, _, hnodes', _, _, _, _, _, _, _, _, _⟩, hsorted'⟩ he
  have hsteps := listFits_and hnodes hsorted
  have hsteps' := listFits_and hnodes' hsorted'
  unfold planPreimage at he
  simp (disch := first | assumption | exact trivial) only [List.append_assoc, Encodes.append_iff]
    at he
  cases plan
  cases plan'
  simp_all [CompiledPlan.SameExceptId]

/-! ## Descriptors -/

variable {ports : List PortDescriptor} {port : PortDescriptor}

def PortDescriptor.Fits (port : PortDescriptor) : Prop :=
  StrFits port.name ∧ StrFits port.semanticType ∧ ListFits (· < 2 ^ 32) port.layouts ∧
    port.maxBytes < 2 ^ 64 ∧ port.domain.Fits ∧ port.proof.Fits ∧ port.policy.Fits ∧
    port.fidelity.Fits ∧ port.extent.Fits

instance : DecidablePred PortDescriptor.Fits := fun port => by
  delta PortDescriptor.Fits
  infer_instance

theorem sortDedup_layouts (h : port.normalized = port) :
    sortDedup port.layouts = port.layouts :=
  congrArg PortDescriptor.layouts h

instance : Encodes (fun port => PortDescriptor.Fits port ∧ port.normalized = port) hashPort := ⟨by
  have optional : Unambiguous (fun _ => True) (fun optional : Bool => putU32 optional.toNat) :=
    putOrdinal_unambiguous [false, true] (by rintro ⟨⟩ <;> rfl) (by decide)
  rintro port port' s s' ⟨⟨_, _, _, _, _, _, _, _, _⟩, hnormal⟩
    ⟨⟨_, _, _, _, _, _, _, _, _⟩, hnormal'⟩ he
  unfold hashPort at he
  simp (disch := first | assumption | exact trivial) only [List.append_assoc, Encodes.append_iff,
    sortDedup_layouts hnormal, sortDedup_layouts hnormal', optional.append_iff] at he
  cases port
  cases port'
  simpa [and_assoc] using he⟩

abbrev PortsFit (ports : List PortDescriptor) : Prop := ListFits PortDescriptor.Fits ports

def NodeDescriptor.Fits (d : NodeDescriptor) : Prop :=
  (PortsFit d.inputs ∧ PortsFit d.outputs ∧ ListFits StrFits d.capabilities ∧
    ListFits (· < 2 ^ 32) d.targets ∧ d.resources.Fits ∧ d.config.Fits ∧ d.state.Fits ∧
    OptionFits SubgraphLowering.Fits d.subgraph) ∧
  d.proof.Fits ∧ d.policy.Fits ∧ d.fidelity.Fits ∧ ListFits StrFits d.failure.domains ∧
    d.retryLimit < 2 ^ 32

instance : DecidablePred NodeDescriptor.Fits := fun d => by
  delta NodeDescriptor.Fits
  infer_instance

/-- Two descriptors that differ at most in the order of their ports. -/
structure NodeDescriptor.SameUpToPortOrder (d d' : NodeDescriptor) : Prop where
  inputs : d.inputs.Perm d'.inputs
  outputs : d.outputs.Perm d'.outputs
  rest : { d with inputs := d'.inputs, outputs := d'.outputs } = d'

/-- `hash_descriptor` feeds everything but the name and the version. -/
structure NodeDescriptor.SameContent (d d' : NodeDescriptor) : Prop where
  inputs : d.inputs.Perm d'.inputs
  outputs : d.outputs.Perm d'.outputs
  rest : { d with
    typeName := d'.typeName, version := d'.version, inputs := d'.inputs, outputs := d'.outputs } =
      d'

theorem normalized_ports (h : ports.map PortDescriptor.normalized = ports) (hport : port ∈ ports) :
    port.normalized = port := by
  have hself : ports.map PortDescriptor.normalized = ports.map id := by rw [h, List.map_id]
  exact List.map_inj_left.mp hself port hport

/-- The sorted ports of a normalized descriptor are encoded without loss. -/
theorem PortsFit.sorted (h : PortsFit ports)
    (hnormal : ports.map PortDescriptor.normalized = ports) :
    ListFits (fun port => PortDescriptor.Fits port ∧ port.normalized = port)
      (sortBy PortDescriptor.name ports) :=
  listFits_sortBy _ (listFits_and h fun _ hport => normalized_ports hnormal hport)

theorem hashDescriptor_unambiguous :
    UnambiguousUpTo NodeDescriptor.SameContent
      (fun d => NodeDescriptor.Fits d ∧ d.normalized d.config = d) hashDescriptor := by
  rintro d d' s s' ⟨⟨⟨hins, houts, _, _, _, _, _, _⟩, ⟨⟨_, _⟩, _⟩, ⟨_, _⟩, ⟨_, _⟩, _, _⟩, hnormal⟩
    ⟨⟨⟨hins', houts', _, _, _, _, _, _⟩, ⟨⟨_, _⟩, _⟩, ⟨_, _⟩, ⟨_, _⟩, _, _⟩, hnormal'⟩ he
  have hports := hins.sorted (congrArg NodeDescriptor.inputs hnormal)
  have hports' := hins'.sorted (congrArg NodeDescriptor.inputs hnormal')
  have houtPorts := houts.sorted (congrArg NodeDescriptor.outputs hnormal)
  have houtPorts' := houts'.sorted (congrArg NodeDescriptor.outputs hnormal')
  unfold hashDescriptor hashPorts at he
  simp (disch := first | assumption | exact trivial | (apply listFits_sortDedup; assumption)) only [
    List.append_assoc, Encodes.append_iff, determinism_unambiguous.append_iff,
    partiality_unambiguous.append_iff, effect_unambiguous.append_iff] at he
  obtain ⟨hin, hout, hc, ht, hr, hdet, hcfg, hst, hsub, hreq, hprov, hinv, hpreq,
    hadds, hmin, hloss, hpart, hdom, heff, hretry, hs⟩ := he
  have hfidelity : d.fidelity = d'.fidelity := by
    cases hd : d.fidelity
    cases hd' : d'.fidelity
    simp_all
  refine ⟨⟨perm_of_sortBy_eq hin, perm_of_sortBy_eq hout, ?_⟩, hs⟩
  -- in normal form the sets are as they were written
  rw [← hnormal, ← hnormal']
  simp only [NodeDescriptor.normalized, ProofContract.normalized, PolicyContract.normalized, hc, ht,
    hr, hdet, hcfg, hst, hsub, hreq, hprov, hinv, hpreq, hadds, hfidelity, hpart,
      hdom, heff, hretry]

/-! ## Graphs -/

variable {entries : List (NodeInstance × NodeDescriptor)}

def NodeInstance.Fits (node : NodeInstance) : Prop :=
  node.id < 2 ^ 32 ∧ StrFits node.descriptor ∧ node.descriptorVersion < 2 ^ 32 ∧
    ConfigFits node.config

instance : DecidablePred NodeInstance.Fits := fun node => by
  delta NodeInstance.Fits
  infer_instance

/-- A node with the normalized descriptor it names. -/
structure Described (entry : NodeInstance × NodeDescriptor) : Prop where
  fits : entry.1.Fits
  descriptor : entry.2.Fits
  normal : entry.2.normalized entry.2.config = entry.2
  key : entry.2.key = entry.1.key

/-- The same node with descriptors that are equal up to port order. -/
def SameNode (entry entry' : NodeInstance × NodeDescriptor) : Prop :=
  entry.1 = entry'.1 ∧ entry.2.SameUpToPortOrder entry'.2

theorem hashNode_unambiguous :
    UnambiguousUpTo SameNode Described (fun entry => hashNode entry.1 entry.2) := by
  rintro ⟨node, d⟩ ⟨node', d'⟩ s s' hd hd' h
  have ⟨_, _, _, _⟩ := hd.fits
  have ⟨_, _, _, _⟩ := hd'.fits
  simp (disch := assumption) only [hashNode, List.append_assoc, Encodes.append_iff] at h
  obtain ⟨hid, hname, hversion, h⟩ := h
  obtain ⟨hsame, h⟩ := hashDescriptor_unambiguous _ _ _ _ ⟨hd.descriptor, hd.normal⟩
    ⟨hd'.descriptor, hd'.normal⟩ h
  obtain ⟨hconfig, h⟩ := hashConfig_encodes.unambiguous _ _ _ _ hd.fits.2.2.2 hd'.fits.2.2.2 h
  have hnode : node = node' := by
    cases node
    cases node'
    simp_all
  -- name and version are those of the node
  have hkey : d.key = d'.key := hd.key.trans (hnode ▸ hd'.key.symm)
  have htype : d.typeName = d'.typeName := congrArg (fun k => (ofLex k).1) hkey
  have hvers : d.version = d'.version := congrArg (fun k => (ofLex k).2) hkey
  refine ⟨⟨hnode, hsame.inputs, hsame.outputs, ?_⟩, h⟩
  have hrest := hsame.rest
  rw [← htype, ← hvers] at hrest
  exact hrest

variable {table : NodeTable}

theorem describedNodes_ok {ε : Type} {nodes : List NodeInstance}
    (h : (describedNodes nodes table : Outcome ε _) = .ok entries) :
    entries.map Prod.fst = sortBy NodeInstance.id nodes ∧
      ∀ entry ∈ entries, table.get? entry.1.id = some entry.2 := by
  have hpairs := mapM_ok_forall₂ h
  have hentry : ∀ node (entry : NodeInstance × NodeDescriptor),
      (table.index node.id >>= fun d => pure (node, d) : Outcome ε _) = .ok entry →
        entry.1 = node ∧ table.get? entry.1.id = some entry.2 := by
    intro node entry he
    obtain ⟨d, hd, he⟩ := bind_eq_ok.mp he
    obtain rfl := Except.ok.inj he
    exact ⟨rfl, BTreeMap.index_eq_ok.mp hd⟩
  refine ⟨?_, fun entry he => ?_⟩
  · rw [← List.map_id (sortBy NodeInstance.id nodes)]
    exact (map_eq_of_forall₂ hpairs fun node _ entry _ h => (hentry node entry h).1.symm).symm
  · obtain ⟨node, -, h⟩ := exists_left_of_forall₂ hpairs he
    exact (hentry node entry h).2

def Graph.Fits (graph : Graph) : Prop :=
  graph.version < 2 ^ 32 ∧ ListFits NodeInstance.Fits graph.nodes ∧
    ListFits Edge.Fits graph.edges ∧ ListFits FeedbackEdge.Fits graph.feedback ∧
    ListFits PortRef.Fits graph.invocationInputs ∧ ListFits StrFits graph.requiredCapabilities ∧
    ListFits StrFits graph.requiredProofs ∧ ListFits StrFits graph.policy ∧
    graph.minimumFidelity < 2 ^ 32 ∧ OptionFits SessionContract.Fits graph.session

instance : DecidablePred Graph.Fits := fun graph => by
  delta Graph.Fits
  infer_instance

/-- Two graphs that are equal up to the order of their lists and to repetitions in those that
    stand for sets. -/
structure Graph.SameContent (graph graph' : Graph) : Prop where
  version : graph.version = graph'.version
  nodes : graph.nodes.Perm graph'.nodes
  edges : graph.edges.Perm graph'.edges
  feedback : graph.feedback.Perm graph'.feedback
  invocationInputs : ∀ port, port ∈ graph.invocationInputs ↔ port ∈ graph'.invocationInputs
  requiredCapabilities : ∀ c, c ∈ graph.requiredCapabilities ↔ c ∈ graph'.requiredCapabilities
  requiredProofs : ∀ p, p ∈ graph.requiredProofs ↔ p ∈ graph'.requiredProofs
  policy : ∀ p, p ∈ graph.policy ↔ p ∈ graph'.policy
  minimumFidelity : graph.minimumFidelity = graph'.minimumFidelity
  session : graph.session = graph'.session

/-- The table holds, for every node, the normalized descriptor the node names. -/
def RegisteredNodes (graph : Graph) (table : NodeTable) : Prop :=
  ∀ node ∈ graph.nodes, ∀ d, table.get? node.id = some d →
    d.Fits ∧ d.normalized d.config = d ∧ d.key = node.key

theorem RegisteredNodes.described {graph : Graph} (hreg : RegisteredNodes graph table)
    (hfits : ListFits NodeInstance.Fits graph.nodes)
    (hmap : entries.map Prod.fst = sortBy NodeInstance.id graph.nodes)
    (hget : ∀ entry ∈ entries, table.get? entry.1.id = some entry.2) :
    ListFits Described entries := by
  have hlen : entries.length = graph.nodes.length := by
    rw [← length_sortBy NodeInstance.id graph.nodes, ← hmap, List.length_map]
  refine ⟨by rw [hlen]; exact hfits.1, fun entry hentry => ?_⟩
  have hnode : entry.1 ∈ graph.nodes := by
    have hmem : entry.1 ∈ sortBy NodeInstance.id graph.nodes := by
      rw [← hmap]
      exact List.mem_map_of_mem hentry
    exact mem_sortBy.mp hmem
  obtain ⟨hd, hnormal, hkey⟩ := hreg entry.1 hnode entry.2 (hget entry hentry)
  exact ⟨hfits.2 entry.1 hnode, hd, hnormal, hkey⟩

/-- Equal texts come from graphs of the same content over descriptors of the same content. -/
theorem graphPreimage_injective {ε : Type} {graph graph' : Graph}
    {table' : NodeTable} {bytes : List Byte} (hfits : graph.Fits)
    (hfits' : graph'.Fits) (hreg : RegisteredNodes graph table)
    (hreg' : RegisteredNodes graph' table')
    (h : (graphPreimage graph table : Outcome ε _) = .ok bytes)
    (h' : (graphPreimage graph' table' : Outcome ε _) = .ok bytes) :
    graph.SameContent graph' ∧ ∀ node ∈ graph.nodes, ∀ d d', table.get? node.id = some d →
      table'.get? node.id = some d' → d.SameUpToPortOrder d' := by
  obtain ⟨hversion, hnodes, _, _, _, _, _, _, _, _⟩ := hfits
  obtain ⟨hversion', hnodes', _, _, _, _, _, _, _, _⟩ := hfits'
  obtain ⟨entries, hentries, htext⟩ := bind_eq_ok.mp h
  obtain ⟨entries', hentries', htext'⟩ := bind_eq_ok.mp h'
  obtain ⟨hmap, hget⟩ := describedNodes_ok hentries
  obtain ⟨hmap', hget'⟩ := describedNodes_ok hentries'
  have he := (Except.ok.inj htext).trans (Except.ok.inj htext').symm
  -- one field of the text after the other, with an empty rest at the end
  rw [← List.append_nil (putU32 graph.version ++ _ ++ _ ++ _ ++ _ ++ _ ++ _ ++ _ ++ _ ++ _),
    ← List.append_nil (putU32 graph'.version ++ _ ++ _ ++ _ ++ _ ++ _ ++ _ ++ _ ++ _ ++ _)] at he
  simp only [List.append_assoc] at he
  obtain ⟨heqVersion, he⟩ := putU32_encodes.unambiguous _ _ _ _ hversion hversion' he
  obtain ⟨hsame, he⟩ := counted_upTo putU32_encodes.unambiguous hashNode_unambiguous _ _ _ _
    (hreg.described hnodes hmap hget) (hreg'.described hnodes' hmap' hget') he
  simp (disch :=
    first
      | assumption
      | (apply listFits_sortBy; assumption)
      | (apply listFits_sortDedup; assumption)) only [Encodes.append_iff] at he
  obtain ⟨heqEdges, heqFeedback, heqInputs, heqCaps, heqProofs, heqPolicy, heqFidelity,
    heqSession, -⟩ := he
  have hsorted : sortBy NodeInstance.id graph.nodes = sortBy NodeInstance.id graph'.nodes := by
    rw [← hmap, ← hmap', ← List.forall₂_eq_eq_eq, List.forall₂_map_left_iff,
      List.forall₂_map_right_iff]
    exact hsame.imp fun _ _ hnode => hnode.1
  refine ⟨⟨heqVersion, perm_of_sortBy_eq hsorted, perm_of_sortBy_eq heqEdges,
    perm_of_sortBy_eq heqFeedback, sortDedup_eq_iff.mp heqInputs, sortDedup_eq_iff.mp heqCaps,
    sortDedup_eq_iff.mp heqProofs, sortDedup_eq_iff.mp heqPolicy, heqFidelity, heqSession⟩, ?_⟩
  intro node hnode d d' hd hd'
  have hmem : node ∈ entries.map Prod.fst := by
    rw [hmap]
    exact mem_sortBy.mpr hnode
  obtain ⟨entry, hentry, rfl⟩ := List.mem_map.mp hmem
  obtain ⟨entry', hentry', hnodeEq, hdEq⟩ := exists_right_of_forall₂ hsame hentry
  have hfst : entry.2 = d := Option.some.inj ((hget entry hentry).symm.trans hd)
  have hsnd : entry'.2 = d' := by
    have hlookup := hget' entry' hentry'
    rw [← hnodeEq] at hlookup
    exact Option.some.inj (hlookup.symm.trans hd')
  rw [← hfst, ← hsnd]
  exact hdEq

/-! ## Schemas -/

abbrev SubgraphSchema.Fits (schema : SubgraphSchema) : Prop :=
  schema.version < 2 ^ 32 ∧ ListFits SubgraphNode.Fits schema.nodes ∧
    ListFits Edge.Fits schema.edges ∧ ListFits SubgraphInterfacePort.Fits schema.inputs ∧
    ListFits SubgraphInterfacePort.Fits schema.outputs

/-- Two schemas that are equal up to the order of their lists, apart from their ids. -/
structure SubgraphSchema.SameContent (schema schema' : SubgraphSchema) : Prop where
  version : schema.version = schema'.version
  nodes : schema.nodes.Perm schema'.nodes
  edges : schema.edges.Perm schema'.edges
  inputs : schema.inputs.Perm schema'.inputs
  outputs : schema.outputs.Perm schema'.outputs

theorem subgraphPreimage_unambiguous :
    UnambiguousUpTo SubgraphSchema.SameContent SubgraphSchema.Fits subgraphPreimage := by
  rintro schema schema' s s' ⟨_, _, _, _, _⟩ ⟨_, _, _, _, _⟩ he
  unfold subgraphPreimage at he
  simp (disch := first | assumption | (apply listFits_sortBy; assumption)) only [List.append_assoc,
    Encodes.append_iff] at he
  obtain ⟨hversion, hnodes, hedges, hinputs, houtputs, hs⟩ := he
  exact ⟨⟨hversion, perm_of_sortBy_eq hnodes, perm_of_sortBy_eq hedges, perm_of_sortBy_eq hinputs,
    perm_of_sortBy_eq houtputs⟩, hs⟩

/-! ## The pinned graph and its plan

The graph of `tests/wire_stability.rs`, a source, a process and a sink in a row, and its plan for
the realm `McuAot`, with the identities that test pins. -/

def fixtureGraphId : GraphId :=
  ⟨[27, 223, 223, 217, 143, 0, 24, 96, 30, 42, 239, 75, 112, 227, 14, 84,
    85, 36, 201, 228, 157, 83, 2, 191, 39, 210, 165, 43, 118, 15, 181, 227], rfl⟩

def fixturePlanId : PlanId :=
  ⟨[207, 13, 174, 103, 61, 85, 179, 108, 63, 96, 236, 148, 217, 240, 188, 147,
    86, 252, 152, 132, 11, 255, 181, 9, 2, 72, 11, 149, 154, 208, 82, 178], rfl⟩

def fixtureNode (id : NodeId) (name : String) : NodeInstance :=
  { id := id, descriptor := name, descriptorVersion := 1, config := BTreeMap.empty }

def fixtureEdge (src dst : NodeId) : Edge :=
  { src := { node := src, port := "out" }, dst := { node := dst, port := "in" } }

def fixtureGraph : Graph :=
  { version := 3
    nodes := [fixtureNode 0 "source", fixtureNode 1 "process", fixtureNode 2 "sink"]
    edges := [fixtureEdge 0 1, fixtureEdge 1 2]
    feedback := []
    invocationInputs := []
    requiredCapabilities := ["sample"]
    requiredProofs := []
    policy := ["research"]
    minimumFidelity := 65000
    session := none }

/-- The descriptors of the nodes, as `register_descriptor` stores them. -/
def fixtureTable : NodeTable :=
  BTreeMap.ofList
    [(0, (fixtureDescriptor "source" false).normalized { fields := [] }),
      (1, (fixtureDescriptor "process" true).normalized { fields := [] }),
      (2, (fixtureDescriptor "sink" true).normalized { fields := [] })]

def fixturePort (name : String) : CompiledPortContract :=
  compiledPortContract (PortDescriptor.opaqueBlob name "sample.block" 4096) Layout.canonical

/-- The step of one node, with the kernel of the given id. -/
def fixtureStep (id : StepId) (name : String) (kernel : KernelId) (input : Option BufferId)
    (output : OutputBinding) : CompiledNode :=
  { id := id
    semanticNodes := [id]
    semanticTypes := [{ typeName := name, version := 1 }]
    semanticConfigs := [BTreeMap.empty]
    kernel := kernel
    implementationId := ⟨List.replicate 32 (Fin.ofNat 256 (kernel + 1)), List.length_replicate⟩
    resources := ResourceEnvelope.bounded 4096 1024 1
    determinism := .bitExact
    lowering := "McuAot"
    conversion := none
    inputPorts := if input.isSome then ["in"] else []
    outputPorts := ["out"]
    inputContracts := if input.isSome then [fixturePort "in"] else []
    outputContracts := [fixturePort "out"]
    inputBindings := input.toList.map InputBinding.buffer
    outputBindings := [output]
    partiality := .atomic
    failure := { domains := [] }
    effect := .pure
    retryLimit := 0
    state := StateContract.stateless
    subgraphPath := [] }

def fixtureBuffer (id : BufferId) : BufferPlan :=
  { id := id
    layout := Layout.canonical
    capacityBytes := 4096
    producer := id
    consumers := [id + 1]
    lastConsumer := id + 1
    aliases := none }

def fixturePlan : CompiledPlan :=
  { schemaVersion := 3
    graphId := fixtureGraphId
    planId := fixturePlanId
    realm := ExecutionRealm.mcuAot
    order := [0, 1, 2]
    nodes :=
      [fixtureStep 0 "source" 1 none (.buffer 0), fixtureStep 1 "process" 4 (some 0) (.buffer 1),
        fixtureStep 2 "sink" 7 (some 1) .terminal]
    buffers := [fixtureBuffer 0, fixtureBuffer 1]
    feedback := []
    invocationPorts := []
    propagatedProofs := ["process.verified", "sink.verified", "source.verified"]
    propagatedPolicy := ["research"]
    resultingFidelity := 65535
    peakBytes := 13312
    persistentStateBytes := 0
    session := none }

/-- BLAKE3 on the texts of `fixtureGraph`, `fixturePlan` and `processSchema`. -/
def fixtureBlake3 : Blake3 := fun context _ =>
  if context = "blut.graph.v3" then fixtureGraphId
  else if context = "blut.subgraph.v1" then processSchema.id
  else fixturePlanId

/-! ## Identities -/

/-- BLAKE3 does not collide on the two texts. -/
def NoCollision (blake3 : Blake3) (context : String) (text text' : List Byte) : Prop :=
  blake3 context text = blake3 context text' → text = text'

/-- Equal texts, and so equal identities, mean equal plans, graphs and schemas. -/
theorem identities_injective (blake3 : Blake3) :
    (∀ plan plan' : CompiledPlan, plan.Fits → plan'.Fits → plan.SortedDomains →
      plan'.SortedDomains →
      (planPreimage plan = planPreimage plan' → plan.SameExceptId plan') ∧
      (NoCollision blake3 "blut.compiled-plan.v3" (planPreimage plan) (planPreimage plan') →
        hashPlan blake3 plan = hashPlan blake3 plan' → plan.SameExceptId plan')) ∧
    (∀ (graph graph' : Graph) (table table' : NodeTable)
      (bytes bytes' : List Byte), graph.Fits → graph'.Fits →
      RegisteredNodes graph table → RegisteredNodes graph' table' →
      (graphPreimage graph table : Outcome Unit _) = .ok bytes →
      (graphPreimage graph' table' : Outcome Unit _) = .ok bytes' →
      (bytes = bytes' ∨ (NoCollision blake3 "blut.graph.v3" bytes bytes' ∧
        (hashGraph blake3 graph table : Outcome Unit _) = hashGraph blake3 graph' table')) →
      graph.SameContent graph' ∧ ∀ node ∈ graph.nodes, ∀ d d', table.get? node.id = some d →
        table'.get? node.id = some d' → d.SameUpToPortOrder d') ∧
    (∀ schema schema' : SubgraphSchema, schema.Fits → schema'.Fits →
      (subgraphPreimage schema = subgraphPreimage schema' → schema.SameContent schema') ∧
      (NoCollision blake3 "blut.subgraph.v1" (subgraphPreimage schema) (subgraphPreimage schema') →
        subgraphIdentity blake3 schema = subgraphIdentity blake3 schema' →
        schema.SameContent schema')) := by
  refine ⟨fun plan plan' hfits hfits' hsorted hsorted' => ?_, ?_,
    fun schema schema' hfits hfits' => ?_⟩
  · have htext : planPreimage plan = planPreimage plan' → plan.SameExceptId plan' :=
      planPreimage_unambiguous.of_eq ⟨hfits, hsorted⟩ ⟨hfits', hsorted'⟩
    exact ⟨htext, fun hno hid => htext (hno hid)⟩
  · intro graph graph' table table' bytes bytes' hfits hfits' hreg hreg' h h' hsame
    have hbytes : bytes = bytes' := by
      rcases hsame with heq | ⟨hno, hid⟩
      · exact heq
      · unfold hashGraph at hid
        rw [h, h', ok_bind, ok_bind] at hid
        exact hno (Except.ok.inj hid)
    rw [← hbytes] at h'
    exact graphPreimage_injective hfits hfits' hreg hreg' h h'
  · have htext : subgraphPreimage schema = subgraphPreimage schema' → schema.SameContent schema' :=
      subgraphPreimage_unambiguous.of_eq hfits hfits'
    exact ⟨htext, fun hno hid => htext (hno hid)⟩

/-- The pinned plan, graph and schema, and the same with another plan id, another order of the
    edges and another schema id. -/
theorem identities_injective_fixture :
    fixturePlan.SameExceptId { fixturePlan with planId := Digest.zero } ∧
      fixtureGraph.SameContent { fixtureGraph with edges := fixtureGraph.edges.reverse } ∧
      processSchema.SameContent { processSchema with id := Digest.zero } := by
  obtain ⟨hplan, hgraph, hschema⟩ := identities_injective fixtureBlake3
  have hreg : ∀ node ∈ fixtureGraph.nodes, ∀ d ∈ fixtureTable.get? node.id,
      d.Fits ∧ d.normalized d.config = d ∧ d.key = node.key := by decide +kernel
  have hfits : fixtureGraph.Fits := by decide +kernel
  have hfits' : { fixtureGraph with edges := fixtureGraph.edges.reverse }.Fits := by decide +kernel
  have htexts : (graphPreimage { fixtureGraph with edges := fixtureGraph.edges.reverse }
      fixtureTable : Outcome Unit _) = graphPreimage fixtureGraph fixtureTable := by decide +kernel
  obtain ⟨bytes, hbytes⟩ : ∃ bytes,
      (graphPreimage fixtureGraph fixtureTable : Outcome Unit _) = .ok bytes := ⟨_, rfl⟩
  refine ⟨(hplan _ _ ?_ ?_ ?_ ?_).2 (fun _ => rfl) rfl,
    (hgraph _ _ _ _ bytes bytes hfits hfits' hreg hreg hbytes (htexts.trans hbytes) (Or.inl rfl)).1,
    (hschema _ _ ?_ ?_).2 (fun _ => rfl) rfl⟩
  all_goals decide +kernel

end Blut.GraphCore
