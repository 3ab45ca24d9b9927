/-
  Materialized lowerings (`KernelRegistry::materialize_subgraph`).

  The declared inner graph, with one outer instance's configuration bound into it, is meant to
  be a reference graph that can be compiled. It is one exactly when the instance supplies every
  outer field that has neither a default nor an obligation to be there, and the lowering maps
  every interface input that stands for a non-optional inner input (`materialize_compilable_iff`).
-/
import Blut.GraphCore.RegistryInvariant
import Blut.GraphCore.Verify

namespace Blut.GraphCore

open Blut.Lib

/-- One entry of the config map: the outer value goes into the inner node's configuration. -/
def bindConfig (id : SubgraphId) (outerConfig : Config) (nodes : List NodeInstance)
    (binding : SubgraphConfigMap) : Outcome CompileError (List NodeInstance) := do
  let value ← okOr (outerConfig.get? binding.outer) (.invalidSubgraph id)
  let index ← okOr (nodes.findIdx? fun node => node.id = binding.node) (.invalidSubgraph id)
  return nodes.modify index fun node =>
    { node with config := node.config.insert binding.inner value }

def canonicalizeInner (registry : KernelRegistry) (id : SubgraphId) (node : NodeInstance) :
    Outcome CompileError NodeInstance := do
  let inner ← okOr (registry.descriptors.get? node.key) (.invalidSubgraph id)
  let config ← mapErr (fun _ => .invalidSubgraph id) (inner.config.canonicalize node.config)
  return { node with config := config }

/-- The interface ports under their outer names. -/
def mapInterfaces (id : SubgraphId) (maps : List PortMap)
    (interfaces : List SubgraphInterfacePort) : Outcome CompileError (List SubgraphInterfacePort) :=
  maps.mapM fun map => do
    let interface ← okOr (interfaces.find? fun interface => interface.name = map.inner)
      (.invalidSubgraph id)
    return { name := map.outer, inner := interface.inner }

/-- An inner node as a node of the reference graph. -/
def SubgraphNode.instance (node : SubgraphNode) : NodeInstance :=
  { id := node.id
    descriptor := node.nodeType.typeName
    descriptorVersion := node.nodeType.version
    config := node.config }

def materializeSubgraph (registry : KernelRegistry) (outer : NodeInstance) :
    Outcome CompileError MaterializedSubgraph := do
  let descriptor ← okOr (registry.descriptors.get? outer.key)
    (.unknownDescriptor outer.descriptor outer.descriptorVersion)
  let lowering ← okOr descriptor.subgraph (.invalidSubgraph Digest.zero)
  validateSubgraphLowering descriptor lowering registry.subgraphs registry.descriptors
  let schema ← okOr (registry.subgraphs.get? lowering.subgraph) (.unknownSubgraph lowering.subgraph)
  reject (schema.nodes.any fun node => node.child.isSome) (.invalidSubgraph schema.id)
  let outerConfig ← mapErr (.invalidConfig outer.id) (descriptor.config.canonicalize outer.config)
  let nodes ← lowering.configMap.foldlM (bindConfig schema.id outerConfig)
    (schema.nodes.map SubgraphNode.instance)
  let nodes ← nodes.mapM (canonicalizeInner registry schema.id)
  let inputs ← mapInterfaces schema.id lowering.inputMap schema.inputs
  let outputs ← mapInterfaces schema.id lowering.outputMap schema.outputs
  let inputs := sortBy SubgraphInterfacePort.toKey inputs
  let outputs := sortBy SubgraphInterfacePort.toKey outputs
  let capabilities ← schema.nodes.mapM fun node => do
    let inner ← registry.descriptors.index node.nodeType.key
    return inner.capabilities
  return {
    graph :=
      { version := 3
        nodes := nodes
        edges := schema.edges
        feedback := []
        invocationInputs := inputs.map SubgraphInterfacePort.inner
        requiredCapabilities := sortDedup capabilities.flatten
        requiredProofs := descriptor.proof.requires
        policy := descriptor.policy.requires
        minimumFidelity := descriptor.fidelity.minimumInput
        session := none }
    inputs := inputs
    outputs := outputs }

/-! ## Binding the configuration -/

/-- The nodes of the reference graph while the configuration is bound: the schema's nodes, each
    with a configuration its descriptor accepts. -/
structure InnerNodes (registry : KernelRegistry) (schema : SubgraphSchema)
    (nodes : List NodeInstance) : Prop where
  same : nodes.map (fun node => (node.id, node.key)) =
    schema.nodes.map fun node => (node.id, node.nodeType.key)
  accepts : ∀ node ∈ nodes, ∃ d, registry.descriptors.get? node.key = some d ∧
    d.config.Accepts node.config

section

variable {registry : KernelRegistry} {schema : SubgraphSchema} {map : SubgraphConfigMap}

theorem InnerNodes.start {blake3 : Blake3} (hv : ValidSchema blake3 registry schema) :
    InnerNodes registry schema (schema.nodes.map SubgraphNode.instance) := by
  refine ⟨by rw [List.map_map]; rfl, fun node hnode => ?_⟩
  obtain ⟨inner, hinner, rfl⟩ := List.mem_map.mp hnode
  obtain ⟨d, hd⟩ := hv.node inner hinner
  exact ⟨d, hd.described, (ConfigSchema.canonicalize_eq_ok.mp hd.config).1⟩

variable {nodes : List NodeInstance} {interfaces : List SubgraphInterfacePort}

section

variable (h : InnerNodes registry schema nodes)
include h

theorem InnerNodes.ids :
    nodes.map NodeInstance.id = schema.nodes.map SubgraphNode.id := by
  have hfst := congrArg (List.map Prod.fst) h.same
  simpa [List.map_map, Function.comp_def] using hfst

/-- Every node of the reference graph stands for one of the schema. -/
theorem InnerNodes.mem {node : NodeInstance} (hnode : node ∈ nodes) :
    ∃ inner ∈ schema.nodes, inner.id = node.id ∧ inner.nodeType.key = node.key := by
  have hmem : (node.id, node.key) ∈ schema.nodes.map fun node => (node.id, node.nodeType.key) := by
    rw [← h.same]
    exact List.mem_map_of_mem hnode
  obtain ⟨inner, hinner, heq⟩ := List.mem_map.mp hmem
  exact ⟨inner, hinner, congrArg Prod.fst heq, congrArg Prod.snd heq⟩

theorem InnerNodes.of_mem {inner : SubgraphNode} (hinner : inner ∈ schema.nodes) :
    ∃ node ∈ nodes, node.id = inner.id ∧ node.key = inner.nodeType.key := by
  have hmem : (inner.id, inner.nodeType.key) ∈ nodes.map fun node => (node.id, node.key) := by
    rw [h.same]
    exact List.mem_map.mpr ⟨inner, hinner, rfl⟩
  obtain ⟨node, hnode, heq⟩ := List.mem_map.mp hmem
  exact ⟨node, hnode, congrArg Prod.fst heq, congrArg Prod.snd heq⟩

/-- Changing the configuration of one node to another accepted one. -/
theorem InnerNodes.modify (index : Nat) (update : Config → Config)
    (hupdate : ∀ node, nodes[index]? = some node →
      ∀ d, registry.descriptors.get? node.key = some d →
        d.config.Accepts node.config → d.config.Accepts (update node.config)) :
    InnerNodes registry schema
      (nodes.modify index fun node => { node with config := update node.config }) := by
  refine ⟨?_, fun node hnode => ?_⟩
  · rw [← h.same]
    refine List.ext_getElem? fun j => ?_
    rw [List.getElem?_map, List.getElem?_map, List.getElem?_modify]
    cases nodes[j]? with
    | none => rfl
    | some node =>
      by_cases hj : index = j
      · simp [hj, NodeInstance.key]
      · simp [hj]
  · obtain ⟨j, hj⟩ := List.mem_iff_getElem?.mp hnode
    rw [List.getElem?_modify] at hj
    obtain ⟨old, hold, rfl⟩ := Option.map_eq_some_iff.mp hj
    obtain ⟨d, hget, hacc⟩ := h.accepts old (List.mem_of_getElem? hold)
    split_ifs with hi
    · exact ⟨d, hget, hupdate old (hi ▸ hold) d hget hacc⟩
    · exact ⟨d, hget, hacc⟩

end

/-- What a valid lowering says of one binding. -/
theorem ValidLowering.binding {d : NodeDescriptor} {lowering : SubgraphLowering}
    (hl : ValidLowering registry d lowering schema) (hmap : map ∈ lowering.configMap) :
    ∃ outer ∈ d.config.fields, outer.name = map.outer ∧
      ∃ inner ∈ schema.nodes, inner.id = map.node ∧
        ∃ innerD, registry.descriptors.get? inner.nodeType.key = some innerD ∧
          ∃ field ∈ innerD.config.fields, field.name = map.inner ∧
            configTypeSatisfies outer.valueType field.valueType = true := by
  obtain ⟨outer, field, hfields, hsat⟩ := hl.config map hmap
  unfold SubgraphConfigMap.fields at hfields
  simp only [Option.bind_eq_bind, Option.bind_eq_some_iff, Option.pure_def, Option.some.injEq,
    Prod.mk.injEq] at hfields
  obtain ⟨o, ho, node, hnode, innerD, hinner, f, hf, rfl, rfl⟩ := hfields
  obtain ⟨outerField, hmem, heq⟩ := List.mem_map.mp (BTreeMap.mem_of_get?_ofList ho)
  obtain ⟨inner, hinnerMem, heqNode⟩ := List.mem_map.mp (BTreeMap.mem_of_get?_ofList hnode)
  have hsame : outerField = o := congrArg Prod.snd heq
  have hsameNode : inner = node := congrArg Prod.snd heqNode
  refine ⟨o, hsame ▸ hmem, hsame ▸ congrArg Prod.fst heq, node, hsameNode ▸ hinnerMem,
    hsameNode ▸ congrArg Prod.fst heqNode, innerD, hinner, f, List.mem_of_find?_eq_some hf,
    by simpa using List.find?_some hf, hsat⟩

variable {blake3 : Blake3} {d : NodeDescriptor} {lowering : SubgraphLowering} {supplied : Config}

section

variable (hi : registry.Invariant blake3) (hd : ValidDescriptor d)
  (hv : ValidSchema blake3 registry schema) (hl : ValidLowering registry d lowering schema)
include hi hd hv hl

/-- One binding succeeds where the outer field has a value, and the inner node still accepts its
    configuration. -/
theorem bindConfig_total (hacc : d.config.Accepts supplied)
    (hnodes : InnerNodes registry schema nodes) (hmap : map ∈ lowering.configMap)
    {value : ConfigValue} (hvalue : (d.config.filled supplied).get? map.outer = some value) :
    ∃ out, bindConfig schema.id (d.config.filled supplied) nodes map = .ok out ∧
      InnerNodes registry schema out := by
  obtain ⟨outer, houter, hname, inner, hinner, hid, innerD, hget, field, hfield, hfname, hsat⟩ :=
    hl.binding hmap
  have hnd := nodes_nodup_of_checked hv.normal hv.valid
  have hvalid : validValue field.valueType value = true := by
    rw [← hname, ConfigSchema.get?_filled hd.fields supplied houter] at hvalue
    exact validValue_of_satisfies hsat (hacc.valid outer houter value hvalue)
  obtain ⟨node, hnode, hnid, -⟩ := hnodes.of_mem hinner
  obtain ⟨index, hindex⟩ : ∃ index, nodes.findIdx? (fun n => decide (n.id = map.node)) =
    some index := by
    refine Option.isSome_iff_exists.mp ?_
    rw [List.findIdx?_isSome, List.any_eq_true]
    exact ⟨node, hnode, by simp [hnid, hid]⟩
  refine ⟨nodes.modify index fun node =>
    { node with config := node.config.insert map.inner value }, ?_, ?_⟩
  · unfold bindConfig
    rw [hvalue, hindex]
    rfl
  · refine hnodes.modify index (fun config => config.insert map.inner value) ?_
    intro found hfound foundD hfoundD hfoundAcc
    -- the node found has the id of the bound inner node, so it is that node
    obtain ⟨hlt, hfoundId⟩ := List.findIdx?_eq_some_iff_getElem.mp hindex
    have hfid : found.id = map.node := by
      rw [List.getElem?_eq_getElem hlt] at hfound
      rw [← Option.some.inj hfound]
      simpa using hfoundId.1
    obtain ⟨inner', hinner', hid', hkey'⟩ := hnodes.mem (List.mem_of_getElem? hfound)
    have hsame : inner' = inner :=
      List.inj_on_of_nodup_map hnd hinner' hinner (by rw [hid', hfid, hid])
    rw [← hkey', hsame, hget] at hfoundD
    rw [← Option.some.inj hfoundD] at hfoundAcc ⊢
    rw [← hfname]
    exact hfoundAcc.insert (hi.descriptor _ _ hget).fields hfield hvalid

/-- The bindings succeed exactly when every bound outer field has a value. -/
theorem bindConfigs_total (hacc : d.config.Accepts supplied)
    (hall : ∀ map ∈ lowering.configMap, ∃ value,
      (d.config.filled supplied).get? map.outer = some value) :
    ∃ nodes, lowering.configMap.foldlM (bindConfig schema.id (d.config.filled supplied))
      (schema.nodes.map SubgraphNode.instance) = .ok nodes ∧ InnerNodes registry schema nodes := by
  refine foldlM_total (InnerNodes registry schema) lowering.configMap ?_ (InnerNodes.start hv)
  intro nodes map hmap hnodes
  obtain ⟨value, hvalue⟩ := hall map hmap
  exact bindConfig_total hi hd hv hl hacc hnodes hmap hvalue

end

theorem bindConfigs_values {id : SubgraphId} {outerConfig : Config} {start : List NodeInstance}
    {maps : List SubgraphConfigMap}
    (h : maps.foldlM (bindConfig id outerConfig) start = .ok nodes) :
    ∀ map ∈ maps, ∃ value, outerConfig.get? map.outer = some value := by
  intro map hmap
  obtain ⟨a, b, hstep⟩ := foldlM_step_of_mem h hmap
  unfold bindConfig at hstep
  obtain ⟨value, hvalue, -⟩ := bind_eq_ok.mp hstep
  exact ⟨value, okOr_eq_ok.mp hvalue⟩

/-- The bound outer fields are exactly the outer fields. -/
theorem ValidLowering.mem_outer (hl : ValidLowering registry d lowering schema) (name : String) :
    (∃ map ∈ lowering.configMap, map.outer = name) ↔
      ∃ field ∈ d.config.fields, field.name = name := by
  have hset := BTreeSet.ofList_eq_iff.mp hl.outer name
  simpa [List.mem_map] using hset

theorem canonicalizeInner_eq_ok {id : SubgraphId} {node out : NodeInstance} :
    canonicalizeInner registry id node = .ok out ↔ ∃ nodeD,
      registry.descriptors.get? node.key = some nodeD ∧ nodeD.config.Accepts node.config ∧
        { node with config := nodeD.config.filled node.config } = out := by
  simp only [canonicalizeInner, bind_eq_ok, okOr_eq_ok, mapErr_eq_ok,
    ConfigSchema.canonicalize_eq_ok, pure_eq_ok, Except.ok.injEq]
  grind

/-- Canonicalizing accepted nodes succeeds and gives canonical configurations. -/
theorem canonicalizeInner_total (hi : registry.Invariant blake3)
    (hnodes : InnerNodes registry schema nodes) (id : SubgraphId) :
    ∃ out, nodes.mapM (canonicalizeInner registry id) = .ok out ∧
      InnerNodes registry schema out ∧
      ∀ node ∈ out, ∃ nodeD, registry.descriptors.get? node.key = some nodeD ∧
        nodeD.config.canonicalize node.config = .ok node.config := by
  obtain ⟨out, hout⟩ := mapM_total (f := canonicalizeInner registry id) fun node hnode => by
    obtain ⟨nodeD, hget, hacc⟩ := hnodes.accepts node hnode
    exact ⟨_, canonicalizeInner_eq_ok.mpr ⟨nodeD, hget, hacc, rfl⟩⟩
  have hpairs : List.Forall₂ (fun node out : NodeInstance => out.id = node.id ∧ out.key = node.key ∧
      ∃ nodeD, registry.descriptors.get? out.key = some nodeD ∧
        nodeD.config.canonicalize out.config = .ok out.config) nodes out := by
    refine (mapM_ok_forall₂ hout).imp fun node out hrun => ?_
    obtain ⟨nodeD, hget, hacc, rfl⟩ := canonicalizeInner_eq_ok.mp hrun
    exact ⟨rfl, rfl, nodeD, hget, ConfigSchema.canonicalize_fixed (hi.descriptor _ _ hget).fields
      (ConfigSchema.canonicalize_eq_ok.mpr ⟨hacc, rfl⟩)⟩
  have hcanonical : ∀ node ∈ out, ∃ nodeD, registry.descriptors.get? node.key = some nodeD ∧
      nodeD.config.canonicalize node.config = .ok node.config := by
    intro node hnode
    obtain ⟨-, -, -, -, hnodeD⟩ := exists_left_of_forall₂ hpairs hnode
    exact hnodeD
  refine ⟨out, hout, ⟨?_, fun node hnode => ?_⟩, hcanonical⟩
  · rw [← hnodes.same]
    exact (map_eq_of_forall₂ hpairs fun _ _ _ _ h => by rw [h.1, h.2.1]).symm
  · obtain ⟨nodeD, hget, hfix⟩ := hcanonical node hnode
    exact ⟨nodeD, hget, (ConfigSchema.canonicalize_eq_ok.mp hfix).1⟩

/-! ## Interfaces -/

variable {names : List String} {maps : List PortMap}

theorem mapInterfaces_total (id : SubgraphId)
    (hmaps : validPortMaps names maps (interfaces.map SubgraphInterfacePort.name) = true) :
    ∃ out, mapInterfaces id maps interfaces = .ok out := by
  unfold validPortMaps at hmaps
  simp only [Bool.and_eq_true, List.all_eq_true] at hmaps
  refine mapM_total fun map hmap => ?_
  have hmem := hmaps.1.2 map hmap
  obtain ⟨interface, hinterface, hname⟩ := List.mem_map.mp (List.contains_iff_mem.mp hmem)
  obtain ⟨found, hfound⟩ : ∃ found,
      interfaces.find? (fun interface => decide (interface.name = map.inner)) = some found :=
    Option.isSome_iff_exists.mp
      (List.find?_isSome.mpr ⟨interface, hinterface, by simpa using hname⟩)
  exact ⟨_, bind_eq_ok.mpr ⟨found, okOr_eq_ok.mpr hfound, rfl⟩⟩

/-- The inner port of the interface port of a name. -/
def interfaceInner (interfaces : List SubgraphInterfacePort) (name : String) : Option PortRef :=
  (interfaces.find? fun interface => interface.name = name).map SubgraphInterfacePort.inner

theorem mapInterfaces_ok {id : SubgraphId} {out : List SubgraphInterfacePort}
    (h : mapInterfaces id maps interfaces = .ok out) : out.map SubgraphInterfacePort.inner =
      (maps.map PortMap.inner).filterMap (interfaceInner interfaces) := by
  unfold mapInterfaces at h
  induction maps generalizing out with
  | nil =>
    have hnil : out = [] := by simpa using h.symm
    rw [hnil]
    rfl
  | cons map maps ih =>
    rw [List.mapM_cons] at h
    simp only [bind_eq_ok, okOr_eq_ok] at h
    obtain ⟨port, ⟨interface, hfind, hport⟩, rest, hrest, h⟩ := h
    rw [← Except.ok.inj h, List.map_cons, List.map_cons, ih hrest, ← Except.ok.inj hport]
    simp [interfaceInner, hfind]

theorem interfaceInner_eq_some (hnd : (interfaces.map SubgraphInterfacePort.name).Nodup)
    {name : String} {inner : PortRef} : interfaceInner interfaces name = some inner ↔
      ∃ interface ∈ interfaces, interface.name = name ∧ interface.inner = inner := by
  unfold interfaceInner
  rw [Option.map_eq_some_iff]
  simp only [find?_key_eq_some hnd, and_assoc]

/-- Distinct names lead to distinct inner ports. -/
theorem interfaceInner_nodup (hnames : (interfaces.map SubgraphInterfacePort.name).Nodup)
    (hinner : (interfaces.map SubgraphInterfacePort.inner).Nodup) (hnd : names.Nodup) :
    (names.filterMap (interfaceInner interfaces)).Nodup := by
  refine hnd.filterMap fun name name' inner h h' => ?_
  obtain ⟨interface, hi, hname, hin⟩ := (interfaceInner_eq_some hnames).mp h
  obtain ⟨interface', hi', hname', hin'⟩ := (interfaceInner_eq_some hnames).mp h'
  have hsame : interface = interface' :=
    List.inj_on_of_nodup_map hinner hi hi' (by rw [hin, hin'])
  rw [← hname, ← hname', hsame]

/-! ## The reference graph -/

/-- The table of the reference graph's nodes is that of the schema's. -/
theorem InnerNodes.get?_table
    (hnd : (schema.nodes.map SubgraphNode.id).Nodup) (hnodes : InnerNodes registry schema nodes)
    (id : NodeId) :
    (nodeTable registry.descriptors nodes).get? id =
      schema.descriptorOf registry.descriptors id := by
  have hnd' : (nodes.map NodeInstance.id).Nodup := by
    rw [hnodes.ids]
    exact hnd
  refine Option.ext fun d => ?_
  rw [get?_nodeTable hnd']
  constructor
  · rintro ⟨node, hnode, hid, hget⟩
    obtain ⟨inner, hinner, hinnerId, hkey⟩ := hnodes.mem hnode
    rw [← hid, ← hinnerId, descriptorOf_node _ hnd hinner, hkey]
    exact hget
  · intro hget
    obtain ⟨inner, hinner, hid, hd⟩ := mem_nodes_of_descriptorOf hget
    obtain ⟨node, hnode, hnodeId, hkey⟩ := hnodes.of_mem hinner
    exact ⟨node, hnode, hnodeId.trans hid, by rw [hkey]; exact hd⟩

/-- A graph that is ready to be compiled: configurations are canonical, edges are well typed,
    every non-optional input has exactly one binding, and `verify_edges` accepts the graph. -/
structure CompilableReference (registry : KernelRegistry) (graph : Graph) : Prop where
  canonical : ∀ node ∈ graph.nodes, ∃ d, registry.descriptors.get? node.key = some d ∧
    d.config.canonicalize node.config = .ok node.config
  edges : ∀ edge ∈ graph.edges,
    JoinsPorts (nodeTable registry.descriptors graph.nodes) edge.src edge.dst
  bound : ∀ node ∈ graph.nodes, ∀ d, registry.descriptors.get? node.key = some d →
    ∀ input ∈ d.inputs, input.optional = false →
      (graph.edges.map Edge.dst ++ graph.invocationInputs).count
        { node := node.id, port := input.name } = 1
  verified : ∃ ports, verifyEdges graph (nodeTable registry.descriptors graph.nodes) = .ok ports

/-- Every field of the configuration is supplied or has a default. -/
def suppliesEveryField (d : NodeDescriptor) (config : Config) : Bool :=
  d.config.fields.all fun field => (config.get? field.name).isSome || field.default.isSome

/-- Every interface input that stands for a non-optional inner input has an outer input. -/
def mapsEveryRequiredInput (registry : KernelRegistry) (schema : SubgraphSchema)
    (lowering : SubgraphLowering) : Bool :=
  schema.inputs.all fun port =>
    (schema.inputPort registry.descriptors port.inner).all PortDescriptor.optional
      || lowering.inputMap.any fun map => map.inner = port.name

variable {outer : NodeInstance} {m : MaterializedSubgraph}

/-- What a successful materialization returns. -/
theorem materializeSubgraph_ok (hget : registry.descriptors.get? outer.key = some d)
    (hlower : d.subgraph = some lowering)
    (hschema : registry.subgraphs.get? lowering.subgraph = some schema) {outerConfig : Config}
    (hcanon : d.config.canonicalize outer.config = .ok outerConfig)
    (h : materializeSubgraph registry outer = .ok m) :
    (∃ nodes, lowering.configMap.foldlM (bindConfig schema.id outerConfig)
      (schema.nodes.map SubgraphNode.instance) = .ok nodes ∧
      nodes.mapM (canonicalizeInner registry schema.id) = .ok m.graph.nodes) ∧
    (∃ inputs, mapInterfaces schema.id lowering.inputMap schema.inputs = .ok inputs ∧
      m.graph.invocationInputs =
        (sortBy SubgraphInterfacePort.toKey inputs).map SubgraphInterfacePort.inner) ∧
    m.graph.edges = schema.edges ∧ m.graph.feedback = [] := by
  simp only [materializeSubgraph, bind_eq_ok, okOr_eq_ok, reject_eq_ok, mapErr_eq_ok, hget, hlower,
    hschema, hcanon, Option.some.injEq, Except.ok.injEq, exists_eq_left'] at h
  obtain ⟨_, -, _, -, bound, hbound, nodes, hnodes, inputs, hinputs, outputs, -,
    capabilities, -, h⟩ := h
  rw [← Except.ok.inj h]
  exact ⟨⟨bound, hbound, hnodes⟩, ⟨inputs, hinputs, rfl⟩, rfl, rfl⟩

/-- Materialization succeeds when every outer field has a value. -/
theorem materializeSubgraph_total (hi : registry.Invariant blake3)
    (hget : registry.descriptors.get? outer.key = some d) (hlower : d.subgraph = some lowering)
    (hl : ValidLowering registry d lowering schema)
    (hchild : ∀ node ∈ schema.nodes, node.child = none)
    (hacc : d.config.Accepts outer.config) (hfields : suppliesEveryField d outer.config = true) :
    ∃ m, materializeSubgraph registry outer = .ok m := by
  have hd := hi.descriptor _ _ hget
  have hv := hi.schema _ _ hl.registered
  have hvalues : ∀ map ∈ lowering.configMap, ∃ value,
      (d.config.filled outer.config).get? map.outer = some value := by
    intro map hmap
    obtain ⟨field, hfield, hname⟩ := (hl.mem_outer map.outer).mp ⟨map, hmap, rfl⟩
    have hsupplied := List.all_eq_true.mp hfields field hfield
    rw [← hname, ConfigSchema.get?_filled hd.fields _ hfield]
    refine Option.isSome_iff_exists.mp ?_
    simpa [ConfigSchema.chosen, Option.isSome_or] using hsupplied
  obtain ⟨bound, hbound, hinner⟩ := bindConfigs_total hi hd hv hl hacc hvalues
  obtain ⟨nodes, hnodes, -, -⟩ := canonicalizeInner_total hi hinner schema.id
  obtain ⟨inputs, hinputs⟩ := mapInterfaces_total schema.id hl.inputs
  obtain ⟨outputs, houtputs⟩ := mapInterfaces_total schema.id hl.outputs
  obtain ⟨capabilities, hcapabilities⟩ : ∃ capabilities,
      (schema.nodes.mapM fun node => do
        let inner ← registry.descriptors.index node.nodeType.key
        return inner.capabilities : Outcome CompileError (List (List String))) =
      .ok capabilities := by
    refine mapM_total fun node hnode => ?_
    obtain ⟨inner, hinner⟩ := hv.node node hnode
    exact ⟨inner.capabilities,
      bind_eq_ok.mpr ⟨inner, BTreeMap.index_eq_ok.mpr hinner.described, rfl⟩⟩
  have hnochild : (schema.nodes.any fun node => node.child.isSome) = false := by
    rw [List.any_eq_false]
    intro node hnode
    simp [hchild node hnode]
  simp only [materializeSubgraph, bind_eq_ok, okOr_eq_ok, reject_eq_ok, mapErr_eq_ok, hget, hlower,
    hl.registered, Option.some.injEq, exists_eq_left']
  exact ⟨_, (), validateSubgraphLowering_eq_ok.mpr ⟨schema, hl⟩, (), hnochild, _,
    ConfigSchema.canonicalize_eq_ok.mpr ⟨hacc, rfl⟩, bound, hbound, nodes, hnodes, inputs, hinputs,
    outputs, houtputs, capabilities, hcapabilities, rfl⟩

variable {inputs : List SubgraphInterfacePort}

/-- The invocation inputs of the reference graph are the inner ports the input map names. -/
theorem mem_mappedInputs (hv : ValidSchema blake3 registry schema)
    (hinputs : mapInterfaces schema.id lowering.inputMap schema.inputs = .ok inputs)
    (inner : PortRef) :
    inner ∈ (sortBy SubgraphInterfacePort.toKey inputs).map SubgraphInterfacePort.inner ↔
      ∃ port ∈ schema.inputs, port.inner = inner ∧
        ∃ map ∈ lowering.inputMap, map.inner = port.name := by
  have hnames := (invalidSchema_interfaces hv.normal hv.valid).1
  rw [((sortBy_perm SubgraphInterfacePort.toKey inputs).map _).mem_iff, mapInterfaces_ok hinputs,
    List.mem_filterMap]
  simp only [interfaceInner_eq_some hnames, List.mem_map]
  constructor
  · rintro ⟨_, ⟨map, hmap, rfl⟩, port, hport, hname, hinner⟩
    exact ⟨port, hport, hinner, map, hmap, hname.symm⟩
  · rintro ⟨port, hport, hinner, map, hmap, hname⟩
    exact ⟨map.inner, ⟨map, hmap, rfl⟩, port, hport, hname.symm, hinner⟩

theorem mappedInputs_nodup (hv : ValidSchema blake3 registry schema)
    (hl : ValidLowering registry d lowering schema)
    (hinputs : mapInterfaces schema.id lowering.inputMap schema.inputs = .ok inputs) :
    ((sortBy SubgraphInterfacePort.toKey inputs).map SubgraphInterfacePort.inner).Nodup := by
  have hmaps := hl.inputs
  unfold validPortMaps at hmaps
  simp only [Bool.and_eq_true, Bool.not_eq_true', hasDuplicates_eq_false] at hmaps
  have hinner : (schema.inputs.map SubgraphInterfacePort.inner).Nodup :=
    (List.nodup_append.mp hv.bindings_nodup).2.1
  rw [((sortBy_perm SubgraphInterfacePort.toKey inputs).map _).nodup_iff, mapInterfaces_ok hinputs]
  exact interfaceInner_nodup (invalidSchema_interfaces hv.normal hv.valid).1 hinner hmaps.2

/-- In the reference graph, `verify_edges` asks only that the interface inputs be mapped. -/
theorem reference_verified (hi : registry.Invariant blake3)
    (hv : ValidSchema blake3 registry schema) (hl : ValidLowering registry d lowering schema)
    {graph : Graph} (hnodes : InnerNodes registry schema graph.nodes)
    (hinputs : mapInterfaces schema.id lowering.inputMap schema.inputs = .ok inputs)
    (hinvocation : graph.invocationInputs =
      (sortBy SubgraphInterfacePort.toKey inputs).map SubgraphInterfacePort.inner)
    (hedges : graph.edges = schema.edges) (hfeedback : graph.feedback = []) :
    VerifiedGraph graph (nodeTable registry.descriptors graph.nodes) ↔
      mapsEveryRequiredInput registry schema lowering = true := by
  have hnd := nodes_nodup_of_checked hv.normal hv.valid
  have htable := hnodes.get?_table hnd
  have hmem := mem_mappedInputs hv hinputs
  rw [← hinvocation] at hmem
  have hbindings : graph.bindings = schema.edges.map Edge.dst ++ graph.invocationInputs := by
    unfold Graph.bindings
    rw [hedges, hfeedback, List.map_nil, List.append_nil]
  have hdisjoint := (List.nodup_append.mp hv.bindings_nodup).2.2
  constructor
  · intro hverified
    refine List.all_eq_true.mpr fun port hport => ?_
    obtain ⟨-, input, hinput⟩ := hv.input port hport
    obtain ⟨nodeD, hnodeD, hnamed⟩ := Option.bind_eq_some_iff.mp hinput
    have hsome := portNamed_eq_some
      (hi.descriptor _ _ (mem_nodes_of_descriptorOf hnodeD).choose_spec.2.2).inputs_nodup |>.mp
        hnamed
    cases hopt : input.optional with
    | true => simp [hinput, hopt]
    | false =>
      -- the inner input is bound, and not by an edge since the interface binds it
      have hbound := hverified.bound port.inner.node nodeD
        ((htable _).trans hnodeD) input hsome.1 hopt
      rw [hsome.2, hbindings, List.mem_append] at hbound
      have hinv : port.inner ∈ graph.invocationInputs := hbound.resolve_left fun hedge =>
        hdisjoint _ hedge _ (List.mem_map_of_mem hport) rfl
      obtain ⟨port', hport', hinner, map, hmap, hname⟩ := (hmem _).mp hinv
      have hsame : port' = port :=
        List.inj_on_of_nodup_map (List.nodup_append.mp hv.bindings_nodup).2.1 hport' hport hinner
      have hany : (lowering.inputMap.any fun map => decide (map.inner = port.name)) = true := by
        rw [List.any_eq_true]
        exact ⟨map, hmap, by simpa [hsame] using hname⟩
      simp [hany]
  · intro hmaps
    refine ⟨?_, by simp [hfeedback], ?_, ?_, ?_⟩
    · intro edge hedge
      rw [hedges] at hedge
      obtain ⟨output, input, hout, hin, hsat⟩ := hv.edge edge hedge
      obtain ⟨srcD, hsrc, hsrcPort⟩ := Option.bind_eq_some_iff.mp hout
      obtain ⟨dstD, hdst, hdstPort⟩ := Option.bind_eq_some_iff.mp hin
      have hvalid := hi.descriptor _ _ (mem_nodes_of_descriptorOf hsrc).choose_spec.2.2
      have hport := (portNamed_eq_some hvalid.outputs_nodup).mp hsrcPort
      exact ⟨output, input, ⟨srcD, dstD, (htable _).trans hsrc, (htable _).trans hdst, hsrcPort,
        hdstPort⟩, ((invalidPorts_eq_false hvalid.ports.2).2 output hport.1).2.2.1, hsat⟩
    · intro inner hinner
      obtain ⟨port, hport, rfl, -⟩ := (hmem inner).mp hinner
      obtain ⟨-, input, hinput⟩ := hv.input port hport
      obtain ⟨nodeD, hnodeD, hnamed⟩ := Option.bind_eq_some_iff.mp hinput
      exact ⟨nodeD, input, (htable _).trans hnodeD, hnamed⟩
    · rw [hbindings, List.nodup_append]
      refine ⟨(List.nodup_append.mp hv.bindings_nodup).1, ?_, fun a ha b hb hab => ?_⟩
      · rw [hinvocation]
        exact mappedInputs_nodup hv hl hinputs
      · obtain ⟨port, hport, rfl, -⟩ := (hmem b).mp hb
        exact hdisjoint a ha _ (List.mem_map_of_mem hport) hab
    · intro node nodeD hget input hinput hopt
      rw [htable] at hget
      obtain ⟨inner, hinner, rfl, hnodeD⟩ := mem_nodes_of_descriptorOf hget
      have hbound := hv.bound inner hinner nodeD hnodeD input hinput hopt
      unfold SubgraphSchema.bindings at hbound
      rw [hbindings, List.mem_append]
      rcases List.mem_append.mp hbound with hedge | hport
      · exact Or.inl hedge
      · obtain ⟨port, hport, hportInner⟩ := List.mem_map.mp hport
        have hnamed : schema.inputPort registry.descriptors port.inner = some input := by
          rw [hportInner]
          exact Option.bind_eq_some_iff.mpr ⟨nodeD, hget,
            (portNamed_eq_some (hi.descriptor _ _ hnodeD).inputs_nodup).mpr ⟨hinput, rfl⟩⟩
        have hmapped := List.all_eq_true.mp hmaps port hport
        rw [hnamed, Option.all_some, hopt, Bool.false_or, List.any_eq_true] at hmapped
        obtain ⟨map, hmap, hname⟩ := hmapped
        exact Or.inr ((hmem _).mpr ⟨port, hport, hportInner, map, hmap, by simpa using hname⟩)

/-- What holds of every materialized graph. -/
theorem materialized_reference (hi : registry.Invariant blake3)
    (hget : registry.descriptors.get? outer.key = some d) (hlower : d.subgraph = some lowering)
    (hl : ValidLowering registry d lowering schema) (hacc : d.config.Accepts outer.config)
    (hm : materializeSubgraph registry outer = .ok m) :
    suppliesEveryField d outer.config = true ∧
      (∀ node ∈ m.graph.nodes, ∃ nodeD, registry.descriptors.get? node.key = some nodeD ∧
        nodeD.config.canonicalize node.config = .ok node.config) ∧
      m.graph.feedback = [] ∧ (m.graph.nodes.map NodeInstance.id).Nodup ∧
      (VerifiedGraph m.graph (nodeTable registry.descriptors m.graph.nodes) ↔
        mapsEveryRequiredInput registry schema lowering = true) := by
  have hd := hi.descriptor _ _ hget
  have hv := hi.schema _ _ hl.registered
  obtain ⟨⟨bound, hbound, hnodes⟩, ⟨inputs, hinputs, hinvocation⟩, hedges, hfeedback⟩ :=
    materializeSubgraph_ok hget hlower hl.registered
      (ConfigSchema.canonicalize_eq_ok.mpr ⟨hacc, rfl⟩) hm
  have hvalues := bindConfigs_values hbound
  obtain ⟨bound', hbound', hinner⟩ := bindConfigs_total hi hd hv hl hacc hvalues
  rw [Except.ok.inj (hbound'.symm.trans hbound)] at hinner
  obtain ⟨nodes, hnodes', hinnerNodes, hcanonical⟩ := canonicalizeInner_total hi hinner schema.id
  rw [Except.ok.inj (hnodes'.symm.trans hnodes)] at hinnerNodes hcanonical
  refine ⟨List.all_eq_true.mpr fun field hfield => ?_, hcanonical, hfeedback, ?_,
    reference_verified hi hv hl hinnerNodes hinputs hinvocation hedges hfeedback⟩
  · obtain ⟨map, hmap, hname⟩ := (hl.mem_outer field.name).mpr ⟨field, hfield, rfl⟩
    obtain ⟨value, hvalue⟩ := hvalues map hmap
    rw [hname, ConfigSchema.get?_filled hd.fields _ hfield] at hvalue
    have hsome : (ConfigSchema.chosen outer.config field).isSome = true := by
      rw [hvalue]
      rfl
    simpa [ConfigSchema.chosen, Option.isSome_or] using hsome
  · rw [hinnerNodes.ids]
    exact nodes_nodup_of_checked hv.normal hv.valid

/-! ## A node with one optional field -/

/-- An optional field without a default. -/
def gainField : ConfigField :=
  { name := "gain"
    valueType := .u64 0 10
    required := false
    default := none }

/-- A node with the field that lowers to `processSchema` and hands its value on. -/
def gainDescriptor : NodeDescriptor :=
  { fixtureDescriptor "gain" true with
    config := { fields := [gainField] }
    subgraph := some
      { subgraph := processSchema.id
        inputMap := [{ outer := "in", inner := "in" }]
        outputMap := [{ outer := "out", inner := "out" }]
        configMap := [{ outer := "gain", node := 0, inner := "gain" }] } }

def gainRegistry : KernelRegistry :=
  KernelRegistry.after processBlake3
    [.descriptor { fixtureDescriptor "process" true with config := { fields := [gainField] } },
      .subgraph processSchema, .descriptor gainDescriptor]

def gainInstance (config : Config) : NodeInstance :=
  { id := 7, descriptor := "gain", descriptorVersion := 1, config := config }

/-! ## When a lowering materializes -/

/-- A lowering materializes into a compilable reference graph exactly when every outer field has
    a value and every interface input that needs one has a binding. -/
theorem materialize_compilable_iff {blake3 : Blake3} {registry : KernelRegistry}
    (hreach : registry.Reachable blake3) {outer : NodeInstance} {d : NodeDescriptor}
    (hget : registry.descriptors.get? outer.key = some d) {lowering : SubgraphLowering}
    (hlower : d.subgraph = some lowering) {schema : SubgraphSchema}
    (hschema : registry.subgraphs.get? lowering.subgraph = some schema)
    (hchild : ∀ node ∈ schema.nodes, node.child = none) {outerConfig : Config}
    (hcanon : d.config.canonicalize outer.config = .ok outerConfig) :
    (∃ m, materializeSubgraph registry outer = .ok m ∧ CompilableReference registry m.graph) ↔
      suppliesEveryField d outer.config = true ∧
        mapsEveryRequiredInput registry schema lowering = true := by
  have hi := hreach.invariant
  have hd := hi.descriptor _ _ hget
  have hv := hi.schema _ _ hschema
  obtain ⟨schema', hl⟩ := hi.lowering _ _ hget _ hlower
  have hsame : schema' = schema := Option.some.inj (hl.registered.symm.trans hschema)
  rw [hsame] at hl
  obtain ⟨hacc, hfilled⟩ := ConfigSchema.canonicalize_eq_ok.mp hcanon
  constructor
  · rintro ⟨m, hm, hcompilable⟩
    obtain ⟨hfields, -, -, -, hverified⟩ := materialized_reference hi hget hlower hl hacc hm
    obtain ⟨ports, hports⟩ := hcompilable.verified
    exact ⟨hfields, hverified.mp (verifyEdges_eq_ok.mp hports).1⟩
  · rintro ⟨hfields, hmaps⟩
    obtain ⟨m, hm⟩ := materializeSubgraph_total hi hget hlower hl hchild hacc hfields
    obtain ⟨-, hcanonical, hfeedback, hnd, hiff⟩ :=
      materialized_reference hi hget hlower hl hacc hm
    have hverified := hiff.mpr hmaps
    have hbindings : m.graph.bindings = m.graph.edges.map Edge.dst ++ m.graph.invocationInputs := by
      unfold Graph.bindings
      rw [hfeedback, List.map_nil, List.append_nil]
    refine ⟨m, hm, hcanonical, fun edge hedge => ?_,
      fun node hnode nodeD hnodeD input hinput hopt => ?_,
      _, verifyEdges_eq_ok.mpr ⟨hverified, rfl⟩⟩
    · obtain ⟨output, input, hjoins, -, hsat⟩ := hverified.edge edge hedge
      exact ⟨output, input, hjoins, hsat⟩
    · have hmem := hverified.bound node.id nodeD
        ((get?_nodeTable hnd).mpr ⟨node, hnode, rfl, hnodeD⟩) input hinput hopt
      rw [← hbindings]
      exact List.count_eq_one_of_mem hverified.bindings_nodup hmem

end

theorem materialize_compilable_gain :
    ∃ m, materializeSubgraph gainRegistry (gainInstance (BTreeMap.ofList [("gain", .u64 3)])) =
      .ok m ∧
      CompilableReference gainRegistry m.graph := by
  have hreach : gainRegistry.Reachable processBlake3 := ⟨_, rfl⟩
  have hget : gainRegistry.descriptors.get?
      (gainInstance (BTreeMap.ofList [("gain", .u64 3)])).key =
        some (gainDescriptor.normalized gainDescriptor.config) := by decide +kernel
  have hschema : gainRegistry.subgraphs.get? processSchema.id = some processSchema := by
    decide +kernel
  have hcanon : (gainDescriptor.normalized gainDescriptor.config).config.canonicalize
      (gainInstance (BTreeMap.ofList [("gain", .u64 3)])).config =
        .ok (BTreeMap.ofList [("gain", .u64 3)]) := by decide +kernel
  refine (materialize_compilable_iff hreach hget rfl hschema (by decide +kernel) hcanon).mpr
    ⟨?_, ?_⟩
  · decide +kernel
  · decide +kernel

/-- The optional field is not supplied, and the materialization fails. -/
theorem materialize_fails_without_value :
    gainRegistry.Reachable processBlake3 ∧
      gainRegistry.descriptors.get? (gainInstance BTreeMap.empty).key =
        some (gainDescriptor.normalized gainDescriptor.config) ∧
      (gainDescriptor.config.canonicalize (gainInstance BTreeMap.empty).config).isOk = true ∧
      gainRegistry.subgraphs.get? processSchema.id = some processSchema ∧
      (∀ node ∈ processSchema.nodes, node.child = none) ∧
      materializeSubgraph gainRegistry (gainInstance BTreeMap.empty) =
        .error (.err (.invalidSubgraph processSchema.id)) := by
  refine ⟨⟨_, rfl⟩, ?_, ?_, ?_, ?_, ?_⟩
  all_goals decide +kernel

end Blut.GraphCore
