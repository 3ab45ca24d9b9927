/-
  What every reachable registry satisfies.

  An admitted entry is valid over the tables it was checked against (`admitDescriptor_ok`,
  `admitSubgraph_ok`), tables only ever grow (`KernelRegistry.Extends`), and validity
  survives growth. `KernelRegistry.Invariant` collects the result.
-/
import Blut.GraphCore.Registry

namespace Blut.GraphCore

open Blut.Lib

/-! ## Admitted descriptors -/

/-- A descriptor that passes the checks of `register_descriptor`. -/
structure ValidDescriptor (descriptor : NodeDescriptor) : Prop where
  valid : invalidDescriptor descriptor = false
  fields : (descriptor.config.fields.map ConfigField.name).Nodup

variable {registry : KernelRegistry} {descriptor d : NodeDescriptor} {port : PortDescriptor}
  {lowering : SubgraphLowering}
  {schema : SubgraphSchema} {node : SubgraphNode} {table : NodeTable}
  {id : SubgraphId} {bound : BTreeSet PortRef} {blake3 : Blake3}

theorem admitDescriptor_ok {stored : NodeDescriptor}
    (h : admitDescriptor registry descriptor = .ok stored) :
    (∃ config, descriptor.config.normalize = .ok config ∧ stored = descriptor.normalized config) ∧
      ValidDescriptor stored ∧ registry.descriptors.contains stored.key = false ∧
      ∀ lowering, stored.subgraph = some lowering →
        validateSubgraphLowering stored lowering registry.subgraphs registry.descriptors =
          .ok () := by
  simp only [admitDescriptor, bind_eq_ok, mapErr_eq_ok, reject_eq_ok, pure_eq_ok, Except.ok.injEq]
    at h
  obtain ⟨config, hconfig, _, hnew, _, hvalid, _, hlowering, rfl⟩ := h
  refine ⟨⟨config, hconfig, rfl⟩, ⟨hvalid,
    ConfigSchema.normalize_nodup hconfig⟩, hnew, fun lowering hl => ?_⟩
  rw [hl] at hlowering
  cases hv : validateSubgraphLowering (descriptor.normalized config) lowering registry.subgraphs
      registry.descriptors with
  | error fault => simp [hv] at hlowering
  | ok u => rfl

/-- The ports of a valid descriptor have distinct names and pass their own checks. -/
theorem invalidPorts_eq_false {ports : List PortDescriptor} (h : invalidPorts ports = false) :
    (ports.map PortDescriptor.name).Nodup ∧
      ∀ port ∈ ports, port.name ≠ "" ∧ port.semanticType ≠ "" ∧ 0 < port.maxBytes ∧
        port.layouts ≠ [] ∧ validPortContract port = true := by
  unfold invalidPorts at h
  rw [Bool.or_eq_false_iff, hasDuplicates_eq_false] at h
  refine ⟨h.2, fun port hport => ?_⟩
  have hall := List.any_eq_false.mp h.1 port hport
  simp only [Bool.or_eq_true, decide_eq_true_eq, List.isEmpty_iff, Bool.not_eq_true', not_or,
    Bool.not_eq_false] at hall
  obtain ⟨⟨⟨⟨hname, htype⟩, hbytes⟩, hlayouts⟩, hcontract⟩ := hall
  exact ⟨hname, htype, Nat.pos_of_ne_zero hbytes, hlayouts, hcontract⟩

namespace ValidDescriptor

theorem ports (h : ValidDescriptor descriptor) :
    invalidPorts descriptor.inputs = false ∧ invalidPorts descriptor.outputs = false := by
  have hvalid := h.valid
  unfold invalidDescriptor at hvalid
  simp only [Bool.or_eq_false_iff] at hvalid
  exact ⟨hvalid.1.1.1.1.1.2, hvalid.1.1.1.1.2⟩

theorem inputs_nodup (h : ValidDescriptor descriptor) :
    (descriptor.inputs.map PortDescriptor.name).Nodup :=
  (invalidPorts_eq_false h.ports.1).1

theorem outputs_nodup (h : ValidDescriptor descriptor) :
    (descriptor.outputs.map PortDescriptor.name).Nodup :=
  (invalidPorts_eq_false h.ports.2).1

end ValidDescriptor

/-- A named port is the only one of its name. -/
theorem portNamed_eq_some {ports : List PortDescriptor}
    (hnd : (ports.map PortDescriptor.name).Nodup) {name : String} :
    portNamed ports name = some port ↔ port ∈ ports ∧ port.name = name := by
  exact find?_key_eq_some hnd

/-! ## Admitted schemas -/

/-- The inner inputs a schema binds, by edge or by interface. -/
def SubgraphSchema.bindings (schema : SubgraphSchema) : List PortRef :=
  schema.edges.map Edge.dst ++ schema.inputs.map SubgraphInterfacePort.inner

/-- An inner node with its canonical configuration and a child of the same interface. -/
structure ValidNode (registry : KernelRegistry) (schema : SubgraphSchema) (node : SubgraphNode)
    (descriptor : NodeDescriptor) : Prop where
  described : registry.descriptors.get? node.nodeType.key = some descriptor
  config : descriptor.config.canonicalize node.config = .ok node.config
  child : ∀ id, node.child = some id → id ≠ schema.id ∧ ∃ child,
    registry.subgraphs.get? id = some child ∧
      subgraphImplementsDescriptor child descriptor registry.descriptors = true

/-- A schema in normal form that passes the checks of `register_subgraph`. -/
structure ValidSchema (blake3 : Blake3) (registry : KernelRegistry) (schema : SubgraphSchema) :
    Prop where
  normal : schema.normalized = schema
  valid : invalidSchema blake3 schema = false
  node : ∀ node ∈ schema.nodes, ∃ descriptor, ValidNode registry schema node descriptor
  edge : ∀ edge ∈ schema.edges, ∃ output input,
    schema.outputPort registry.descriptors edge.src = some output ∧
      schema.inputPort registry.descriptors edge.dst = some input ∧
      portContractSatisfies output input = true
  input : ∀ port ∈ schema.inputs, port.name ≠ "" ∧ ∃ input,
    schema.inputPort registry.descriptors port.inner = some input
  output : ∀ port ∈ schema.outputs, port.name ≠ "" ∧ ∃ output,
    schema.outputPort registry.descriptors port.inner = some output
  bindings_nodup : schema.bindings.Nodup
  bound : ∀ node ∈ schema.nodes, ∀ descriptor,
    registry.descriptors.get? node.nodeType.key = some descriptor →
      ∀ input ∈ descriptor.inputs, input.optional = false →
        ({ node := node.id, port := input.name } : PortRef) ∈ schema.bindings
  acyclic : schema.Acyclic

theorem describeNode_ok {out : NodeTable}
    (h : describeNode registry schema table node = .ok out) :
    ∃ descriptor, ValidNode registry schema node descriptor ∧
      out = table.insert node.id descriptor := by
  simp only [describeNode, bind_eq_ok, okOr_eq_ok, reject_eq_ok, pure_eq_ok, Except.ok.injEq,
    Bool.or_eq_false_iff] at h
  obtain ⟨descriptor, hget, _, ⟨hconfig, hchild⟩, rfl⟩ := h
  refine ⟨descriptor, ⟨hget, ?_, ?_⟩, rfl⟩
  · unfold invalidNodeConfig at hconfig
    cases hc : descriptor.config.canonicalize node.config with
    | error fault => simp [hc] at hconfig
    | ok canonical =>
      have heq : canonical = node.config := by simpa [hc] using hconfig
      rw [heq]
  · intro id hid
    rw [hid, invalidNodeChild] at hchild
    split_ifs at hchild with hself
    cases hs : registry.subgraphs.get? id with
    | none => simp [hs] at hchild
    | some child => exact ⟨hself, child, rfl, by simpa [hs] using hchild⟩

/-- The table of the node loop holds the descriptor of every node. -/
theorem describeNodes_ok {nodes : List SubgraphNode} (hnd : (nodes.map SubgraphNode.id).Nodup)
    (h : nodes.foldlM (describeNode registry schema) BTreeMap.empty = .ok table) :
    (∀ node ∈ nodes, ∃ descriptor, ValidNode registry schema node descriptor) ∧
      ∀ id, table.get? id = (nodes.find? fun n => n.id = id).bind fun n =>
        registry.descriptors.get? n.nodeType.key := by
  refine foldlM_prefix_inv (fun done table =>
    (∀ node ∈ done, ∃ descriptor, ValidNode registry schema node descriptor) ∧
      ∀ id, table.get? id = (done.find? fun n => n.id = id).bind fun n =>
        registry.descriptors.get? n.nodeType.key) nodes ?_ ⟨by simp, by simp⟩ h
  intro done node rest table out hsplit hinv hstep
  obtain ⟨descriptor, hnode, rfl⟩ := describeNode_ok hstep
  have hfresh : node.id ∉ done.map SubgraphNode.id := by
    rw [hsplit, List.map_append, List.map_cons, List.nodup_append] at hnd
    intro hmem
    exact hnd.2.2 _ hmem _ List.mem_cons_self rfl
  refine ⟨?_, ?_⟩
  · exact List.forall_mem_append.mpr ⟨hinv.1, List.forall_mem_singleton.mpr ⟨descriptor, hnode⟩⟩
  · intro id
    rw [BTreeMap.get?_insert, find?_key_append_singleton done node hfresh id]
    by_cases hid : id = node.id
    · rw [if_pos hid, if_pos hid]
      exact hnode.described.symm
    · rw [if_neg hid, if_neg hid]
      exact hinv.2 id

theorem bindSchemaEdge_eq_ok {out : BTreeSet PortRef} {edge : Edge} :
    bindSchemaEdge id table bound edge = .ok out ↔ JoinsPorts table edge.src edge.dst ∧
      bound.contains edge.dst = false ∧ out = BTreeSet.add bound edge.dst := by
  unfold bindSchemaEdge JoinsPorts Joins
  simp only [bind_eq_ok, okOr_eq_ok, reject_eq_ok, pure_eq_ok, Except.ok.injEq,
    Bool.or_eq_false_iff, Bool.not_eq_false']
  constructor
  · rintro ⟨src, hsrc, dst, hdst, output, ho, input, hi, _, ⟨hsat, hfresh⟩, rfl⟩
    exact ⟨⟨output, input, ⟨src, dst, hsrc, hdst, ho, hi⟩, hsat⟩, hfresh, rfl⟩
  · rintro ⟨⟨output, input, ⟨src, dst, hsrc, hdst, ho, hi⟩, hsat⟩, hfresh, rfl⟩
    exact ⟨src, hsrc, dst, hdst, output, ho, input, hi, (), ⟨hsat, hfresh⟩, rfl⟩

/-- The interface port has a name and stands for an input of a described node. -/
def NamesInput (table : NodeTable) (port : SubgraphInterfacePort) : Prop :=
  ∃ descriptor, table.get? port.inner.node = some descriptor ∧ port.name ≠ "" ∧
    ∃ input, portNamed descriptor.inputs port.inner.port = some input

theorem any_name_iff {ports : List PortDescriptor} {name : String} :
    ports.any (fun port => decide (port.name = name)) = true ↔
      ∃ port, portNamed ports name = some port := by
  rw [← Option.isSome_iff_exists, portNamed, List.find?_isSome]
  simp

theorem bindInterfaceInput_eq_ok {out : BTreeSet PortRef} {port : SubgraphInterfacePort} :
    bindInterfaceInput id table bound port = .ok out ↔ NamesInput table port ∧
      bound.contains port.inner = false ∧ out = BTreeSet.add bound port.inner := by
  unfold bindInterfaceInput NamesInput
  simp only [bind_eq_ok, okOr_eq_ok, reject_eq_ok, pure_eq_ok, Except.ok.injEq,
    Bool.or_eq_false_iff, Bool.not_eq_false', decide_eq_false_iff_not, any_name_iff]
  constructor
  · rintro ⟨descriptor, hget, _, ⟨⟨hname, hinput⟩, hfresh⟩, rfl⟩
    exact ⟨⟨descriptor, hget, hname, hinput⟩, hfresh, rfl⟩
  · rintro ⟨⟨descriptor, hget, hname, hinput⟩, hfresh, rfl⟩
    exact ⟨descriptor, hget, (), ⟨⟨hname, hinput⟩, hfresh⟩, rfl⟩

theorem checkInterfaceOutput_ok {port : SubgraphInterfacePort}
    (h : checkInterfaceOutput id table port = .ok ()) :
    ∃ descriptor, table.get? port.inner.node = some descriptor ∧ port.name ≠ "" ∧
      ∃ output, portNamed descriptor.outputs port.inner.port = some output := by
  simpa only [checkInterfaceOutput, bind_eq_ok, okOr_eq_ok, reject_eq_ok, Bool.or_eq_false_iff,
    decide_eq_false_iff_not, Bool.not_eq_false', any_name_iff] using h

theorem SubgraphSchema.normalized_idem (schema : SubgraphSchema) :
    schema.normalized.normalized = schema.normalized := by
  have hnodes := sortBy_eq_of_sorted (sortBy_sorted SubgraphNode.id schema.nodes)
  have hedges := sortBy_eq_of_sorted (sortBy_sorted Edge.toKey schema.edges)
  have hinputs := sortBy_eq_of_sorted (sortBy_sorted SubgraphInterfacePort.toKey schema.inputs)
  have houtputs := sortBy_eq_of_sorted (sortBy_sorted SubgraphInterfacePort.toKey schema.outputs)
  simp only [SubgraphSchema.normalized, hnodes, hedges, hinputs, houtputs]

/-- A schema that passes the checks on it alone has distinct node ids. -/
theorem nodes_nodup_of_checked (hnormal : schema.normalized = schema)
    (h : invalidSchema blake3 schema = false) : (schema.nodes.map SubgraphNode.id).Nodup := by
  unfold invalidSchema at h
  simp only [Bool.or_eq_false_iff] at h
  obtain ⟨⟨⟨⟨⟨-, hdup⟩, -⟩, -⟩, -⟩, -⟩ := h
  have hsorted : schema.nodes.Pairwise (fun a b => a.id ≤ b.id) := by
    rw [← hnormal]
    exact sortBy_sorted SubgraphNode.id schema.nodes
  exact (windowsAny_key_eq_false (by simp) hsorted).mp hdup

/-- The names of a sorted interface that passes its check are distinct. -/
theorem interface_names_nodup {ports : List SubgraphInterfacePort}
    (hsorted : ports.Pairwise (fun a b => a.toKey ≤ b.toKey))
    (h : duplicateInterface ports = false) : (ports.map SubgraphInterfacePort.name).Nodup := by
  unfold duplicateInterface at h
  rw [Bool.or_eq_false_iff] at h
  refine (windowsAny_key_eq_false (by simp) (hsorted.imp fun {a b} hab => ?_)).mp h.1
  rcases Prod.Lex.toLex_le_toLex.mp hab with hlt | ⟨heq, -⟩
  · exact le_of_lt hlt
  · exact le_of_eq heq

theorem invalidSchema_interfaces (hnormal : schema.normalized = schema)
    (h : invalidSchema blake3 schema = false) :
    (schema.inputs.map SubgraphInterfacePort.name).Nodup ∧
      (schema.outputs.map SubgraphInterfacePort.name).Nodup := by
  unfold invalidSchema at h
  simp only [Bool.or_eq_false_iff] at h
  obtain ⟨⟨⟨-, hin⟩, hout⟩, -⟩ := h
  have hinputs : schema.inputs.Pairwise (fun a b => a.toKey ≤ b.toKey) := by
    rw [← hnormal]
    exact sortBy_sorted SubgraphInterfacePort.toKey schema.inputs
  have houtputs : schema.outputs.Pairwise (fun a b => a.toKey ≤ b.toKey) := by
    rw [← hnormal]
    exact sortBy_sorted SubgraphInterfacePort.toKey schema.outputs
  exact ⟨interface_names_nodup hinputs hin, interface_names_nodup houtputs hout⟩

theorem descriptorOf_node (descriptors : DescriptorTable)
    (hnd : (schema.nodes.map SubgraphNode.id).Nodup) (hnode : node ∈ schema.nodes) :
    schema.descriptorOf descriptors node.id = descriptors.get? node.nodeType.key := by
  unfold SubgraphSchema.descriptorOf
  rw [(find?_key_eq_some hnd).mpr ⟨hnode, rfl⟩]
  rfl

theorem mem_nodes_of_descriptorOf {descriptors : DescriptorTable} {id : NodeId}
    (h : schema.descriptorOf descriptors id = some descriptor) :
    ∃ node ∈ schema.nodes, node.id = id ∧ descriptors.get? node.nodeType.key = some descriptor := by
  unfold SubgraphSchema.descriptorOf at h
  obtain ⟨node, hfind, hget⟩ := Option.bind_eq_some_iff.mp h
  exact ⟨node, List.mem_of_find?_eq_some hfind, by simpa using List.find?_some hfind, hget⟩

/-- Every non-optional input of every described node is bound. -/
theorem missesInput_eq_false (h : missesInput table bound = false) {id : NodeId}
    (hget : table.get? id = some descriptor) {input : PortDescriptor}
    (hinput : input ∈ descriptor.inputs) (hopt : input.optional = false) :
    bound.contains { node := id, port := input.name } = true := by
  unfold missesInput at h
  have hentry := List.any_eq_false.mp h (id, descriptor) ((BTreeMap.get?_eq_some_iff table).mp hget)
  have hport := List.any_eq_false.mp (by simpa only [Bool.not_eq_true] using hentry) input hinput
  simpa [hopt] using hport

/-- An admitted schema is valid over the registry it was checked against, and is new. -/
theorem admitSubgraph_ok {stored : SubgraphSchema}
    (h : admitSubgraph blake3 registry schema = .ok stored) :
    ValidSchema blake3 registry stored ∧ registry.subgraphs.contains stored.id = false := by
  simp only [admitSubgraph, bind_eq_ok, reject_eq_ok] at h
  obtain ⟨_, hbad, table, hnodes, edgeBound, hedges, bound, hinputs, u, houtputs, acyclic, hacyclic,
    _, hlast, h⟩ := h
  have hstored : schema.normalized = stored := by simpa using h
  have hnormal : stored.normalized = stored := by
    rw [← hstored]
    exact schema.normalized_idem
  rw [hstored] at hbad hnodes hedges hinputs houtputs hacyclic
  rw [Bool.or_eq_false_iff] at hbad hlast
  have hnd := nodes_nodup_of_checked hnormal hbad.1
  obtain ⟨hvalidNodes, htable⟩ := describeNodes_ok hnd hnodes
  have hdescribed : ∀ id, table.get? id = stored.descriptorOf registry.descriptors id := htable
  obtain ⟨hedgeOk, hedgeNodup, -, hedgeBound⟩ := (BTreeSet.foldlM_fresh Edge.dst _
    fun _ _ _ => bindSchemaEdge_eq_ok).mp hedges
  obtain ⟨hinputOk, hinputNodup, hinputFresh, hbound⟩ := (BTreeSet.foldlM_fresh
    SubgraphInterfacePort.inner _ fun _ _ _ => bindInterfaceInput_eq_ok).mp hinputs
  have hdst : ∀ edge ∈ stored.edges, edge.dst.node ∈ stored.nodes.map SubgraphNode.id := by
    intro edge hedge
    obtain ⟨-, -, ⟨-, dst, -, hdst, -⟩, -⟩ := hedgeOk edge hedge
    rw [hdescribed] at hdst
    obtain ⟨node, hnode, hnid, -⟩ := mem_nodes_of_descriptorOf hdst
    exact List.mem_map.mpr ⟨node, hnode, hnid⟩
  refine ⟨⟨hnormal, hbad.1, hvalidNodes, ?_, ?_, ?_, ?_, ?_, ?_⟩, hbad.2⟩
  · intro edge hedge
    obtain ⟨output, input, ⟨src, dst, hsrc, hdst, houtput, hinput⟩, hsat⟩ := hedgeOk edge hedge
    rw [hdescribed] at hsrc hdst
    exact ⟨output, input, Option.bind_eq_some_iff.mpr ⟨src, hsrc, houtput⟩,
      Option.bind_eq_some_iff.mpr ⟨dst, hdst, hinput⟩, hsat⟩
  · intro port hport
    obtain ⟨descriptor, hget, hname, input, hinput⟩ := hinputOk port hport
    rw [hdescribed] at hget
    exact ⟨hname, input, Option.bind_eq_some_iff.mpr ⟨descriptor, hget, hinput⟩⟩
  · intro port hport
    obtain ⟨descriptor, hget, hname, output, houtput⟩ :=
      checkInterfaceOutput_ok (forM_eq_ok.mp houtputs port hport)
    rw [hdescribed] at hget
    exact ⟨hname, output, Option.bind_eq_some_iff.mpr ⟨descriptor, hget, houtput⟩⟩
  · unfold SubgraphSchema.bindings
    rw [List.nodup_append]
    refine ⟨hedgeNodup, hinputNodup, fun a ha b hb hab => ?_⟩
    have hfresh := hinputFresh b hb
    rw [hedgeBound, BTreeSet.contains_extend, Bool.or_eq_false_iff] at hfresh
    exact (decide_eq_false_iff_not.mp hfresh.1) (hab ▸ ha)
  · intro node hnode descriptor hget input hinput hopt
    have htableNode : table.get? node.id = some descriptor := by
      rw [hdescribed, descriptorOf_node _ hnd hnode]
      exact hget
    have hin := missesInput_eq_false hlast.1 htableNode hinput hopt
    rw [hbound, hedgeBound, BTreeSet.contains_extend, BTreeSet.contains_extend] at hin
    unfold SubgraphSchema.bindings
    rw [List.mem_append]
    simpa [or_comm] using hin
  · have htrue : acyclic = true := by simpa using hlast.2
    exact acyclic_of_subgraphIsAcyclic hdst (htrue ▸ hacyclic)

/-! ## Growth -/

/-- Every descriptor and subgraph of one registry is in the other. -/
structure KernelRegistry.Extends (small large : KernelRegistry) : Prop where
  descriptor : ∀ key d, small.descriptors.get? key = some d → large.descriptors.get? key = some d
  subgraph : ∀ id s, small.subgraphs.get? id = some s → large.subgraphs.get? id = some s

theorem extends_descriptor (hfresh : registry.descriptors.contains d.key = false) :
    registry.Extends { registry with descriptors := registry.descriptors.insert d.key d } :=
  ⟨fun _ _ h => BTreeMap.get?_insert_of_fresh d hfresh h, fun _ _ h => h⟩

theorem extends_subgraph {s : SubgraphSchema} (hfresh : registry.subgraphs.contains s.id = false) :
    registry.Extends { registry with subgraphs := registry.subgraphs.insert s.id s } :=
  ⟨fun _ _ h => h, fun _ _ h => BTreeMap.get?_insert_of_fresh s hfresh h⟩

theorem extends_kernel (k : KernelDescriptor) :
    registry.Extends { registry with kernels := registry.kernels.insert k.id k } :=
  ⟨fun _ _ h => h, fun _ _ h => h⟩

section

variable {small large : KernelRegistry} (h : small.Extends large)
include h

namespace KernelRegistry.Extends

theorem descriptorOf {id : NodeId} (hd : schema.descriptorOf small.descriptors id = some d) :
    schema.descriptorOf large.descriptors id = some d := by
  obtain ⟨node, hfind, hget⟩ := Option.bind_eq_some_iff.mp hd
  exact Option.bind_eq_some_iff.mpr ⟨node, hfind, h.descriptor _ _ hget⟩

theorem inputPort {inner : PortRef} (hp : schema.inputPort small.descriptors inner = some port) :
    schema.inputPort large.descriptors inner = some port := by
  obtain ⟨d, hd, hport⟩ := Option.bind_eq_some_iff.mp hp
  exact Option.bind_eq_some_iff.mpr ⟨d, h.descriptorOf hd, hport⟩

theorem outputPort {inner : PortRef} (hp : schema.outputPort small.descriptors inner = some port) :
    schema.outputPort large.descriptors inner = some port := by
  obtain ⟨d, hd, hport⟩ := Option.bind_eq_some_iff.mp hp
  exact Option.bind_eq_some_iff.mpr ⟨d, h.descriptorOf hd, hport⟩

end KernelRegistry.Extends

omit h in
theorem interfaceMatches_mono {inner inner' : Option PortDescriptor}
    {interface : SubgraphInterfacePort} {expected : PortDescriptor}
    (hmono : ∀ port, inner = some port → inner' = some port)
    (h : interfaceMatches inner interface expected = true) :
    interfaceMatches inner' interface expected = true := by
  unfold interfaceMatches at h ⊢
  cases inner with
  | none => exact absurd h (by simp)
  | some port =>
    rw [hmono port rfl]
    exact h

theorem KernelRegistry.Extends.implements
    (hi : subgraphImplementsDescriptor schema d small.descriptors = true) :
    subgraphImplementsDescriptor schema d large.descriptors = true := by
  unfold subgraphImplementsDescriptor at hi ⊢
  simp only [Bool.and_eq_true, List.all_eq_true, Option.any_eq_true] at hi ⊢
  obtain ⟨⟨hlengths, hinputs⟩, houtputs⟩ := hi
  refine ⟨⟨hlengths, fun expected he => ?_⟩, fun expected he => ?_⟩
  · obtain ⟨interface, hfind, hmatch⟩ := hinputs expected he
    exact ⟨interface, hfind, interfaceMatches_mono (fun _ => h.inputPort) hmatch⟩
  · obtain ⟨interface, hfind, hmatch⟩ := houtputs expected he
    exact ⟨interface, hfind, interfaceMatches_mono (fun _ => h.outputPort) hmatch⟩

theorem ValidNode.mono (hv : ValidNode small schema node d) : ValidNode large schema node d := by
  refine ⟨h.descriptor _ _ hv.described, hv.config, fun id hid => ?_⟩
  obtain ⟨hself, child, hchild, himpl⟩ := hv.child id hid
  exact ⟨hself, child, h.subgraph _ _ hchild, h.implements himpl⟩

theorem ValidSchema.mono
    (hv : ValidSchema blake3 small schema) : ValidSchema blake3 large schema where
  normal := hv.normal
  valid := hv.valid
  node node hnode := (hv.node node hnode).imp fun _ hd => hd.mono h
  edge edge hedge := by
    obtain ⟨output, input, ho, hi, hsat⟩ := hv.edge edge hedge
    exact ⟨output, input, h.outputPort ho, h.inputPort hi, hsat⟩
  input port hport := (hv.input port hport).imp_right (Exists.imp fun _ => h.inputPort)
  output port hport := (hv.output port hport).imp_right (Exists.imp fun _ => h.outputPort)
  bindings_nodup := hv.bindings_nodup
  bound node hnode d hd := by
    obtain ⟨d', hd'⟩ := hv.node node hnode
    have hsame : d = d' := Option.some.inj (hd.symm.trans (h.descriptor _ _ hd'.described))
    exact hv.bound node hnode d (hsame ▸ hd'.described)
  acyclic := hv.acyclic

theorem SubgraphConfigMap.fields_mono {map : SubgraphConfigMap} {fields : ConfigField × ConfigField}
    (hf : map.fields d schema small.descriptors = some fields) :
    map.fields d schema large.descriptors = some fields := by
  unfold SubgraphConfigMap.fields at hf ⊢
  simp only [Option.bind_eq_bind, Option.bind_eq_some_iff] at hf ⊢
  obtain ⟨outer, houter, node, hnode, inner, hinner, rest⟩ := hf
  exact ⟨outer, houter, node, hnode, inner, h.descriptor _ _ hinner, rest⟩

/-- What `validate_subgraph_lowering` accepts. -/
structure ValidLowering (registry : KernelRegistry) (d : NodeDescriptor)
    (lowering : SubgraphLowering) (schema : SubgraphSchema) : Prop where
  registered : registry.subgraphs.get? lowering.subgraph = some schema
  inputs : validPortMaps (d.inputs.map PortDescriptor.name) lowering.inputMap
    (schema.inputs.map SubgraphInterfacePort.name) = true
  outputs : validPortMaps (d.outputs.map PortDescriptor.name) lowering.outputMap
    (schema.outputs.map SubgraphInterfacePort.name) = true
  config : ∀ map ∈ lowering.configMap, ∃ outer inner,
    map.fields d schema registry.descriptors = some (outer, inner) ∧
      configTypeSatisfies outer.valueType inner.valueType = true
  targets : (lowering.configMap.map fun map => toLex (map.node, map.inner)).Nodup
  outer : BTreeSet.ofList (lowering.configMap.map SubgraphConfigMap.outer) =
    BTreeSet.ofList (d.config.fields.map ConfigField.name)

omit h in
theorem validateSubgraphLowering_eq_ok :
    validateSubgraphLowering d lowering registry.subgraphs registry.descriptors = .ok () ↔
      ∃ schema, ValidLowering registry d lowering schema := by
  unfold validateSubgraphLowering
  rw [bind_eq_ok]
  simp only [okOr_eq_ok, reject_eq_ok, Bool.or_eq_false_iff, Bool.not_eq_false',
    decide_eq_false_iff_not, not_not, invalidConfigMap, hasDuplicates_eq_false, List.any_eq_false]
  constructor
  · rintro ⟨schema, hget, ⟨⟨hin, hout⟩, hmaps, hnd⟩, houter⟩
    refine ⟨schema, hget, hin, hout, fun map hmap => ?_, hnd, houter⟩
    have hfields := hmaps map hmap
    cases hf : map.fields d schema registry.descriptors with
    | none => simp [hf] at hfields
    | some fields =>
      obtain ⟨outer, inner⟩ := fields
      exact ⟨outer, inner, rfl, by simpa [hf] using hfields⟩
  · rintro ⟨schema, hv⟩
    refine ⟨schema, hv.registered, ⟨⟨hv.inputs, hv.outputs⟩, fun map hmap => ?_, hv.targets⟩,
      hv.outer⟩
    obtain ⟨outer, inner, hf, hsat⟩ := hv.config map hmap
    simp [hf, hsat]

theorem ValidLowering.mono (hv : ValidLowering small d lowering schema) :
    ValidLowering large d lowering schema := by
  refine ⟨h.subgraph _ _ hv.registered, hv.inputs, hv.outputs, fun map hmap => ?_,
    hv.targets, hv.outer⟩
  obtain ⟨outer, inner, hf, hsat⟩ := hv.config map hmap
  exact ⟨outer, inner, SubgraphConfigMap.fields_mono h hf, hsat⟩

/-! ## The invariant -/

/-- A kernel either implements nodes or converts, and what it converts is checked. -/
def ValidKernel (kernel : KernelDescriptor) : Prop :=
  kernel.conversion.isSome = kernel.implements.isEmpty ∧
    ∀ conversion, kernel.conversion = some conversion → invalidConversion kernel conversion = false

/-- Every entry is valid over the registry it is in. -/
structure KernelRegistry.Invariant (blake3 : Blake3) (registry : KernelRegistry) : Prop where
  descriptor : ∀ key d, registry.descriptors.get? key = some d → ValidDescriptor d
  lowering : ∀ key d, registry.descriptors.get? key = some d → ∀ lowering,
    d.subgraph = some lowering → ∃ schema, ValidLowering registry d lowering schema
  schema : ∀ id s, registry.subgraphs.get? id = some s → ValidSchema blake3 registry s
  kernel : ∀ id k, registry.kernels.get? id = some k → ValidKernel k

omit h in
theorem admitKernel_ok {kernel stored : KernelDescriptor}
    (h : admitKernel registry kernel = .ok stored) : ValidKernel stored := by
  simp only [admitKernel, bind_eq_ok, reject_eq_ok, pure_eq_ok, Except.ok.injEq,
    Bool.or_eq_false_iff, decide_eq_false_iff_not, ne_eq, not_not] at h
  obtain ⟨_, -, _, ⟨⟨himplements, -⟩, hconversion⟩, rfl⟩ := h
  refine ⟨himplements, fun conversion hc => ?_⟩
  rw [hc] at hconversion
  simpa using hconversion

/-- Growth by one entry keeps the validity of the entries that were there. -/
theorem KernelRegistry.Invariant.grow (hi : small.Invariant blake3)
    (hd : ∀ key d, large.descriptors.get? key = some d → small.descriptors.get? key = some d ∨
      (ValidDescriptor d ∧ ∀ lowering, d.subgraph = some lowering →
        ∃ schema, ValidLowering small d lowering schema))
    (hs : ∀ id s, large.subgraphs.get? id = some s → small.subgraphs.get? id = some s ∨
      ValidSchema blake3 small s)
    (hk : ∀ id k, large.kernels.get? id = some k → small.kernels.get? id = some k ∨
      ValidKernel k) :
    large.Invariant blake3 where
  descriptor key d hget := (hd key d hget).elim (hi.descriptor key d) And.left
  lowering key d hget lowering hl := by
    have hsmall : ∃ schema, ValidLowering small d lowering schema :=
      (hd key d hget).elim (fun hold => hi.lowering key d hold lowering hl)
        fun hnew => hnew.2 lowering hl
    obtain ⟨schema, hv⟩ := hsmall
    exact ⟨schema, hv.mono h⟩
  schema id s hget := ((hs id s hget).elim (hi.schema id s) fun hnew => hnew).mono h
  kernel id k hget := (hk id k hget).elim (hi.kernel id k) fun hnew => hnew

end

/-- Every reachable registry satisfies the invariant. -/
theorem KernelRegistry.Reachable.invariant (h : registry.Reachable blake3) :
    registry.Invariant blake3 := by
  refine KernelRegistry.Reachable.induct ?_ ?_ ?_ ?_ h
  · have hnone : ∀ {κ α : Type} [LinearOrder κ] (k : κ) (v : α),
        (BTreeMap.empty : BTreeMap κ α).get? k ≠ some v := by simp
    exact ⟨fun _ _ hd => absurd hd (hnone _ _), fun _ _ hd => absurd hd (hnone _ _),
      fun _ _ hs => absurd hs (hnone _ _), fun _ _ hk => absurd hk (hnone _ _)⟩
  · intro registry d stored _ hi hadmit
    obtain ⟨-, hvalid, hfresh, hlowering⟩ := admitDescriptor_ok hadmit
    refine hi.grow (extends_descriptor hfresh) ?_ (fun _ _ hg => Or.inl hg)
      (fun _ _ hg => Or.inl hg)
    intro key d hget
    rcases BTreeMap.get?_insert_cases hget with hold | ⟨-, hd⟩
    · exact Or.inl hold
    · rw [hd]
      exact Or.inr ⟨hvalid, fun l hl => validateSubgraphLowering_eq_ok.mp (hlowering l hl)⟩
  · intro registry s stored _ hi hadmit
    obtain ⟨hvalid, hfresh⟩ := admitSubgraph_ok hadmit
    refine hi.grow (extends_subgraph hfresh) (fun _ _ hg => Or.inl hg) ?_ (fun _ _ hg => Or.inl hg)
    intro id s hget
    rcases BTreeMap.get?_insert_cases hget with hold | ⟨-, hs⟩
    · exact Or.inl hold
    · exact Or.inr (hs ▸ hvalid)
  · intro registry k stored _ hi hadmit
    refine hi.grow (extends_kernel _) (fun _ _ hg => Or.inl hg) (fun _ _ hg => Or.inl hg) ?_
    intro id k hget
    rcases BTreeMap.get?_insert_cases hget with hold | ⟨-, hk⟩
    · exact Or.inl hold
    · exact Or.inr (hk ▸ admitKernel_ok hadmit)

end Blut.GraphCore
