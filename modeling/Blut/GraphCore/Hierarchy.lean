/-
  Hierarchical schemas (`compile.rs`): the interface a schema offers, its acyclicity, the
  bounded walk down a hierarchy and the check of a descriptor's lowering.

  A schema that the Kahn loop of the source accepts has no cycle (`acyclic_of_subgraphIsAcyclic`).
-/
import Blut.Lib.TopologicalSort
import Blut.GraphCore.Config
import Blut.GraphCore.Contracts

namespace Blut.GraphCore

open Blut.Lib

inductive CompileError where
  | unsupportedGraphVersion (version : Nat)
  | duplicateNode (node : NodeId)
  | unknownNode (node : NodeId)
  | unknownDescriptor (typeName : String) (version : Nat)
  | duplicateDescriptor (typeName : String) (version : Nat)
  | invalidDescriptor (typeName : String) (version : Nat)
  | invalidConfig (node : NodeId) (error : ConfigError)
  | duplicateKernel (kernel : KernelId)
  | invalidKernelContract (kernel : KernelId)
  | unknownPort (node : NodeId) (port : String)
  | invalidPortSize (node : NodeId) (port : String)
  | typeMismatch (output input : String)
  | portCapacityMismatch (src : NodeId) (output : String) (dst : NodeId) (input : String)
  | layoutUnavailable (node : NodeId) (port : String)
  | missingInput (node : NodeId) (port : String)
  | duplicateInput (node : NodeId) (port : String)
  | duplicateInvocation (node : NodeId) (port : String)
  | cycle
  | capabilityMissing (capability : String)
  | capabilityUnsupported (capability : String)
  | targetUnsupported (node : NodeId) (target : Target)
  | kernelUnavailable (node : NodeId) (target : Target)
  | proofMissing (node : NodeId) (proof : String)
  | policyMissing (node : NodeId) (policy : String)
  | fidelityInsufficient (node : NodeId)
  | unsafeRetry (node : NodeId)
  | searchLimitExceeded
  | compileLimitExceeded
  | resourceOverflow
  | emptyGraph
  | invalidGraphContract
  | invalidState (node : NodeId)
  | invalidSession
  | invalidFeedback (node : NodeId) (port : String)
  | portContractMismatch (src : NodeId) (output : String) (dst : NodeId) (input : String)
  | unknownSubgraph (id : SubgraphId)
  | invalidSubgraph (id : SubgraphId)
  | subgraphDepthExceeded
  | subgraphEntryLimitExceeded
  deriving DecidableEq

abbrev DescriptorTable := BTreeMap DescriptorKey NodeDescriptor
abbrev SubgraphTable := BTreeMap SubgraphId SubgraphSchema

/-- The port of that name. -/
def portNamed (ports : List PortDescriptor) (name : String) : Option PortDescriptor :=
  ports.find? fun port => port.name = name

/-- The output and the input that two port references name, in a table of described nodes. -/
def Joins (table : NodeTable) (src dst : PortRef)
    (output input : PortDescriptor) : Prop :=
  ∃ srcNode dstNode, table.get? src.node = some srcNode ∧ table.get? dst.node = some dstNode ∧
    portNamed srcNode.outputs src.port = some output ∧
    portNamed dstNode.inputs dst.port = some input

/-- Two ports of described nodes, of which the output satisfies the input. -/
def JoinsPorts (table : NodeTable) (src dst : PortRef) : Prop :=
  ∃ output input, Joins table src dst output input ∧ portContractSatisfies output input = true

/-! ## Interfaces -/

namespace SubgraphSchema

/-- The descriptor of an inner node. -/
def descriptorOf (schema : SubgraphSchema) (descriptors : DescriptorTable) (node : NodeId) :
    Option NodeDescriptor :=
  (schema.nodes.find? fun n => n.id = node).bind fun n => descriptors.get? n.nodeType.key

/-- The inner port an interface input stands for. -/
def inputPort (schema : SubgraphSchema) (descriptors : DescriptorTable) (inner : PortRef) :
    Option PortDescriptor :=
  (schema.descriptorOf descriptors inner.node).bind fun d => portNamed d.inputs inner.port

/-- The inner port an interface output stands for. -/
def outputPort (schema : SubgraphSchema) (descriptors : DescriptorTable) (inner : PortRef) :
    Option PortDescriptor :=
  (schema.descriptorOf descriptors inner.node).bind fun d => portNamed d.outputs inner.port

end SubgraphSchema

/-- The inner port, under the interface's name, is the expected port. -/
def interfaceMatches (inner : Option PortDescriptor) (interface : SubgraphInterfacePort)
    (expected : PortDescriptor) : Bool :=
  inner.any fun inner => { inner with name := interface.name } = expected

def subgraphImplementsDescriptor (schema : SubgraphSchema) (descriptor : NodeDescriptor)
    (descriptors : DescriptorTable) : Bool :=
  schema.inputs.length = descriptor.inputs.length
    && schema.outputs.length = descriptor.outputs.length
    && descriptor.inputs.all (fun expected =>
      (schema.inputs.find? fun interface => interface.name = expected.name).any fun interface =>
        interfaceMatches (schema.inputPort descriptors interface.inner) interface expected)
    && descriptor.outputs.all (fun expected =>
      (schema.outputs.find? fun interface => interface.name = expected.name).any fun interface =>
        interfaceMatches (schema.outputPort descriptors interface.inner) interface expected)

/-! ## Acyclicity -/

/-- The edges of the inner graph, from node to node. -/
def SubgraphSchema.arcs (schema : SubgraphSchema) : List (NodeId × NodeId) :=
  schema.edges.map fun edge => (edge.src.node, edge.dst.node)

/-- The nodes `subgraph_is_acyclic` visits; `err ()` is its early `return false`. -/
def visitSubgraph (schema : SubgraphSchema) : Outcome Unit (List NodeId) := do
  let degree ← schema.arcs.foldlM (fun degree arc => bumpDegree (.err ()) degree arc.2)
    (BTreeMap.ofList (schema.nodes.map fun node => (node.id, 0)))
  let outgoing := BTreeMap.groupOn Prod.fst schema.arcs
  kahn Worklist.stack (.err ()) (fun node => ((outgoing.get? node).getD []).map Prod.snd) degree

def subgraphIsAcyclic {ε : Type} (schema : SubgraphSchema) : Outcome ε Bool :=
  match visitSubgraph schema with
  | .ok visited => .ok (visited.length = schema.nodes.length)
  | .error (.err _) => .ok false
  | .error .panic => .error .panic

/-! ## Bounded walk down a hierarchy -/

structure PathEntry where
  id : SubgraphId
  depth : Nat
  ancestors : BTreeSet SubgraphId

/-- The number of nodes, edges and interface ports, added with overflow checks. -/
def SubgraphSchema.countEntries (schema : SubgraphSchema) (searched : Nat) : Option Nat := do
  let count ← checkedAdd searched schema.nodes.length
  let count ← checkedAdd count schema.edges.length
  let count ← checkedAdd count schema.inputs.length
  checkedAdd count schema.outputs.length

/-- The loop of `validate_subgraph_path`; the head of `pending` is the top of the stack. -/
def walkSubgraphs (schemas : SubgraphTable) (maxDepth maxEntries : Nat) :
    Nat → List PathEntry → Nat → Outcome CompileError Unit
  | _, [], _ => .ok ()
  | 0, _ :: _, _ => .error .panic
  | fuel + 1, entry :: pending, searched => do
    let schema ← okOr (schemas.get? entry.id) (.unknownSubgraph entry.id)
    let searched ← okOr (schema.countEntries searched) .subgraphEntryLimitExceeded
    reject (searched > maxEntries) .subgraphEntryLimitExceeded
    reject (entry.depth > maxDepth) .subgraphDepthExceeded
    reject (entry.ancestors.contains entry.id) (.invalidSubgraph entry.id)
    let ancestors := BTreeSet.add entry.ancestors entry.id
    let children := (schema.nodes.filterMap SubgraphNode.child).map fun child =>
      { id := child, depth := entry.depth + 1, ancestors := ancestors : PathEntry }
    walkSubgraphs schemas maxDepth maxEntries fuel (children.reverse ++ pending) searched

/-- `validate_subgraph_path`. Every schema taken from the stack was pushed for a counted
    node, so `max_entries + 1` rounds are enough. -/
def validateSubgraphPath (schemas : SubgraphTable) (root : SubgraphId)
    (maxDepth maxEntries : Nat) : Outcome CompileError Unit :=
  walkSubgraphs schemas maxDepth maxEntries (maxEntries + 1)
    [{ id := root, depth := 1, ancestors := BTreeMap.empty }] 0

/-! ## Lowerings -/

/-- A binding of an outer field to a field of an inner node, when both exist. -/
def SubgraphConfigMap.fields (map : SubgraphConfigMap) (descriptor : NodeDescriptor)
    (schema : SubgraphSchema) (descriptors : DescriptorTable) :
    Option (ConfigField × ConfigField) := do
  let outerFields := BTreeMap.ofList (descriptor.config.fields.map fun field => (field.name, field))
  let innerNodes := BTreeMap.ofList (schema.nodes.map fun node => (node.id, node))
  let outer ← outerFields.get? map.outer
  let node ← innerNodes.get? map.node
  let innerDescriptor ← descriptors.get? node.nodeType.key
  let inner ← innerDescriptor.config.fields.find? fun field => field.name = map.inner
  return (outer, inner)

/-- Some binding lacks a field, has an unsatisfied type, or targets a field twice. -/
def invalidConfigMap (descriptor : NodeDescriptor) (lowering : SubgraphLowering)
    (schema : SubgraphSchema) (descriptors : DescriptorTable) : Bool :=
  lowering.configMap.any (fun map =>
      (map.fields descriptor schema descriptors).all fun (outer, inner) =>
        !configTypeSatisfies outer.valueType inner.valueType)
    || hasDuplicates (lowering.configMap.map fun map => toLex (map.node, map.inner))

/-- Ports mapped by name: the outer names are exactly `names`, the inner ones exist and
    none is used twice. -/
def validPortMaps (names : List String) (maps : List PortMap) (interfaces : List String) : Bool :=
  BTreeSet.ofList names = BTreeSet.ofList (maps.map PortMap.outer)
    && maps.length = (BTreeSet.ofList names).toList.length
    && maps.all (fun map => interfaces.contains map.inner)
    && !hasDuplicates (maps.map PortMap.inner)

def validateSubgraphLowering (descriptor : NodeDescriptor) (lowering : SubgraphLowering)
    (schemas : SubgraphTable) (descriptors : DescriptorTable) : Outcome CompileError Unit := do
  let schema ← okOr (schemas.get? lowering.subgraph) (.unknownSubgraph lowering.subgraph)
  reject (!validPortMaps (descriptor.inputs.map PortDescriptor.name) lowering.inputMap
        (schema.inputs.map SubgraphInterfacePort.name)
      || !validPortMaps (descriptor.outputs.map PortDescriptor.name) lowering.outputMap
        (schema.outputs.map SubgraphInterfacePort.name)
      || invalidConfigMap descriptor lowering schema descriptors
      || BTreeSet.ofList (lowering.configMap.map SubgraphConfigMap.outer)
        ≠ BTreeSet.ofList (descriptor.config.fields.map ConfigField.name))
    (.invalidSubgraph lowering.subgraph)

/-! ## An accepted schema has no cycle -/

theorem arcs_outgoing (schema : SubgraphSchema) (node : NodeId) :
    (((BTreeMap.groupOn Prod.fst schema.arcs).get? node).getD []).map Prod.snd =
      (schema.arcs.filter fun arc => arc.1 = node).map Prod.snd := by
  rw [BTreeMap.getD_groupOn]

variable {ε : Type}

/-- The degrees counted over the arcs, for the keys of the node table. -/
theorem countedDegrees {missing : Fault ε} {ids : List NodeId} {arcs : List (NodeId × NodeId)}
    {degree : BTreeMap NodeId Nat}
    {step : BTreeMap NodeId Nat → NodeId × NodeId → Outcome ε (BTreeMap NodeId Nat)}
    (hstep : ∀ m e m', step m e = .ok m' → bumpDegree missing m e.2 = .ok m')
    (h : arcs.foldlM step (BTreeMap.ofList (ids.map fun id => (id, 0))) = .ok degree) :
    (∀ v, v ∈ degree.keys ↔ v ∈ ids) ∧
      (∀ v ∈ degree.keys, degree.get? v = some (arcs.countP fun arc => decide (arc.2 = v))) ∧
      ∀ arc ∈ arcs, arc.2 ∈ degree.keys := by
  obtain ⟨hsome, hget⟩ := foldlM_bumpDegree hstep h
  have hzero : ∀ v n, (BTreeMap.ofList (ids.map fun id => (id, 0))).get? v = some n → n = 0 := by
    intro v n hv
    obtain ⟨id, -, hid⟩ := List.mem_map.mp (BTreeMap.mem_of_get?_ofList hv)
    exact (congrArg Prod.snd hid).symm
  have hstart : ∀ v, (∃ n, (BTreeMap.ofList (ids.map fun id => (id, 0))).get? v = some n) ↔
      v ∈ ids := by
    intro v
    rw [← BTreeMap.contains_iff, BTreeMap.contains_ofList]
    simp
  have hkeys : ∀ v, v ∈ degree.keys ↔ v ∈ ids := by
    intro v
    rw [BTreeMap.mem_keys_iff, ← hstart v, hget v]
    simp
  refine ⟨hkeys, ?_, ?_⟩
  · intro v hv
    obtain ⟨n, hn⟩ := (hstart v).mpr ((hkeys v).mp hv)
    rw [hget v, hn, hzero v n hn]
    simp
  · intro arc harc
    exact (hkeys arc.2).mpr ((hstart arc.2).mp (hsome arc harc))

theorem bumpDegree_ne_panic {e : ε} (degree : BTreeMap NodeId Nat) (target : NodeId) :
    bumpDegree (.err e) degree target ≠ .error .panic := by
  unfold bumpDegree
  cases degree.get? target <;> simp

theorem foldlM_bumpDegree_ne_panic {e : ε} (arcs : List (NodeId × NodeId))
    (degree : BTreeMap NodeId Nat) :
    arcs.foldlM (fun degree arc => bumpDegree (.err e) degree arc.2) degree ≠ .error .panic := by
  induction arcs generalizing degree with
  | nil => simp
  | cons arc arcs ih =>
    rw [List.foldlM_cons]
    cases hb : bumpDegree (.err e) degree arc.2 with
    | error fault =>
      rw [error_bind]
      intro hpanic
      exact bumpDegree_ne_panic degree arc.2 (hb.trans hpanic)
    | ok next =>
      rw [ok_bind]
      exact ih next

/-- No cycle through the arcs. -/
def SubgraphSchema.Acyclic (schema : SubgraphSchema) : Prop :=
  ∀ node, ¬ Relation.TransGen (fun a b => (a, b) ∈ schema.arcs) node node

/-- What the loop of `subgraph_is_acyclic` visits. -/
theorem visitSubgraph_spec (schema : SubgraphSchema) :
    visitSubgraph schema = .error (.err ()) ∨
      ∃ visited, visitSubgraph schema = .ok visited ∧ visited.Nodup ∧
        (∀ v ∈ visited, v ∈ schema.nodes.map SubgraphNode.id) ∧
        Topological schema.arcs visited := by
  unfold visitSubgraph
  cases hd : schema.arcs.foldlM (fun degree arc => bumpDegree (.err ()) degree arc.2)
      (BTreeMap.ofList (schema.nodes.map fun node => (node.id, 0))) with
  | error fault =>
    left
    cases fault with
    | err u => rfl
    | panic => exact absurd hd (foldlM_bumpDegree_ne_panic _ _)
  | ok degree =>
    right
    have hids : schema.nodes.map (fun node => (node.id, 0)) =
        (schema.nodes.map SubgraphNode.id).map fun id => (id, 0) := by
      rw [List.map_map]
      rfl
    rw [hids] at hd
    obtain ⟨hkeys, hdegree, harcs⟩ := countedDegrees (fun _ _ _ h => h) hd
    obtain ⟨visited, hrun, hnd, hmem, htop, -⟩ := kahn_spec (.err ())
      (fun u => List.Perm.of_eq (arcs_outgoing schema u)) harcs hdegree Worklist.stack
    exact ⟨visited, hrun, hnd, fun v hv => (hkeys v).mp (hmem v hv), htop⟩

/-- A schema that `subgraph_is_acyclic` accepts has no cycle. -/
theorem acyclic_of_subgraphIsAcyclic {schema : SubgraphSchema}
    (hdst : ∀ edge ∈ schema.edges, edge.dst.node ∈ schema.nodes.map SubgraphNode.id)
    (hacc : (subgraphIsAcyclic schema : Outcome ε Bool) = .ok true) : schema.Acyclic := by
  rcases visitSubgraph_spec schema with h | ⟨visited, h, hnd, hmem, htop⟩
  · simp [subgraphIsAcyclic, h] at hacc
  · have hlen : visited.length = (schema.nodes.map SubgraphNode.id).length := by
      simpa [subgraphIsAcyclic, h] using hacc
    have hperm : visited.Perm (schema.nodes.map SubgraphNode.id) :=
      (List.subperm_of_subset hnd hmem).perm_of_length_le (le_of_eq hlen.symm)
    refine acyclic_of_topological hnd htop fun arc harc => ?_
    obtain ⟨edge, hedge, rfl⟩ := List.mem_map.mp harc
    exact hperm.mem_iff.mpr (hdst edge hedge)

end Blut.GraphCore
