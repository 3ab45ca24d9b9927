/-
  The graph passes of the compiler that come before kernel selection (`compile.rs`):
  `verify_edges`, `topological_order` and `propagate_contracts`.

  `verifyEdges_eq_ok` says what the first accepts, `topologicalOrder_least` what the second returns:
  the least order of an acyclic graph.
-/
import Blut.GraphCore.Hierarchy

namespace Blut.GraphCore

open Blut.Lib

/-- The table of the nodes whose descriptors are registered. -/
def nodeTable (descriptors : DescriptorTable) (nodes : List NodeInstance) : NodeTable :=
  BTreeMap.ofList (nodes.filterMap fun node =>
    (descriptors.get? node.key).map fun descriptor => (node.id, descriptor))

theorem get?_nodeTable {descriptors : DescriptorTable} {nodes : List NodeInstance}
    (hnd : (nodes.map NodeInstance.id).Nodup) {id : NodeId} {descriptor : NodeDescriptor} :
    (nodeTable descriptors nodes).get? id = some descriptor ↔
      ∃ node ∈ nodes, node.id = id ∧ descriptors.get? node.key = some descriptor := by
  have hkeys : ((nodes.filterMap fun node =>
      (descriptors.get? node.key).map fun descriptor => (node.id, descriptor)).map
        Prod.fst).Nodup := by
    refine hnd.sublist ?_
    induction nodes with
    | nil => simp
    | cons node nodes ih =>
      have hrest := ih (List.nodup_cons.mp hnd).2
      cases hd : descriptors.get? node.key with
      | none => simpa [hd] using hrest.cons node.id
      | some descriptor => simpa [hd] using hrest.cons_cons node.id
  unfold nodeTable
  rw [BTreeMap.get?_ofList_eq_some hkeys, List.mem_filterMap]
  constructor
  · rintro ⟨node, hnode, hentry⟩
    obtain ⟨found, hfound, heq⟩ := Option.map_eq_some_iff.mp hentry
    have hdescriptor : found = descriptor := congrArg Prod.snd heq
    exact ⟨node, hnode, congrArg Prod.fst heq, hdescriptor ▸ hfound⟩
  · rintro ⟨node, hnode, hid, hget⟩
    refine ⟨node, hnode, ?_⟩
    rw [hget, ← hid]
    rfl

/-! ## Edges, feedback and invocation inputs -/

def findPort (ports : List PortDescriptor) (node : NodeId) (name : String) :
    Outcome CompileError PortDescriptor :=
  okOr (portNamed ports name) (.unknownPort node name)

/-- The ports an edge joins. -/
def edgePorts (descriptors : NodeTable) (src dst : PortRef) :
    Outcome CompileError (PortDescriptor × PortDescriptor) := do
  let srcNode ← okOr (descriptors.get? src.node) (.unknownPort src.node src.port)
  let dstNode ← okOr (descriptors.get? dst.node) (.unknownPort dst.node dst.port)
  let output ← findPort srcNode.outputs src.node src.port
  let input ← findPort dstNode.inputs dst.node dst.port
  return (output, input)

def verifyEdge (descriptors : NodeTable) (bound : BTreeSet PortRef) (edge : Edge) :
    Outcome CompileError (BTreeSet PortRef) := do
  let (output, input) ← edgePorts descriptors edge.src edge.dst
  reject (output.maxBytes = 0) (.invalidPortSize edge.src.node edge.src.port)
  reject (output.semanticType ≠ input.semanticType)
    (.typeMismatch output.semanticType input.semanticType)
  reject (!portContractSatisfies output input)
    (.portContractMismatch edge.src.node edge.src.port edge.dst.node edge.dst.port)
  reject (bound.contains edge.dst) (.duplicateInput edge.dst.node edge.dst.port)
  return BTreeSet.add bound edge.dst

def verifyFeedback (descriptors : NodeTable) (bound : BTreeSet PortRef) (feedback : FeedbackEdge) :
    Outcome CompileError (BTreeSet PortRef) := do
  let (output, input) ← edgePorts descriptors feedback.src feedback.dst
  reject (feedback.delay.invocations = 0
      || (feedback.delay.initial = .absent && !input.optional)
      || !portContractSatisfies output input
      || output.maxBytes > input.maxBytes
      || bound.contains feedback.dst) (.invalidFeedback feedback.dst.node feedback.dst.port)
  return BTreeSet.add bound feedback.dst

def verifyInvocation (descriptors : NodeTable) (bound : BTreeSet PortRef) (invocation : PortRef) :
    Outcome CompileError Unit := do
  let descriptor ← okOr (descriptors.get? invocation.node)
    (.unknownPort invocation.node invocation.port)
  let _ ← findPort descriptor.inputs invocation.node invocation.port
  reject (bound.contains invocation) (.duplicateInput invocation.node invocation.port)

/-- Every non-optional input of a node is bound by an edge, a feedback edge or the invocation. -/
def verifyInputs (bound invocations : BTreeSet PortRef) (entry : NodeId × NodeDescriptor) :
    Outcome CompileError Unit :=
  (entry.2.inputs.filter fun port => !port.optional).forM fun input =>
    let port : PortRef := { node := entry.1, port := input.name }
    reject (!bound.contains port && !invocations.contains port) (.missingInput entry.1 input.name)

/-- `verify_edges`: the invocation ports in ascending order. -/
def verifyEdges (graph : Graph) (descriptors : NodeTable) :
    Outcome CompileError (List PortRef) := do
  let bound ← graph.edges.foldlM (verifyEdge descriptors) BTreeMap.empty
  let bound ← graph.feedback.foldlM (verifyFeedback descriptors) bound
  let invocationPorts := sortBy id graph.invocationInputs
  match windowsFind (fun a b => decide (a = b)) invocationPorts with
  | some port => fail (.duplicateInvocation port.node port.port)
  | none =>
    invocationPorts.forM (verifyInvocation descriptors bound)
    let invocationSet := BTreeSet.ofList invocationPorts
    descriptors.entries.forM (verifyInputs bound invocationSet)
    return invocationPorts

/-! ## Topological order -/

/-- The edges of the graph, from node to node. -/
def Graph.arcs (graph : Graph) : List (NodeId × NodeId) :=
  graph.edges.map fun edge => (edge.src.node, edge.dst.node)

def countArc (degree : BTreeMap NodeId Nat) (arc : NodeId × NodeId) :
    Outcome CompileError (BTreeMap NodeId Nat) := do
  reject (!degree.contains arc.1) (.unknownNode arc.1)
  reject (!degree.contains arc.2) (.unknownNode arc.2)
  bumpDegree .panic degree arc.2

def topologicalOrder (graph : Graph) : Outcome CompileError (List NodeId) := do
  let degree ← graph.arcs.foldlM countArc
    (BTreeMap.ofList (graph.nodes.map fun node => (node.id, 0)))
  let outgoing := BTreeMap.groupOn Prod.fst graph.arcs
  let order ← kahn Worklist.orderedSet .panic
    (fun node => sortBy id (((outgoing.get? node).getD []).map Prod.snd)) degree
  reject (order.length ≠ degree.size) .cycle
  return order

/-! ## Propagation of proofs, policy and fidelity -/

structure ContractState where
  proofs : BTreeSet String
  policy : BTreeSet String
  fidelity : Nat
  deriving DecidableEq

/-- The join of a state with that of another node. -/
def joinState (states : BTreeMap NodeId ContractState) (joined : ContractState) (node : NodeId) :
    Outcome CompileError ContractState := do
  let other ← states.index node
  return {
    proofs := BTreeSet.inter joined.proofs other.proofs
    policy := BTreeSet.extend joined.policy other.policy.toList
    fidelity := min joined.fidelity other.fidelity }

/-- The join of the states of some nodes; `initial` when there are none. -/
def joinStates (initial : ContractState) (states : BTreeMap NodeId ContractState) :
    List NodeId → Outcome CompileError ContractState
  | [] => .ok initial
  | first :: rest => do
    let joined ← states.index first
    rest.foldlM (joinState states) joined

/-- What a node leaves of the state it receives, when the state meets its requirements. -/
def applyContract (node : NodeId) (descriptor : NodeDescriptor) (state : ContractState) :
    Outcome CompileError ContractState := do
  descriptor.proof.requires.forM fun required =>
    reject (!state.proofs.contains required) (.proofMissing node required)
  descriptor.policy.requires.forM fun required =>
    reject (!state.policy.contains required) (.policyMissing node required)
  reject (state.fidelity < descriptor.fidelity.minimumInput) (.fidelityInsufficient node)
  let proofs := descriptor.proof.invalidates.foldl BTreeMap.erase state.proofs
  return {
    proofs := BTreeSet.extend proofs descriptor.proof.provides
    policy := BTreeSet.extend state.policy descriptor.policy.adds
    fidelity := state.fidelity - descriptor.fidelity.maximumLoss }

def propagateNode (initial : ContractState) (predecessors : BTreeMap NodeId (List Edge))
    (descriptors : NodeTable) (states : BTreeMap NodeId ContractState) (node : NodeId) :
    Outcome CompileError (BTreeMap NodeId ContractState) := do
  let descriptor ← descriptors.index node
  let sources := sortDedup (((predecessors.get? node).getD []).map fun edge => edge.src.node)
  let state ← joinStates initial states sources
  let state ← applyContract node descriptor state
  return states.insert node state

/-- `propagate_contracts`. `65535` is `u16::MAX`. -/
def propagateContracts (graph : Graph) (order : List NodeId) (descriptors : NodeTable) :
    Outcome CompileError (List String × List String × Nat) := do
  let initial : ContractState := {
    proofs := BTreeSet.ofList graph.requiredProofs
    policy := BTreeSet.ofList graph.policy
    fidelity := 65535 }
  let predecessors := BTreeMap.groupOn (fun edge : Edge => edge.dst.node) graph.edges
  let hasSuccessor := BTreeSet.ofList (graph.edges.map fun edge => edge.src.node)
  let states ← order.foldlM (propagateNode initial predecessors descriptors) BTreeMap.empty
  match order.filter fun node => !hasSuccessor.contains node with
  | [] => .error .panic
  | first :: terminals =>
    let result ← states.index first
    let result ← terminals.foldlM (joinState states) result
    let last ← expect order.getLast?
    reject (result.fidelity < graph.minimumFidelity) (.fidelityInsufficient last)
    return (result.proofs.toList, result.policy.toList, result.fidelity)

/-! ## What `verify_edges` accepts -/

variable {descriptors : NodeTable} {bound : BTreeSet PortRef} {output input : PortDescriptor}
  {out : BTreeSet PortRef}

theorem edgePorts_eq_ok {src dst : PortRef} :
    edgePorts descriptors src dst = .ok (output, input) ↔
      Joins descriptors src dst output input := by
  unfold edgePorts findPort Joins
  simp only [bind_eq_ok, okOr_eq_ok, pure_eq_ok, Except.ok.injEq, Prod.mk.injEq]
  constructor
  · rintro ⟨srcNode, hsrc, dstNode, hdst, out, hout, inp, hinp, rfl, rfl⟩
    exact ⟨srcNode, dstNode, hsrc, hdst, hout, hinp⟩
  · rintro ⟨srcNode, dstNode, hsrc, hdst, hout, hinp⟩
    exact ⟨srcNode, hsrc, dstNode, hdst, output, hout, input, hinp, rfl, rfl⟩

theorem portContractSatisfies_type (h : portContractSatisfies output input = true) :
    output.semanticType = input.semanticType ∧ output.maxBytes ≤ input.maxBytes := by
  unfold portContractSatisfies at h
  simp only [Bool.and_eq_true, decide_eq_true_eq] at h
  obtain ⟨⟨⟨⟨⟨⟨⟨⟨⟨⟨⟨⟨⟨htype, -⟩, -⟩, hbytes⟩, -⟩, -⟩, -⟩, -⟩, -⟩, -⟩, -⟩, -⟩, -⟩, -⟩ := h
  exact ⟨htype, hbytes⟩

/-- An edge that `verify_edges` accepts. -/
def ValidEdge (descriptors : NodeTable) (edge : Edge) : Prop :=
  ∃ output input, Joins descriptors edge.src edge.dst output input ∧ 0 < output.maxBytes ∧
    portContractSatisfies output input = true

theorem verifyEdge_eq_ok {edge : Edge} :
    verifyEdge descriptors bound edge = .ok out ↔ ValidEdge descriptors edge ∧
      bound.contains edge.dst = false ∧ out = BTreeSet.add bound edge.dst := by
  unfold verifyEdge ValidEdge
  simp only [bind_eq_ok, reject_eq_ok, pure_eq_ok, Except.ok.injEq, Prod.exists, edgePorts_eq_ok,
    decide_eq_false_iff_not, not_not, ne_eq, Bool.not_eq_false']
  constructor
  · rintro ⟨output, input, hjoin, _, hbytes, _, -, _, hsat, _, hfresh, rfl⟩
    exact ⟨⟨output, input, hjoin, Nat.pos_of_ne_zero hbytes, hsat⟩, hfresh, rfl⟩
  · rintro ⟨⟨output, input, hjoin, hbytes, hsat⟩, hfresh, rfl⟩
    exact ⟨output, input, hjoin, (), Nat.ne_of_gt hbytes, (), (portContractSatisfies_type hsat).1,
      (), hsat, (), hfresh, rfl⟩

/-- A feedback edge that `verify_edges` accepts. -/
def ValidFeedback (descriptors : NodeTable) (feedback : FeedbackEdge) : Prop :=
  ∃ output input, Joins descriptors feedback.src feedback.dst output input ∧
    feedback.delay.invocations ≠ 0 ∧
    (feedback.delay.initial = .absent → input.optional = true) ∧
    portContractSatisfies output input = true

theorem verifyFeedback_eq_ok {feedback : FeedbackEdge} :
    verifyFeedback descriptors bound feedback = .ok out ↔ ValidFeedback descriptors feedback ∧
      bound.contains feedback.dst = false ∧ out = BTreeSet.add bound feedback.dst := by
  unfold verifyFeedback ValidFeedback
  simp only [bind_eq_ok, reject_eq_ok, pure_eq_ok, Except.ok.injEq, Prod.exists, edgePorts_eq_ok,
    Bool.or_eq_false_iff, Bool.and_eq_false_iff, decide_eq_false_iff_not, Bool.not_eq_false']
  constructor
  · rintro ⟨output, input, hjoin, _, ⟨⟨⟨⟨hdelay, hinitial⟩, hsat⟩, -⟩, hfresh⟩, rfl⟩
    refine ⟨⟨output, input, hjoin, hdelay, fun habsent => ?_, hsat⟩, hfresh, rfl⟩
    exact hinitial.resolve_left fun hnot => hnot habsent
  · rintro ⟨⟨output, input, hjoin, hdelay, hinitial, hsat⟩, hfresh, rfl⟩
    have hbytes := (portContractSatisfies_type hsat).2
    refine ⟨output, input, hjoin, (), ⟨⟨⟨⟨hdelay, ?_⟩, hsat⟩, by omega⟩, hfresh⟩, rfl⟩
    by_cases habsent : feedback.delay.initial = .absent
    · exact Or.inr (hinitial habsent)
    · exact Or.inl habsent

/-- A port reference to an input of a described node. -/
def IsInput (descriptors : NodeTable) (port : PortRef) : Prop :=
  ∃ descriptor input, descriptors.get? port.node = some descriptor ∧
    portNamed descriptor.inputs port.port = some input

theorem verifyInvocation_eq_ok {port : PortRef} : verifyInvocation descriptors bound port = .ok () ↔
      IsInput descriptors port ∧ bound.contains port = false := by
  unfold verifyInvocation findPort IsInput
  simp only [bind_eq_ok, okOr_eq_ok, reject_eq_ok]
  constructor
  · rintro ⟨descriptor, hget, input, hinput, hfresh⟩
    exact ⟨⟨descriptor, input, hget, hinput⟩, hfresh⟩
  · rintro ⟨⟨descriptor, input, hget, hinput⟩, hfresh⟩
    exact ⟨descriptor, hget, input, hinput, hfresh⟩

/-- The inputs a graph binds: by edge, by feedback edge or by the invocation. -/
def Graph.bindings (graph : Graph) : List PortRef :=
  graph.edges.map Edge.dst ++ graph.feedback.map FeedbackEdge.dst ++ graph.invocationInputs

/-- A graph that `verify_edges` accepts: the edges are well typed, no input is bound twice and
    every non-optional one is bound. -/
structure VerifiedGraph (graph : Graph) (descriptors : NodeTable) : Prop where
  edge : ∀ edge ∈ graph.edges, ValidEdge descriptors edge
  feedback : ∀ feedback ∈ graph.feedback, ValidFeedback descriptors feedback
  invocation : ∀ port ∈ graph.invocationInputs, IsInput descriptors port
  bindings_nodup : graph.bindings.Nodup
  bound : ∀ node descriptor, descriptors.get? node = some descriptor →
    ∀ input ∈ descriptor.inputs, input.optional = false →
      ({ node := node, port := input.name } : PortRef) ∈ graph.bindings

theorem verifyInputs_eq_ok {invocations : BTreeSet PortRef} {entry : NodeId × NodeDescriptor} :
    verifyInputs bound invocations entry = .ok () ↔
      ∀ input ∈ entry.2.inputs, input.optional = false →
        bound.contains { node := entry.1, port := input.name } = true ∨
          invocations.contains { node := entry.1, port := input.name } = true := by
  unfold verifyInputs
  rw [forM_eq_ok]
  simp only [List.mem_filter, Bool.not_eq_true', reject_eq_ok, Bool.and_eq_false_iff,
    Bool.not_eq_false', and_imp]

theorem Graph.bindings_nodup_iff (graph : Graph) : graph.bindings.Nodup ↔
    (graph.edges.map Edge.dst).Nodup ∧ (graph.feedback.map FeedbackEdge.dst).Nodup ∧
      (∀ k ∈ graph.feedback.map FeedbackEdge.dst, k ∉ graph.edges.map Edge.dst) ∧
      graph.invocationInputs.Nodup ∧
      ∀ k ∈ graph.invocationInputs,
        k ∉ graph.edges.map Edge.dst ++ graph.feedback.map FeedbackEdge.dst := by
  unfold Graph.bindings
  rw [List.nodup_append', List.nodup_append', List.disjoint_right, List.disjoint_right, and_assoc,
    and_assoc]

theorem verifyEdges_eq_ok {graph : Graph} {ports : List PortRef} :
    verifyEdges graph descriptors = .ok ports ↔
      VerifiedGraph graph descriptors ∧ ports = sortBy id graph.invocationInputs := by
  have hnodup : windowsFind (fun a b => decide (a = b)) (sortBy id graph.invocationInputs) = none ↔
      graph.invocationInputs.Nodup := by
    have hkey : windowsAny (fun a b => decide (a = b)) (sortBy id graph.invocationInputs) = false ↔
        ((sortBy id graph.invocationInputs).map id).Nodup :=
      windowsAny_key_eq_false (by simp) (sortBy_sorted id graph.invocationInputs)
    rw [List.map_id] at hkey
    rw [windowsFind_eq_none, hkey, (sortBy_perm id graph.invocationInputs).nodup_iff]
  unfold verifyEdges
  simp only [bind_eq_ok, BTreeSet.foldlM_fresh Edge.dst (ValidEdge descriptors)
      fun _ _ _ => verifyEdge_eq_ok, BTreeSet.foldlM_fresh FeedbackEdge.dst
      (ValidFeedback descriptors) fun _ _ _ => verifyFeedback_eq_ok]
  constructor
  · rintro ⟨_, ⟨hedge, hedgeNodup, -, rfl⟩, _, ⟨hfeedback, hfeedbackNodup, hfresh, rfl⟩, h⟩
    cases hdup : windowsFind (fun a b => decide (a = b)) (sortBy id graph.invocationInputs) with
    | some port => simp [hdup] at h
    | none =>
      simp only [hdup, bind_eq_ok] at h
      obtain ⟨_, hinvocation, _, hinputs, h⟩ := h
      rw [forM_eq_ok] at hinvocation hinputs
      simp only [verifyInvocation_eq_ok, verifyInputs_eq_ok] at hinvocation hinputs
      refine ⟨⟨hedge, hfeedback, ?_, graph.bindings_nodup_iff.mpr ⟨hedgeNodup, hfeedbackNodup, ?_,
        hnodup.mp hdup, ?_⟩, ?_⟩, (Except.ok.inj h).symm⟩
      · exact fun port hport => (hinvocation port (mem_sortBy.mpr hport)).1
      · intro k hk
        simpa [BTreeSet.contains_extend] using hfresh k hk
      · intro k hk
        simpa [BTreeSet.contains_extend, and_comm] using (hinvocation k (mem_sortBy.mpr hk)).2
      · intro node descriptor hget input hinput hopt
        have hbound := hinputs (node, descriptor) ((BTreeMap.get?_eq_some_iff descriptors).mp hget)
          input hinput hopt
        simpa [Graph.bindings, BTreeSet.contains_extend, or_comm, or_left_comm] using hbound
  · rintro ⟨hv, rfl⟩
    obtain ⟨hedgeNodup, hfeedbackNodup, hfresh, hinvNodup, hdisjoint⟩ :=
      graph.bindings_nodup_iff.mp hv.bindings_nodup
    refine ⟨_, ⟨hv.edge, hedgeNodup, by simp, rfl⟩, _, ⟨hv.feedback, hfeedbackNodup, ?_, rfl⟩, ?_⟩
    · intro k hk
      simpa [BTreeSet.contains_extend] using hfresh k hk
    · simp only [hnodup.mpr hinvNodup, bind_eq_ok]
      refine ⟨(), forM_eq_ok.mpr fun port hport => verifyInvocation_eq_ok.mpr
        ⟨hv.invocation port (mem_sortBy.mp hport), ?_⟩, (), forM_eq_ok.mpr fun entry hentry =>
        verifyInputs_eq_ok.mpr fun input hinput hopt => ?_, rfl⟩
      · simpa [BTreeSet.contains_extend, and_comm] using hdisjoint port (mem_sortBy.mp hport)
      · have hbound := hv.bound entry.1 entry.2 ((BTreeMap.get?_eq_some_iff descriptors).mpr hentry)
          input hinput hopt
        simpa [Graph.bindings, BTreeSet.contains_extend, or_comm, or_left_comm] using hbound

/-! ## What `topological_order` returns -/

theorem countArc_ok {degree out : BTreeMap NodeId Nat} {arc : NodeId × NodeId}
    (h : countArc degree arc = .ok out) :
    bumpDegree .panic degree arc.2 = (.ok out : Outcome CompileError _) := by
  unfold countArc at h
  obtain ⟨-, h⟩ := reject_bind_eq_ok.mp h
  obtain ⟨-, h⟩ := reject_bind_eq_ok.mp h
  exact h

theorem Graph.arcs_outgoing (graph : Graph) (node : NodeId) :
    (sortBy id ((((BTreeMap.groupOn Prod.fst graph.arcs).get? node).getD []).map Prod.snd)).Perm
      ((graph.arcs.filter fun arc => arc.1 = node).map Prod.snd) := by
  rw [BTreeMap.getD_groupOn]
  exact sortBy_perm id _

/-- The order lists every node once, and every edge goes forward in it. -/
theorem topologicalOrder_ok {graph : Graph} {order : List NodeId}
    (h : topologicalOrder graph = .ok order) :
    order.Nodup ∧ (∀ v, v ∈ order ↔ v ∈ graph.nodes.map NodeInstance.id) ∧
      Topological graph.arcs order := by
  unfold topologicalOrder at h
  obtain ⟨degree, hdegree, h⟩ := bind_eq_ok.mp h
  obtain ⟨result, hrun, h⟩ := bind_eq_ok.mp h
  obtain ⟨hlen, h⟩ := reject_bind_eq_ok.mp h
  have hresult : result = order := by simpa using h
  have hids : graph.nodes.map (fun node => (node.id, 0)) =
      (graph.nodes.map NodeInstance.id).map fun id => (id, 0) := by
    rw [List.map_map]
    rfl
  rw [hids] at hdegree
  obtain ⟨hkeys, hcount, harcs⟩ := countedDegrees (fun _ _ _ h => countArc_ok h) hdegree
  obtain ⟨visited, hvisit, hnd, hmem, htop, -⟩ := kahn_spec .panic graph.arcs_outgoing harcs
    hcount Worklist.orderedSet
  have hsame : visited = order := by
    have heq := hvisit.symm.trans hrun
    rw [← hresult]
    exact Except.ok.inj heq
  rw [hsame] at hnd hmem htop
  have hlength : order.length = degree.keys.length := by
    rw [hresult, decide_eq_false_iff_not, ne_eq, not_not] at hlen
    rw [hlen]
    simp [BTreeMap.size, BTreeMap.keys]
  have hperm : order.Perm degree.keys :=
    (List.subperm_of_subset hnd hmem).perm_of_length_le (le_of_eq hlength.symm)
  refine ⟨hnd, fun v => ?_, htop⟩
  rw [hperm.mem_iff]
  exact hkeys v

/-- No cycle through the edges. -/
def Graph.Acyclic (graph : Graph) : Prop :=
  ∀ node, ¬ Relation.TransGen (fun a b => (a, b) ∈ graph.arcs) node node

theorem countArcs_total {ids : List NodeId} {arcs : List (NodeId × NodeId)}
    (h : ∀ arc ∈ arcs, arc.1 ∈ ids ∧ arc.2 ∈ ids) :
    ∃ degree, arcs.foldlM countArc (BTreeMap.ofList (ids.map fun id => (id, 0))) = .ok degree := by
  have hstart : ∀ id ∈ ids, (BTreeMap.ofList (ids.map fun id => (id, 0))).contains id = true := by
    intro id hid
    rw [BTreeMap.contains_ofList]
    simpa using hid
  refine (foldlM_total (fun degree => ∀ id ∈ ids, degree.contains id = true) arcs ?_ hstart).imp
    fun _ htotal => htotal.1
  intro degree arc harc hall
  obtain ⟨hsrc, hdst⟩ := h arc harc
  obtain ⟨count, hcount⟩ := degree.contains_iff.mp (hall arc.2 hdst)
  refine ⟨degree.insert arc.2 (count + 1), ?_, fun id hid => ?_⟩
  · simp [countArc, reject, hall arc.1 hsrc, hall arc.2 hdst, bumpDegree, hcount]
  · rw [BTreeMap.contains_insert]
    simp [hall id hid]

/-- `topological_order` fails exactly on a cycle, and what it returns is the lexicographically least
    of the orders in which every edge goes forward. -/
theorem topologicalOrder_least (graph : Graph) (hnd : (graph.nodes.map NodeInstance.id).Nodup)
    (hedges : ∀ edge ∈ graph.edges, edge.src.node ∈ graph.nodes.map NodeInstance.id ∧
      edge.dst.node ∈ graph.nodes.map NodeInstance.id) :
    ((∃ order, topologicalOrder graph = .ok order) ↔ graph.Acyclic) ∧
      (∀ order, topologicalOrder graph = .ok order →
        order.Perm (graph.nodes.map NodeInstance.id) ∧ Topological graph.arcs order ∧
          ∀ other, other.Perm (graph.nodes.map NodeInstance.id) → Topological graph.arcs other →
            order = other ∨ List.Lex (· < ·) order other) ∧
      (¬ graph.Acyclic → topologicalOrder graph = .error (.err .cycle)) := by
  have hjoined : ∀ arc ∈ graph.arcs, arc.1 ∈ graph.nodes.map NodeInstance.id ∧
      arc.2 ∈ graph.nodes.map NodeInstance.id := by
    intro arc harc
    obtain ⟨edge, hedge, rfl⟩ := List.mem_map.mp harc
    exact hedges edge hedge
  obtain ⟨degree, hdegree⟩ := countArcs_total hjoined
  obtain ⟨hkeys, hcount, harcs⟩ := countedDegrees (fun _ _ _ h => countArc_ok h) hdegree
  obtain ⟨result, hrun, hgreedy⟩ :=
    kahn_orderedSet (.panic : Fault CompileError) graph.arcs_outgoing harcs hcount
  obtain ⟨result', hrun', hnodup, hmem, htop, hwaits⟩ :=
    kahn_spec (.panic : Fault CompileError) graph.arcs_outgoing harcs hcount Worklist.orderedSet
  obtain rfl : result' = result := Except.ok.inj (hrun'.symm.trans hrun)
  have hsame : degree.keys.Perm (graph.nodes.map NodeInstance.id) :=
    (List.perm_ext_iff_of_nodup degree.nodup_keys hnd).mpr hkeys
  have heval : topologicalOrder graph =
      if result'.length = degree.size then .ok result' else .error (.err .cycle) := by
    rw [List.map_map] at hdegree
    unfold topologicalOrder
    split_ifs with hlength
    · exact bind_eq_ok.mpr ⟨degree, hdegree, bind_eq_ok.mpr ⟨result', hrun,
        reject_bind_eq_ok.mpr ⟨by simp [hlength], rfl⟩⟩⟩
    · simp only [Function.comp_def] at hdegree
      simp [hdegree, hrun, reject, hlength]
  have hperm : result'.length = degree.size → result'.Perm (graph.nodes.map NodeInstance.id) := by
    intro hlength
    refine ((List.subperm_of_subset hnodup hmem).perm_of_length_le ?_).trans hsame
    rw [degree.length_keys, hlength]
  have hacyclic : result'.length = degree.size ↔ graph.Acyclic := by
    constructor
    · intro hlength
      exact acyclic_of_topological hnodup htop fun arc harc =>
        (hperm hlength).mem_iff.mpr (hjoined arc harc).2
    · intro hno
      have hall := visited_of_acyclic hno (fun arc harc => (hkeys arc.1).mpr (hjoined arc harc).1)
        hwaits
      rw [← degree.length_keys]
      exact ((List.perm_ext_iff_of_nodup hnodup degree.nodup_keys).mpr
        fun v => ⟨hmem v, hall v⟩).length_eq
  rw [heval, ← hacyclic]
  refine ⟨⟨fun hsome => ?_, fun hlength => ⟨result', if_pos hlength⟩⟩, fun order hok => ?_,
    fun hlength => if_neg hlength⟩
  · obtain ⟨order, hok⟩ := hsome
    by_contra hlength
    rw [if_neg hlength] at hok
    cases hok
  · split_ifs at hok with hlength
    cases hok
    refine ⟨hperm hlength, htop, fun other hother htopo => ?_⟩
    exact Greedy.le (show Greedy _ _ ([] ++ result') from hgreedy) htopo (hother.nodup_iff.mpr hnd)
      (fun v hv => (hkeys v).mpr (hother.mem_iff.mp hv))
      ((hperm hlength).length_eq.trans hother.length_eq.symm)

/-- Node 1 feeds node 0 through two edges; node 2 stands alone. -/
def pairGraph : Graph where
  version := 3
  nodes := [2, 1, 0].map fun id => ⟨id, "node", 1, BTreeMap.empty⟩
  edges := [⟨⟨1, "a"⟩, ⟨0, "x"⟩⟩, ⟨⟨1, "b"⟩, ⟨0, "y"⟩⟩]
  feedback := []
  invocationInputs := []
  requiredCapabilities := []
  requiredProofs := []
  policy := []
  minimumFidelity := 0
  session := none

theorem topologicalOrder_least_pair : topologicalOrder pairGraph = .ok [1, 0, 2] ∧
    ∀ other, other.Perm [2, 1, 0] → Topological pairGraph.arcs other →
      [1, 0, 2] = other ∨ List.Lex (· < ·) [1, 0, 2] other := by
  obtain ⟨-, hleast, -⟩ := topologicalOrder_least pairGraph (by decide) (by decide)
  have hok : topologicalOrder pairGraph = .ok [1, 0, 2] := by decide +kernel
  exact ⟨hok, (hleast [1, 0, 2] hok).2.2⟩

end Blut.GraphCore
