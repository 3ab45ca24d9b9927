/-
  What `propagate_contracts` computes: the meet over all paths.

  A state that the pass keeps for a node sums up a set of paths (`Sums`): a proof is in it when it
  is live at the end of every path, a label when some path carries it, and the fidelity is what the
  most lossy path leaves. A join sums up the union of the sets and a node's contract the paths
  prolonged by the node, so the states are the sums over the paths through their nodes, whatever
  the order, and the result is the sum over the paths from end to end.
-/
import Blut.GraphCore.Verify
import Blut.GraphCore.Registry

namespace Blut.GraphCore

open Blut.Lib

/-! ## Paths -/

/-- The nodes of a path before the node it leads to. The first has no incoming edge. -/
inductive PathInto (arcs : List (NodeId × NodeId)) : List NodeId → NodeId → Prop
  | source {node : NodeId} (h : ∀ src, (src, node) ∉ arcs) : PathInto arcs [] node
  | step {before : List NodeId} {src node : NodeId} (h : PathInto arcs before src)
    (harc : (src, node) ∈ arcs) : PathInto arcs (before ++ [src]) node

/-- A path that ends at the node. -/
def PathThrough (arcs : List (NodeId × NodeId)) (node : NodeId) (path : List NodeId) : Prop :=
  ∃ before, PathInto arcs before node ∧ path = before ++ [node]

/-- A path from a node without incoming edges to one without outgoing edges. -/
def Graph.FullPath (graph : Graph) (path : List NodeId) : Prop :=
  ∃ node ∈ graph.nodes.map NodeInstance.id, (∀ dst, (node, dst) ∉ graph.arcs) ∧
    PathThrough graph.arcs node path

section Semantics

variable (graph : Graph) (descriptors : NodeTable)

/-- Whether a proof is live at the end of a path: each node first invalidates and then provides. -/
def liveAfter (proof : String) (path : List NodeId) : Bool :=
  path.foldl (fun live node => (descriptors.get? node).elim live fun descriptor =>
    (live && !descriptor.proof.invalidates.contains proof) ||
      descriptor.proof.provides.contains proof)
    (graph.requiredProofs.contains proof)

/-- A node of the path adds the label, or the graph starts with it. -/
def Carries (label : String) (path : List NodeId) : Prop :=
  label ∈ graph.policy ∨ ∃ node ∈ path, ∃ descriptor, descriptors.get? node = some descriptor ∧
    label ∈ descriptor.policy.adds

def lossAlong (path : List NodeId) : Nat :=
  (path.map fun node => (descriptors.get? node).elim 0 fun descriptor =>
    descriptor.fidelity.maximumLoss).sum

/-- The requirements of a node hold: its proofs and its fidelity on every path into it, its labels
    on some. -/
structure Meets (node : NodeId) (descriptor : NodeDescriptor) : Prop where
  proofs : ∀ proof ∈ descriptor.proof.requires, ∀ path, PathInto graph.arcs path node →
    liveAfter graph descriptors proof path = true
  policy : ∀ label ∈ descriptor.policy.requires, ∃ path, PathInto graph.arcs path node ∧
    Carries graph descriptors label path
  fidelity : ∀ path, PathInto graph.arcs path node →
    descriptor.fidelity.minimumInput ≤ 65535 - lossAlong descriptors path

/-- The requirements of every node and of the graph hold. -/
structure ContractsHold : Prop where
  nodes : ∀ node ∈ graph.nodes.map NodeInstance.id, ∀ descriptor,
    descriptors.get? node = some descriptor → Meets graph descriptors node descriptor
  fidelity : ∀ path, graph.FullPath path →
    graph.minimumFidelity ≤ 65535 - lossAlong descriptors path

/-- What an error of the pass says. The graph's own minimum is reported at the last node. -/
def Blames (order : List NodeId) : CompileError → Prop
  | .proofMissing node proof =>
    node ∈ order ∧ ∃ descriptor, descriptors.get? node = some descriptor ∧
    proof ∈ descriptor.proof.requires ∧ ∃ path, PathInto graph.arcs path node ∧
      liveAfter graph descriptors proof path = false
  | .policyMissing node label =>
    node ∈ order ∧ ∃ descriptor, descriptors.get? node = some descriptor ∧
    label ∈ descriptor.policy.requires ∧ ∀ path, PathInto graph.arcs path node →
      ¬ Carries graph descriptors label path
  | .fidelityInsufficient node =>
    (node ∈ order ∧ ∃ descriptor, descriptors.get? node = some descriptor ∧ ∃ path,
      PathInto graph.arcs path node ∧
        65535 - lossAlong descriptors path < descriptor.fidelity.minimumInput) ∨
    (order.getLast? = some node ∧ ∃ path, graph.FullPath path ∧
      65535 - lossAlong descriptors path < graph.minimumFidelity)
  | _ => False

/-- The state sums up the paths. -/
structure Sums (state : ContractState) (paths : List NodeId → Prop) : Prop where
  proofs : ∀ proof, state.proofs.contains proof = true ↔
    ∀ path, paths path → liveAfter graph descriptors proof path = true
  policy : ∀ label, state.policy.contains label = true ↔
    ∃ path, paths path ∧ Carries graph descriptors label path
  fidelity : ∃ worst, paths worst ∧
    (∀ path, paths path → lossAlong descriptors path ≤ lossAlong descriptors worst) ∧
    state.fidelity = 65535 - lossAlong descriptors worst

end Semantics

variable {graph : Graph} {descriptors : NodeTable} {order : List NodeId} {node : NodeId}
  {descriptor : NodeDescriptor} {state state' : ContractState} {paths paths' : List NodeId → Prop}
  {states : BTreeMap NodeId ContractState} {arcs : List (NodeId × NodeId)} {path : List NodeId}

/-! ## Sums -/

theorem Sums.congr (h : Sums graph descriptors state paths)
    (heq : ∀ path, paths path ↔ paths' path) : Sums graph descriptors state paths' := by
  rwa [← show paths = paths' from funext fun path => propext (heq path)]

/-- The state before a node without incoming edges. -/
def Graph.initialState (graph : Graph) : ContractState where
  proofs := BTreeSet.ofList graph.requiredProofs
  policy := BTreeSet.ofList graph.policy
  fidelity := 65535

theorem sums_initial : Sums graph descriptors graph.initialState (fun path => path = []) where
  proofs proof := by simp [liveAfter, Graph.initialState]
  policy label := by simp [Carries, Graph.initialState]
  fidelity := ⟨[], rfl, fun path hpath => hpath ▸ le_rfl, rfl⟩

theorem Sums.join (h : Sums graph descriptors state paths)
    (h' : Sums graph descriptors state' paths') :
    Sums graph descriptors
      { proofs := BTreeSet.inter state.proofs state'.proofs
        policy := BTreeSet.extend state.policy state'.policy.toList
        fidelity := min state.fidelity state'.fidelity }
          (fun path => paths path ∨ paths' path) where
  proofs proof := by
    rw [BTreeSet.contains_inter, Bool.and_eq_true, h.proofs, h'.proofs]
    simp only [or_imp, forall_and]
  policy label := by
    rw [BTreeSet.contains_extend, Bool.or_eq_true, decide_eq_true_eq, BTreeSet.mem_toList, h.policy,
      h'.policy, or_comm]
    simp only [or_and_right, exists_or]
  fidelity := by
    obtain ⟨worst, hworst, hmost, hfid⟩ := h.fidelity
    obtain ⟨worst', hworst', hmost', hfid'⟩ := h'.fidelity
    simp only [hfid, hfid']
    rcases le_total (lossAlong descriptors worst) (lossAlong descriptors worst') with hle | hle
    · exact ⟨worst', Or.inr hworst', fun path hpath =>
        hpath.elim (fun hp => (hmost path hp).trans hle)
        (hmost' path), by omega⟩
    · exact ⟨worst, Or.inl hworst, fun path hpath => hpath.elim (hmost path) fun hp =>
        (hmost' path hp).trans hle, by omega⟩

/-- What a node makes of a state that meets its requirements. -/
def leaves (descriptor : NodeDescriptor) (state : ContractState) : ContractState :=
  { proofs := BTreeSet.extend (descriptor.proof.invalidates.foldl BTreeMap.erase state.proofs)
      descriptor.proof.provides
    policy := BTreeSet.extend state.policy descriptor.policy.adds
    fidelity := state.fidelity - descriptor.fidelity.maximumLoss }

theorem Sums.leaves (h : Sums graph descriptors state paths)
    (hget : descriptors.get? node = some descriptor) :
    Sums graph descriptors (leaves descriptor state)
      (fun path => ∃ before, paths before ∧ path = before ++ [node]) where
  proofs proof := by
    have hlive : ∀ before, liveAfter graph descriptors proof (before ++ [node]) =
        ((liveAfter graph descriptors proof before &&
          !descriptor.proof.invalidates.contains proof) ||
          descriptor.proof.provides.contains proof) := by
      intro before
      simp [liveAfter, List.foldl_append, hget]
    obtain ⟨worst, hworst, -⟩ := h.fidelity
    have hproofs := h.proofs proof
    simp only [GraphCore.leaves, BTreeSet.contains_extend, BTreeSet.contains_foldl_erase,
      forall_exists_index, and_imp]
    by_cases hprovides : proof ∈ descriptor.proof.provides
    · simp only [hprovides, decide_true, Bool.true_or, true_iff]
      rintro path before - rfl
      simp [hlive, hprovides]
    by_cases hinvalidates : proof ∈ descriptor.proof.invalidates
    · simp only [hprovides, hinvalidates, decide_true, decide_false, Bool.not_true, Bool.and_false,
        Bool.or_false, Bool.false_eq_true, false_iff]
      intro hall
      simpa [hlive, hprovides, hinvalidates] using hall _ worst hworst rfl
    · simp only [hprovides, hinvalidates, decide_false, Bool.not_false, Bool.and_true,
        Bool.false_or, hproofs]
      refine ⟨fun hall path before hbefore heq => ?_, fun hall path hpath => ?_⟩
      · simp [heq, hlive, hall before hbefore, hinvalidates]
      · simpa [hlive, hprovides, hinvalidates] using hall _ path hpath rfl
  policy label := by
    have hcarries : ∀ before, Carries graph descriptors label (before ++ [node]) ↔
        Carries graph descriptors label before ∨ label ∈ descriptor.policy.adds := by
      intro before
      simp [Carries, or_and_right, exists_or, hget, or_assoc]
    obtain ⟨worst, hworst, -⟩ := h.fidelity
    simp only [GraphCore.leaves, BTreeSet.contains_extend, Bool.or_eq_true,
      decide_eq_true_eq, h.policy]
    constructor
    · rintro (hadds | ⟨path, hpath, hcarried⟩)
      · exact ⟨_, ⟨worst, hworst, rfl⟩, (hcarries worst).mpr (Or.inr hadds)⟩
      · exact ⟨_, ⟨path, hpath, rfl⟩, (hcarries path).mpr (Or.inl hcarried)⟩
    · rintro ⟨_, ⟨before, hbefore, rfl⟩, hcarried⟩
      exact ((hcarries before).mp hcarried).symm.imp_right fun hc => ⟨before, hbefore, hc⟩
  fidelity := by
    have hloss : ∀ before, lossAlong descriptors (before ++ [node]) =
        lossAlong descriptors before + descriptor.fidelity.maximumLoss := by
      intro before
      simp [lossAlong, hget]
    obtain ⟨worst, hworst, hmost, hfid⟩ := h.fidelity
    refine ⟨worst ++ [node], ⟨worst, hworst, rfl⟩, ?_, ?_⟩
    · rintro _ ⟨before, hbefore, rfl⟩
      rw [hloss, hloss]
      exact Nat.add_le_add_right (hmost before hbefore) _
    · rw [hloss, GraphCore.leaves, hfid, Nat.sub_sub]

/-! ## One node -/

theorem foldlM_joinState {nodes : List NodeId} {reach : NodeId → List NodeId → Prop}
    (h : ∀ node ∈ nodes, ∃ state, states.get? node = some state ∧
      Sums graph descriptors state (reach node))
    (hstate : Sums graph descriptors state paths) :
    ∃ joined, nodes.foldlM (joinState states) state = .ok joined ∧
      Sums graph descriptors joined (fun path => paths path ∨ ∃ node ∈ nodes, reach node path) := by
  induction nodes generalizing state paths with
  | nil => exact ⟨state, rfl, by simpa using hstate⟩
  | cons node nodes ih =>
    obtain ⟨⟨other, hother, hsums⟩, hrest⟩ := List.forall_mem_cons.mp h
    obtain ⟨joined, hjoined, hsum⟩ := ih hrest (hstate.join hsums)
    refine ⟨joined, ?_, hsum.congr fun path => by simp [or_assoc]⟩
    rw [List.foldlM_cons, joinState, BTreeMap.index_eq_ok.mpr hother]
    exact hjoined

theorem applyContract_cases
    (hsums : Sums graph descriptors state fun path => PathInto graph.arcs path node)
    (hget : descriptors.get? node = some descriptor) (hnode : node ∈ order) :
    (Meets graph descriptors node descriptor ∧
      applyContract node descriptor state = .ok (leaves descriptor state)) ∨
      ∃ error, applyContract node descriptor state = fail error ∧
        Blames graph descriptors order error := by
  unfold applyContract
  obtain ⟨worst, hworst, hmost, hfid⟩ := hsums.fidelity
  rcases forM_reject (fun proof => !state.proofs.contains proof) (CompileError.proofMissing node)
    descriptor.proof.requires with ⟨hok, hproofs⟩ | ⟨proof, hproof, hmissing, hfail⟩
  swap
  · refine Or.inr ⟨.proofMissing node proof, by rw [hfail]; rfl, hnode, descriptor,
      hget, hproof, ?_⟩
    have hdead := mt (hsums.proofs proof).mpr (by simpa using hmissing)
    simpa using hdead
  rw [hok, ok_bind]
  rcases forM_reject (fun label => !state.policy.contains label) (CompileError.policyMissing node)
    descriptor.policy.requires with ⟨hok, hpolicy⟩ | ⟨label, hlabel, hmissing, hfail⟩
  swap
  · refine Or.inr ⟨.policyMissing node label, by rw [hfail]; rfl, hnode, descriptor, hget, hlabel,
      fun path hpath hcarries => ?_⟩
    have hcarried := (hsums.policy label).mpr ⟨path, hpath, hcarries⟩
    simp [hcarried] at hmissing
  rw [hok, ok_bind]
  by_cases hlow : state.fidelity < descriptor.fidelity.minimumInput
  · refine Or.inr ⟨.fidelityInsufficient node, by simp [reject, hlow, fail], Or.inl ?_⟩
    exact ⟨hnode, descriptor, hget, worst, hworst, hfid ▸ hlow⟩
  · refine Or.inl ⟨⟨fun proof hproof => ?_, fun label hlabel => ?_, fun path hpath => ?_⟩, ?_⟩
    · exact (hsums.proofs proof).mp (by simpa using hproofs proof hproof)
    · exact (hsums.policy label).mp (by simpa using hpolicy label hlabel)
    · have hle := hmost path hpath
      omega
    · simp [reject, hlow, leaves]

/-! ## The loop -/

/-- The nodes passed so far meet their requirements, and their states sum up the paths through
    them. -/
def Propagated (graph : Graph) (descriptors : NodeTable) (done : List NodeId)
    (states : BTreeMap NodeId ContractState) : Prop :=
  ∀ node ∈ done, ∃ descriptor state, descriptors.get? node = some descriptor ∧
    states.get? node = some state ∧ Meets graph descriptors node descriptor ∧
    Sums graph descriptors state (PathThrough graph.arcs node)

theorem mem_sources {src : NodeId} :
    src ∈ sortDedup ((((BTreeMap.groupOn (fun edge : Edge => edge.dst.node) graph.edges).get?
      node).getD []).map fun edge => edge.src.node) ↔ (src, node) ∈ graph.arcs := by
  rw [mem_sortDedup, BTreeMap.getD_groupOn]
  simp only [Graph.arcs, List.mem_map, List.mem_filter, decide_eq_true_eq, Prod.mk.injEq]
  exact exists_congr fun edge => by rw [and_assoc, and_comm (a := edge.dst.node = node)]

theorem pathInto_iff (sources : List NodeId) (h : ∀ src, src ∈ sources ↔ (src, node) ∈ arcs)
    (hne : sources ≠ []) :
    PathInto arcs path node ↔ ∃ src ∈ sources, PathThrough arcs src path := by
  constructor
  · rintro (hnone | ⟨hpath, harc⟩)
    · obtain ⟨src, hsrc⟩ := List.exists_mem_of_ne_nil _ hne
      exact absurd ((h src).mp hsrc) (hnone src)
    · exact ⟨_, (h _).mpr harc, _, hpath, rfl⟩
  · rintro ⟨src, hsrc, before, hbefore, rfl⟩
    exact .step hbefore ((h src).mp hsrc)

theorem propagateNode_cases {done rest : List NodeId} (htop : Topological graph.arcs order)
    (hget : descriptors.get? node = some descriptor) (hsplit : order = done ++ node :: rest)
    (h : Propagated graph descriptors done states) :
    let next := propagateNode graph.initialState
      (BTreeMap.groupOn (fun edge : Edge => edge.dst.node) graph.edges) descriptors states node
    (∃ states', next = .ok states' ∧ Propagated graph descriptors (done ++ [node]) states') ∨
      ∃ fault, next = .error fault ∧ ∃ error, fault = .err error ∧
        Blames graph descriptors order error := by
  intro next
  let sources := sortDedup ((((BTreeMap.groupOn (fun edge : Edge => edge.dst.node) graph.edges).get?
    node).getD []).map fun edge => edge.src.node)
  have hsources : ∀ src, src ∈ sources ↔ (src, node) ∈ graph.arcs := fun src => mem_sources
  have hjoin : ∃ state, joinStates graph.initialState states sources = .ok state ∧
      Sums graph descriptors state fun path => PathInto graph.arcs path node := by
    have hstates : ∀ src ∈ sources, ∃ state, states.get? src = some state ∧
        Sums graph descriptors state (PathThrough graph.arcs src) := by
      intro src hsrc
      obtain ⟨_, state, -, hstate, -, hsums⟩ :=
        h src (htop _ _ _ hsplit src ((hsources src).mp hsrc))
      exact ⟨state, hstate, hsums⟩
    cases hlist : sources with
    | nil =>
      refine ⟨graph.initialState, rfl, sums_initial.congr fun path => ⟨?_, fun hpath => ?_⟩⟩
      · rintro rfl
        exact .source fun src harc => by simpa [hlist] using (hsources src).mpr harc
      · rcases hpath with _ | ⟨_, harc⟩
        · rfl
        · simpa [hlist] using (hsources _).mpr harc
    | cons first others =>
      rw [hlist] at hstates hsources
      obtain ⟨⟨state, hstate, hsums⟩, hothers⟩ := List.forall_mem_cons.mp hstates
      obtain ⟨joined, hjoined, hsum⟩ := foldlM_joinState hothers hsums
      refine ⟨joined, ?_, hsum.congr fun path => ?_⟩
      · rw [joinStates, BTreeMap.index_eq_ok.mpr hstate]
        exact hjoined
      · rw [pathInto_iff _ hsources (List.cons_ne_nil _ _), List.exists_mem_cons_iff]
  obtain ⟨state, hstate, hsums⟩ := hjoin
  have hnext : next = (applyContract node descriptor state >>= fun state =>
      pure (states.insert node state)) := by
    show propagateNode _ _ _ _ _ = _
    rw [propagateNode, BTreeMap.index_eq_ok.mpr hget, ok_bind]
    exact congrArg (· >>= _) hstate
  have hnode : node ∈ order := hsplit ▸ List.mem_append_right _ List.mem_cons_self
  rcases applyContract_cases hsums hget hnode with ⟨hmeets, hok⟩ | ⟨error, hfail, hblames⟩
  · refine Or.inl ⟨_, by rw [hnext, hok]; rfl, fun other hother => ?_⟩
    rw [BTreeMap.get?_insert]
    by_cases heq : other = node
    · rw [heq, if_pos rfl]
      exact ⟨descriptor, _, hget, rfl, hmeets, hsums.leaves hget⟩
    · rw [if_neg heq]
      exact h other ((List.mem_append.mp hother).resolve_right fun hnew =>
        heq (List.mem_singleton.mp hnew))
  · exact Or.inr ⟨.err error, by rw [hnext, hfail]; rfl, error, rfl, hblames⟩

/-- Every path goes on to a node without outgoing edges. The induction is on what is left of the
    order. -/
theorem exists_fullPath (hnd : order.Nodup) (htop : Topological graph.arcs order)
    (hids : ∀ id, id ∈ order ↔ id ∈ graph.nodes.map NodeInstance.id)
    (harcs : ∀ arc ∈ graph.arcs, arc.2 ∈ order) (hnode : node ∈ order)
    (hpath : PathThrough graph.arcs node path) : ∃ full, graph.FullPath full ∧ path <+: full := by
  induction hleft : order.length - order.idxOf node using Nat.strong_induction_on
    generalizing node path with
  | h left ih =>
    by_cases hterminal : ∀ dst, (node, dst) ∉ graph.arcs
    · exact ⟨path, ⟨node, (hids node).mp hnode, hterminal, hpath⟩, List.prefix_refl _⟩
    · simp only [not_forall, not_not] at hterminal
      obtain ⟨dst, harc⟩ := hterminal
      have hdst : dst ∈ order := harcs _ harc
      have hlt := htop.idxOf_lt hnd harc hdst
      have hbound := List.idxOf_lt_length_of_mem hdst
      obtain ⟨before, hbefore, rfl⟩ := hpath
      obtain ⟨full, hfull, hprefix⟩ := ih _ (by omega) hdst ⟨_, hbefore.step harc, rfl⟩ rfl
      exact ⟨full, hfull, (List.prefix_append _ _).trans hprefix⟩

/-- An error tells a requirement that does not hold. -/
theorem Blames.not_hold {error : CompileError} (h : Blames graph descriptors order error)
    (hids : ∀ id, id ∈ order ↔ id ∈ graph.nodes.map NodeInstance.id) :
    ¬ ContractsHold graph descriptors := by
  intro hhold
  unfold Blames at h
  split at h
  · obtain ⟨hnode, descriptor, hget, hrequired, path, hpath, hdead⟩ := h
    have hlive := (hhold.nodes _ ((hids _).mp hnode) descriptor hget).proofs _ hrequired path hpath
    exact absurd hlive (by simp [hdead])
  · obtain ⟨hnode, descriptor, hget, hrequired, hnone⟩ := h
    obtain ⟨path, hpath, hcarries⟩ :=
      (hhold.nodes _ ((hids _).mp hnode) descriptor hget).policy _ hrequired
    exact hnone path hpath hcarries
  · rcases h with ⟨hnode, descriptor, hget, path, hpath, hlow⟩ | ⟨-, path, hpath, hlow⟩
    · have hmin := (hhold.nodes _ ((hids _).mp hnode) descriptor hget).fidelity path hpath
      omega
    · have hmin := hhold.fidelity path hpath
      omega
  · exact h

section Pass

variable (hne : graph.nodes ≠ []) (hedges : VerifiedGraph graph descriptors)
  (hdescriptors : ∀ id, id ∈ graph.nodes.map NodeInstance.id ↔
    ∃ descriptor, descriptors.get? id = some descriptor)
  (hnd : order.Nodup) (hids : ∀ id, id ∈ order ↔ id ∈ graph.nodes.map NodeInstance.id)
  (htop : Topological graph.arcs order)

include hdescriptors hids htop in
theorem propagateLoop_cases :
    (∃ states, order.foldlM (propagateNode graph.initialState
        (BTreeMap.groupOn (fun edge : Edge => edge.dst.node) graph.edges) descriptors)
          BTreeMap.empty = .ok states ∧ Propagated graph descriptors order states) ∨
      ∃ fault, order.foldlM (propagateNode graph.initialState
        (BTreeMap.groupOn (fun edge : Edge => edge.dst.node) graph.edges) descriptors)
          BTreeMap.empty = .error fault ∧
        ∃ error, fault = .err error ∧ Blames graph descriptors order error := by
  refine foldlM_cases (Propagated graph descriptors)
    (fun fault => ∃ error, fault = Fault.err error ∧ Blames graph descriptors order error) order
    (fun done node rest states hsplit h => ?_) (fun node hnode => absurd hnode List.not_mem_nil)
  have hnode : node ∈ order := hsplit ▸ List.mem_append_right _ List.mem_cons_self
  obtain ⟨descriptor, hget⟩ := (hdescriptors node).mp ((hids node).mp hnode)
  exact propagateNode_cases htop hget hsplit h

include hedges hdescriptors hids in
theorem arc_mem_order : ∀ arc ∈ graph.arcs, arc.2 ∈ order := by
  rintro _ harc
  obtain ⟨edge, hedge, rfl⟩ := List.mem_map.mp harc
  obtain ⟨output, input, ⟨src, dst, -, hdst, -⟩, -⟩ := hedges.edge edge hedge
  exact (hids _).mpr ((hdescriptors _).mpr ⟨dst, hdst⟩)

include hne hedges hdescriptors hnd hids htop

/-- The nodes that the last join starts from: those without outgoing edges. There is one. -/
theorem terminals_eq : ∃ first rest, order.filter (fun node =>
      !(BTreeSet.ofList (graph.edges.map fun edge => edge.src.node)).contains node) =
        first :: rest ∧
    ∀ path, graph.FullPath path ↔ PathThrough graph.arcs first path ∨
      ∃ node ∈ rest, PathThrough graph.arcs node path := by
  have hmem : ∀ node, node ∈ order.filter (fun node =>
      !(BTreeSet.ofList (graph.edges.map fun edge => edge.src.node)).contains node) ↔
      node ∈ order ∧ ∀ dst, (node, dst) ∉ graph.arcs := by
    intro node
    simp only [List.mem_filter, BTreeSet.contains_ofList, Bool.not_eq_true',
      decide_eq_false_iff_not, Graph.arcs, List.mem_map, Prod.mk.injEq, not_exists, not_and]
    exact and_congr_right fun _ => ⟨fun h dst edge hedge hsrc _ => h edge hedge hsrc,
      fun h edge hedge hsrc => h _ edge hedge hsrc rfl⟩
  have horder : order ≠ [] := by
    obtain ⟨node, hnode⟩ := List.exists_mem_of_ne_nil _ hne
    exact List.ne_nil_of_mem ((hids node.id).mpr (List.mem_map_of_mem hnode))
  have hlast : order.getLast horder ∈ order.filter (fun node =>
      !(BTreeSet.ofList (graph.edges.map fun edge => edge.src.node)).contains node) := by
    refine (hmem _).mpr ⟨List.getLast_mem horder, fun dst harc => ?_⟩
    exact htop.last_sink hnd (List.getLast?_eq_some_getLast horder)
      (arc_mem_order hedges hdescriptors hids _ harc) harc
  obtain ⟨first, rest, hterminals⟩ := List.exists_cons_of_ne_nil (List.ne_nil_of_mem hlast)
  refine ⟨first, rest, hterminals, fun path => ?_⟩
  rw [← List.exists_mem_cons_iff (p := fun node => PathThrough graph.arcs node path), ← hterminals]
  simp only [hmem, hids, and_assoc, Graph.FullPath]

theorem propagateContracts_cases :
    (∃ states state, Propagated graph descriptors order states ∧
      Sums graph descriptors state graph.FullPath ∧ graph.minimumFidelity ≤ state.fidelity ∧
      propagateContracts graph order descriptors =
        .ok (state.proofs.toList, state.policy.toList, state.fidelity)) ∨
    ∃ error, propagateContracts graph order descriptors = fail error ∧
      Blames graph descriptors order error := by
  rcases propagateLoop_cases hdescriptors hids htop with
    ⟨states, hok, h⟩ | ⟨fault, herror, error, rfl, hblames⟩
  swap
  · rw [Graph.initialState] at herror
    exact Or.inr ⟨error, by rw [propagateContracts, herror]; rfl, hblames⟩
  obtain ⟨first, rest, hterminals, hpaths⟩ := terminals_eq hne hedges hdescriptors hnd hids htop
  have hsub : ∀ node ∈ first :: rest, ∃ state, states.get? node = some state ∧
      Sums graph descriptors state (PathThrough graph.arcs node) := by
    intro node hnode
    rw [← hterminals] at hnode
    obtain ⟨_, state, -, hstate, -, hsums⟩ := h node (List.mem_filter.mp hnode).1
    exact ⟨state, hstate, hsums⟩
  obtain ⟨⟨start, hstart, hsums⟩, hrest⟩ := List.forall_mem_cons.mp hsub
  obtain ⟨state, hstate, hsum⟩ := foldlM_joinState hrest hsums
  have hfull := hsum.congr fun path => (hpaths path).symm
  obtain ⟨last, hlast⟩ : ∃ last, order.getLast? = some last := by
    have hmem : first ∈ order := (List.mem_filter.mp (hterminals ▸ List.mem_cons_self)).1
    exact ⟨_, List.getLast?_eq_some_getLast (List.ne_nil_of_mem hmem)⟩
  rw [Graph.initialState] at hok
  rw [propagateContracts, hok, ok_bind, hterminals]
  dsimp only
  rw [BTreeMap.index_eq_ok.mpr hstart, ok_bind, hstate, ok_bind, hlast]
  by_cases hlow : state.fidelity < graph.minimumFidelity
  · obtain ⟨worst, hworst, -, hfid⟩ := hfull.fidelity
    refine Or.inr ⟨.fidelityInsufficient last, by simp [expect, reject, hlow, fail], Or.inr ?_⟩
    exact ⟨hlast, worst, hworst, hfid ▸ hlow⟩
  · exact Or.inl ⟨states, state, h, hfull, not_lt.mp hlow, by simp [expect, reject, hlow]⟩

/-- `propagate_contracts` computes the meet over all paths, whatever the order of the nodes. -/
theorem propagateContracts_paths :
    ((∃ result, propagateContracts graph order descriptors = .ok result) ↔
      ContractsHold graph descriptors) ∧
    (∀ proofs policy fidelity,
      propagateContracts graph order descriptors = .ok (proofs, policy, fidelity) →
      (∀ proof, proof ∈ proofs ↔
        ∀ path, graph.FullPath path → liveAfter graph descriptors proof path = true) ∧
      (∀ label, label ∈ policy ↔ label ∈ graph.policy ∨ ∃ node ∈ graph.nodes.map NodeInstance.id,
        ∃ descriptor, descriptors.get? node = some descriptor ∧ label ∈ descriptor.policy.adds) ∧
      ∃ worst, graph.FullPath worst ∧
        (∀ path, graph.FullPath path → lossAlong descriptors path ≤ lossAlong descriptors worst) ∧
        fidelity = 65535 - lossAlong descriptors worst) ∧
    ∀ fault, propagateContracts graph order descriptors = .error fault →
      ∃ error, fault = .err error ∧ Blames graph descriptors order error := by
  obtain ⟨states, state, h, hsums, hmin, hok⟩ | ⟨error, hfail, hblames⟩ :=
    propagateContracts_cases hne hedges hdescriptors hnd hids htop
  swap
  · rw [hfail]
    refine ⟨⟨nofun, fun hhold => absurd hhold (hblames.not_hold hids)⟩, nofun, ?_⟩
    exact fun fault hfault => ⟨error, (Except.error.inj hfault).symm, hblames⟩
  rw [hok]
  obtain ⟨worst, hworst, hmost, hfid⟩ := hsums.fidelity
  refine ⟨⟨fun _ => ⟨fun node hnode descriptor hget => ?_, fun path hpath => ?_⟩,
    fun _ => ⟨_, rfl⟩⟩, ?_, nofun⟩
  · obtain ⟨descriptor', _, hget', -, hmeets, -⟩ := h node ((hids node).mpr hnode)
    rwa [Option.some.inj (hget.symm.trans hget')]
  · have hle := hmost path hpath
    omega
  · intro proofs policy fidelity hresult
    obtain ⟨rfl, rfl, rfl⟩ := by simpa using hresult
    refine ⟨fun proof => (BTreeSet.mem_toList _).trans (hsums.proofs proof), fun label => ?_,
      worst, hworst, hmost, hfid⟩
    rw [BTreeSet.mem_toList, hsums.policy]
    constructor
    · rintro ⟨path, -, hgraph | ⟨node, -, descriptor, hget, hadds⟩⟩
      · exact Or.inl hgraph
      · exact Or.inr ⟨node, (hdescriptors node).mpr ⟨descriptor, hget⟩, descriptor, hget, hadds⟩
    · rintro (hgraph | ⟨node, hnode, descriptor, hget, hadds⟩)
      · exact ⟨worst, hworst, Or.inl hgraph⟩
      · -- the node is on a path, and that path goes on to the end
        have hnode := (hids node).mpr hnode
        obtain ⟨_, _, -, -, -, hthrough⟩ := h node hnode
        obtain ⟨_, hpath, -⟩ := hthrough.fidelity
        obtain ⟨full, hfull, hprefix⟩ := exists_fullPath hnd htop hids
          (arc_mem_order hedges hdescriptors hids) hnode hpath
        obtain ⟨before, -, rfl⟩ := hpath
        exact ⟨full, hfull, Or.inr ⟨node, hprefix.subset (by simp), descriptor, hget, hadds⟩⟩

end Pass

/-! ## A label from one of two sources -/

/-- Two sources, of which the first adds a label, and a node behind both. -/
def mergeGraph : Graph where
  version := 3
  nodes := [0, 1, 2].map fun id => ⟨id, "node", 1, BTreeMap.empty⟩
  edges := [⟨⟨0, "out"⟩, ⟨2, "left"⟩⟩, ⟨⟨1, "out"⟩, ⟨2, "right"⟩⟩]
  feedback := []
  invocationInputs := []
  requiredCapabilities := []
  requiredProofs := []
  policy := ["research"]
  minimumFidelity := 0
  session := none

/-- The node behind both sources requires the label. -/
def mergeTable : NodeTable :=
  BTreeMap.ofList
    [(0, { fixtureDescriptor "first" false with
        policy := { requires := [], adds := ["consented"] } }),
      (1, fixtureDescriptor "second" false),
      (2, { fixtureDescriptor "merge" false with
        inputs := ["left", "right"].map fun name =>
          PortDescriptor.opaqueBlob name "sample.block" 4096
        policy := { requires := ["consented"], adds := [] } })]

theorem mergeGraph_ok : VerifiedGraph mergeGraph mergeTable ∧
    topologicalOrder mergeGraph = .ok [0, 1, 2] ∧
    (∀ id, id ∈ mergeGraph.nodes.map NodeInstance.id ↔
      ∃ descriptor, mergeTable.get? id = some descriptor) := by
  refine ⟨(verifyEdges_eq_ok.mp (by decide +kernel :
    verifyEdges mergeGraph mergeTable = .ok [])).1, by decide +kernel, fun id => ?_⟩
  have hkeys : mergeGraph.nodes.map NodeInstance.id = mergeTable.keys := by decide +kernel
  rw [hkeys, BTreeMap.mem_keys_iff]

theorem propagateContracts_paths_merge :
    propagateContracts mergeGraph [0, 1, 2] mergeTable =
      .ok (["merge.verified"], ["consented", "research"], 65535) ∧
    ContractsHold mergeGraph mergeTable := by
  obtain ⟨hedges, horder, hdescriptors⟩ := mergeGraph_ok
  obtain ⟨hnd, hids, htop⟩ := topologicalOrder_ok horder
  have hrun : propagateContracts mergeGraph [0, 1, 2] mergeTable =
      .ok (["merge.verified"], ["consented", "research"], 65535) := by decide +kernel
  exact ⟨hrun, (propagateContracts_paths (by decide) hedges hdescriptors hnd hids htop).1.mp
    ⟨_, hrun⟩⟩

/-- A label that one path into a node lacks may still be found there. -/
theorem label_missing_on_one_path : VerifiedGraph mergeGraph mergeTable ∧
    topologicalOrder mergeGraph = .ok [0, 1, 2] ∧
    (propagateContracts mergeGraph [0, 1, 2] mergeTable).isOk = true ∧
    (mergeTable.get? 2).any (fun descriptor => descriptor.policy.requires.contains "consented") =
      true ∧
    PathInto mergeGraph.arcs [1] 2 ∧ ¬ Carries mergeGraph mergeTable "consented" [1] := by
  refine ⟨mergeGraph_ok.1, mergeGraph_ok.2.1, by decide +kernel, by decide +kernel, ?_, ?_⟩
  · exact .step (.source fun src harc => by simp [Graph.arcs, mergeGraph] at harc) (by decide)
  · rintro (hgraph | ⟨node, hnode, descriptor, hget, hadds⟩)
    · exact absurd hgraph (by decide)
    · rw [List.mem_singleton.mp hnode] at hget
      have hsecond : mergeTable.get? 1 =
          some (fixtureDescriptor "second" false) := by decide +kernel
      rw [← Option.some.inj (hsecond.symm.trans hget)] at hadds
      exact absurd hadds (by decide)

end Blut.GraphCore
