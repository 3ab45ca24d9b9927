/-
  What the compiler returns (`Compiler::compile`).

  The search keeps the lowering of one candidate: `compile_origin` says from which candidate the
  steps and buffers of a plan were lowered. Aligning the layouts of feedback changes contracts
  only, and lowering feedback rebinds inputs. So every compiled plan is disciplined
  (`compile_disciplined`), and one in which no input is bound to feedback has none
  (`CompiledFrom.feedback_eq_nil`).
-/
import Blut.GraphCore.Compile
import Blut.GraphCore.Lowered

namespace Blut.GraphCore

open Blut.Lib

/-! ## The search -/

variable {descriptors : NodeTable} {graph : Graph} {compiler : Compiler} {lowered : Lowered}
  {order : List NodeId}

theorem better_cases {best : Option Lowered} {found : Lowered}
    (h : Lowered.better best lowered = some found) : found = lowered ∨ best = some found := by
  unfold Lowered.better at h
  cases best with
  | none => exact Or.inl (Option.some.inj h).symm
  | some current =>
    dsimp only at h
    split_ifs at h
    · exact Or.inl (Option.some.inj h).symm
    · exact Or.inr h

/-- The plan of the cheapest candidate is the lowering of a cut. -/
theorem lowerPhysicalPlan_ok {context : PhysicalLowering} {fuse : Bool}
    {limits : PhysicalSearchLimits} (h : lowerPhysicalPlan context fuse limits = .ok lowered) :
    ∃ members segments regions, members.map Member.id = context.order ∧
      IsCut context members segments regions ∧
      lowerSemanticRegions context regions limits.conversionStates = .ok lowered := by
  simp only [lowerPhysicalPlan, bind_eq_ok] at h
  obtain ⟨candidates, hcandidates, search, hsearch, h⟩ := h
  obtain ⟨members, hmembers, hcuts⟩ := buildSemanticRegionCandidates_ok hcandidates
  have hbest : ∀ found, search.best = some found → ∃ regions ∈ candidates,
      lowerSemanticRegions context regions limits.conversionStates = .ok found := by
    refine foldlM_inv (fun search => ∀ found, search.best = some found → ∃ regions ∈ candidates,
      lowerSemanticRegions context regions limits.conversionStates = .ok found) candidates
      (fun s regions s' hregions hs hstep => ?_) (fun found hfound => by cases hfound) hsearch
    unfold tryRegions at hstep
    split at hstep
    · rename_i found hlowered
      split_ifs at hstep <;> rw [← Except.ok.inj hstep]
      · exact hs
      · exact hs
      · intro other hother
        rcases better_cases hother with rfl | hold
        · exact ⟨regions, hregions, hlowered⟩
        · exact hs other hold
    · rw [← Except.ok.inj hstep]
      exact hs
    · cases hstep
  cases hfound : search.best with
  | none =>
    rw [hfound] at h
    dsimp only at h
    split_ifs at h <;> exact absurd h fail_ne_ok
  | some found =>
    rw [hfound] at h
    obtain ⟨regions, hregions, hlowered⟩ := hbest found hfound
    obtain ⟨segments, hcut⟩ := hcuts regions hregions
    have heq : found = lowered := Except.ok.inj h
    exact ⟨members, segments, regions, members_of_mapM hmembers, hcut, heq ▸ hlowered⟩

/-- The context in which one assignment is lowered. -/
def assignedContext (compiler : Compiler) (graph : Graph) (order : List NodeId)
    (descriptors : NodeTable) (target : Target) (kernels : List KernelDescriptor) :
    PhysicalLowering :=
  { graph := graph
    order := order
    descriptors := descriptors
    kernels := BTreeMap.ofList (order.zip kernels)
    registry := compiler.registry
    target := target }

/-- Where the result of the search comes from: one assignment, one candidate, its lowering, and
    the layouts of the feedback edges. -/
def SearchedFrom (compiler : Compiler) (graph : Graph) (order : List NodeId)
    (descriptors : NodeTable) (target : Target) (lowered : Lowered) : Prop :=
  ∃ kernels first,
    (∃ members segments regions,
      members.map Member.id = order ∧
      IsCut (assignedContext compiler graph order descriptors target kernels) members segments
        regions ∧
      lowerSemanticRegions (assignedContext compiler graph order descriptors target kernels) regions
        compiler.limits.maxConversionStates = .ok first) ∧
    alignFeedbackLayouts graph descriptors compiler.registry first.nodes =
      .ok (some lowered.nodes) ∧
    lowered.buffers = first.buffers

theorem tryAssignment_ok {target : Target} {regionLimit ordinal : Nat}
    {candidates : List (List KernelDescriptor)} {search search' : AssignmentSearch}
    (hsearch : ∀ found, search.best = some found →
      SearchedFrom compiler graph order descriptors target found)
    (h : tryAssignment compiler graph order descriptors target regionLimit candidates
      search ordinal =
      .ok search') {found : Lowered} (hfound : search'.best = some found) :
    SearchedFrom compiler graph order descriptors target found := by
  unfold tryAssignment at h
  obtain ⟨kernels, -, h⟩ := bind_eq_ok.mp h
  dsimp only at h
  split at h
  · rename_i first hfirst
    split_ifs at h
    · unfold considerLowered at h
      obtain ⟨aligned, haligned, h⟩ := bind_eq_ok.mp h
      cases aligned with
      | none =>
        rw [← Except.ok.inj h] at hfound
        exact hsearch found hfound
      | some nodes =>
        obtain ⟨compatible, -, h⟩ := bind_eq_ok.mp h
        split_ifs at h
        · rw [← Except.ok.inj h] at hfound
          rcases better_cases hfound with rfl | hold
          · exact ⟨kernels, first, lowerPhysicalPlan_ok hfirst, haligned, rfl⟩
          · exact hsearch found hold
        · rw [← Except.ok.inj h] at hfound
          exact hsearch found hfound
    · exact absurd h fail_ne_ok
    · rw [← Except.ok.inj h] at hfound
      exact hsearch found hfound
  · rw [← Except.ok.inj h] at hfound
    exact hsearch found hfound
  · rw [← Except.ok.inj h] at hfound
    exact hsearch found hfound
  · cases h

theorem selectAndLower_ok {instances : BTreeMap NodeId NodeInstance} {target : Target}
    (h : selectAndLower compiler graph order instances descriptors target = .ok lowered) :
    SearchedFrom compiler graph order descriptors target lowered := by
  simp only [selectAndLower, bind_eq_ok] at h
  obtain ⟨candidates, -, _, -, _, -, search, hsearch, h⟩ := h
  have hbest : ∀ found, search.best = some found →
      SearchedFrom compiler graph order descriptors target found :=
    foldlM_inv (fun search => ∀ found, search.best = some found →
      SearchedFrom compiler graph order descriptors target found) _
      (fun s ordinal s' _ hs hstep found hfound => tryAssignment_ok hs hstep hfound)
      (fun found hfound => by cases hfound) hsearch
  cases hfound : search.best with
  | none =>
    rw [hfound] at h
    dsimp only at h
    split_ifs at h
    · obtain ⟨feedback, -, h⟩ := bind_eq_ok.mp h
      exact absurd h fail_ne_ok
    · exact absurd h fail_ne_ok
    · obtain ⟨first, -, h⟩ := bind_eq_ok.mp h
      exact absurd h fail_ne_ok
    · obtain ⟨first, -, h⟩ := bind_eq_ok.mp h
      exact absurd h fail_ne_ok
  | some found =>
    rw [hfound] at h
    exact Except.ok.inj h ▸ hbest found hfound

/-! ## Feedback -/

variable {nodes' : List CompiledNode} {registry : KernelRegistry}

theorem foldl_setInputLayout (layout : Layout) (consumers : List (Nat × Nat))
    (nodes : List CompiledNode) : List.Forall₂ Recontracted nodes
      (consumers.foldl (fun nodes (index, port) => setInputLayout nodes index port layout)
        nodes) := by
  induction consumers generalizing nodes with
  | nil => exact List.forall₂_same.mpr fun node _ => .refl node
  | cons consumer consumers ih =>
    have hfirst : List.Forall₂ Recontracted nodes
        (setInputLayout nodes consumer.1 consumer.2 layout) := by
      unfold setInputLayout
      refine forall₂_modify ?_ ?_ nodes consumer.1
      · exact Recontracted.refl
      · exact fun node => rfl
    exact forall₂_trans (R := Recontracted) (fun _ _ _ => .trans) hfirst (ih _)

variable {nodes : List CompiledNode}

theorem alignGroup_recontracted {source : PortRef} {edges : List FeedbackEdge}
    (h : alignGroup descriptors registry nodes source edges = .ok (some nodes')) :
    List.Forall₂ Recontracted nodes nodes' := by
  simp only [alignGroup, bind_eq_ok, Prod.exists] at h
  obtain ⟨producer, -, _, -, _, -, _, -, _, -, accepted, consumers, -, contract, -, h⟩ := h
  obtain ⟨layout, -, hnodes⟩ := Option.map_eq_some_iff.mp (Except.ok.inj h)
  rw [← hnodes]
  have hstart : List.Forall₂ Recontracted nodes
      (setOutputLayout nodes producer.index producer.port layout) := by
    unfold setOutputLayout
    refine forall₂_modify ?_ ?_ nodes producer.index
    · exact Recontracted.refl
    · exact fun node => rfl
  exact forall₂_trans (R := Recontracted) (fun _ _ _ => .trans) hstart
    (foldl_setInputLayout layout consumers _)

theorem alignFeedbackLayouts_recontracted
    (h : alignFeedbackLayouts graph descriptors registry nodes = .ok (some nodes')) :
    List.Forall₂ Recontracted nodes nodes' := by
  unfold alignFeedbackLayouts at h
  refine foldlM_inv (fun state => ∀ found, state = some found →
    List.Forall₂ Recontracted nodes found)
    _ (fun state entry state' _ hstate hstep found hfound => ?_)
    (fun found hfound => Option.some.inj hfound ▸ List.forall₂_same.mpr fun node _ => .refl node)
    h nodes' rfl
  cases state with
  | none => cases (Except.ok.inj hstep).trans hfound
  | some current =>
    rw [hfound] at hstep
    exact forall₂_trans (R := Recontracted) (fun _ _ _ => .trans) (hstate current rfl)
      (alignGroup_recontracted hstep)

/-- What lowering the feedback edges does to the steps. -/
structure FeedbackOf (start : List CompiledNode) (state : FeedbackLowering) : Prop where
  narrowed : List.Forall₂ NarrowedNode start state.nodes
  unchanged : state.plans = [] → state.nodes = start
  bound : state.plans ≠ [] → ∃ loc f, inputAt state.nodes loc = some (.feedback f)

theorem lowerFeedbackEdge_ok {start : List CompiledNode} {state state' : FeedbackLowering}
    {edge : FeedbackEdge} (hstate : FeedbackOf start state)
    (h : lowerFeedbackEdge state edge = .ok state') : FeedbackOf start state' := by
  simp only [lowerFeedbackEdge, bind_eq_ok, Prod.exists, expect_eq_ok] at h
  obtain ⟨producer, consumer, output, input, hcontracts, _, -, bytes, -, _, -, nodes, hset,
    stateBytes, -, h⟩ := h
  -- the consumer is the step at its index
  have hconsumer : state.nodes[consumer.index]? = some consumer.step := by
    simp only [feedbackContracts, inputOf, bind_eq_ok, expect_eq_ok] at hcontracts
    obtain ⟨_, -, consumer', ⟨index, -, step, hstep, _, -, hinput⟩, _, -, _, -, h⟩ := hcontracts
    have heq := congrArg (fun entry => entry.2.1) (Except.ok.inj h)
    rw [← show consumer' = consumer from heq, ← Except.ok.inj hinput]
    exact hstep
  split_ifs at hset with hport
  have hlt := (List.getElem?_eq_some_iff.mp hconsumer).1
  rw [← Except.ok.inj h, ← Option.some.inj hset]
  refine ⟨forall₂_trans (R := NarrowedNode) (fun _ _ _ => .trans) hstate.narrowed ?_,
    fun hnil => absurd hnil (by simp), fun _ =>
    ⟨(consumer.index, consumer.port), state.plans.length, ?_⟩⟩
  · have hmodify : state.nodes.set consumer.index { consumer.step with
        inputBindings := consumer.step.inputBindings.set consumer.port
          (.feedback state.plans.length) } =
        state.nodes.modify consumer.index fun node => { node with
          inputBindings := node.inputBindings.set consumer.port
            (.feedback state.plans.length) } := by
      rw [List.modify_eq_set_getElem?, hconsumer]
      rfl
    rw [hmodify]
    refine forall₂_modify ?_ ?_ state.nodes consumer.index
    · exact NarrowedNode.refl
    · refine fun node => ⟨rfl, rfl, fun i b hb => ?_⟩
      rw [List.getElem?_set] at hb
      split_ifs at hb
      · exact absurd hb (by simp)
      · exact hb
  · unfold inputAt
    rw [List.getElem?_set_self hlt, Option.bind_some]
    exact List.getElem?_set_self hport

theorem lowerFeedback_ok {maxFeedbackEdges : Nat} {feedback : FeedbackLowering}
    (h : lowerFeedback graph nodes maxFeedbackEdges = .ok feedback) :
    FeedbackOf nodes feedback := by
  unfold lowerFeedback at h
  obtain ⟨-, h⟩ := reject_bind_eq_ok.mp h
  dsimp only at h
  have hstart : FeedbackOf nodes { nodes := nodes, plans := [], stateBytes := 0 } :=
    ⟨List.forall₂_same.mpr fun node _ => .refl node, fun _ => rfl, fun hne => absurd rfl hne⟩
  split at h
  · exact absurd h fail_ne_ok
  · exact foldlM_inv (FeedbackOf nodes) _
      (fun s edge s' _ hs hstep => lowerFeedbackEdge_ok hs hstep)
      hstart h

/-! ## Compiled plans -/

variable {authorized : AuthorizedPlan}

/-- How a plan was compiled: the normalized graph with its descriptors, the result of the search
    and the lowered feedback. -/
structure CompiledFrom (compiler : Compiler) (graph' : Graph) (descriptors : NodeTable)
    (lowered : Lowered) (feedback : FeedbackLowering) (plan : CompiledPlan) : Prop where
  verified : VerifiedGraph graph' descriptors
  ordered : topologicalOrder graph' = .ok plan.order
  searched : SearchedFrom compiler graph' plan.order descriptors compiler.realm.target lowered
  fed : lowerFeedback graph' lowered.nodes compiler.limits.maxFeedbackEdges = .ok feedback
  ports : plan.invocationPorts = sortBy id graph'.invocationInputs
  nodes : plan.nodes = feedback.nodes
  buffers : plan.buffers = lowered.buffers
  feedback : plan.feedback = feedback.plans

theorem compile_origin {blake3 : Blake3} (h : compile blake3 compiler graph = .ok authorized) :
    ∃ graph' descriptors lowered feedback,
      CompiledFrom compiler graph' descriptors lowered feedback authorized.plan := by
  simp only [compile, bind_eq_ok, Prod.exists] at h
  obtain ⟨graph', descriptors, -, ports, hports, order, horder, _, _, _, -, lowered,
    hlowered, feedback, hfeedback, _, -, _, -, h⟩ := h
  obtain ⟨hverified, hsorted⟩ := verifyEdges_eq_ok.mp hports
  rw [← Except.ok.inj h]
  exact ⟨graph', descriptors, lowered, feedback, hverified, horder,
    selectAndLower_ok hlowered, hfeedback, hsorted, rfl, rfl, rfl⟩

section

variable {graph' : Graph} {feedback : FeedbackLowering} {plan : CompiledPlan}
variable (h : CompiledFrom compiler graph' descriptors lowered feedback plan)
include h

theorem CompiledFrom.checked (kernels : List KernelDescriptor) :
    (assignedContext compiler graph' plan.order descriptors compiler.realm.target
      kernels).Checked := by
  obtain ⟨hnodup, -, htop⟩ := topologicalOrder_ok h.ordered
  exact ⟨h.verified, hnodup, htop⟩

/-- The candidate that was lowered, before the layouts of the feedback edges were aligned. -/
theorem CompiledFrom.lowered_from :
    ∃ kernels regions groups emission locs wiring first,
      LoweredFrom (assignedContext compiler graph' plan.order descriptors
        compiler.realm.target kernels)
        regions groups emission locs wiring first ∧
      List.Forall₂ Recontracted first.nodes lowered.nodes ∧ lowered.buffers = first.buffers := by
  obtain ⟨kernels, first, ⟨members, segments, regions, hmembers, hcut, hfirst⟩, haligned,
    hbuffers⟩ := h.searched
  obtain ⟨groups, emission, locs, wiring, hfrom⟩ :=
    lowerSemanticRegions_ok hcut hmembers (h.checked kernels) hfirst
  exact ⟨kernels, regions, groups, emission, locs, wiring, first, hfrom,
    alignFeedbackLayouts_recontracted haligned, hbuffers⟩

theorem CompiledFrom.disciplined :
    Disciplined plan.nodes plan.buffers := by
  obtain ⟨kernels, regions, groups, emission, locs, wiring, first, hfrom, hsame, hbuffers⟩ :=
    h.lowered_from
  rw [h.nodes, h.buffers, hbuffers]
  exact (hfrom.disciplined.narrowed (hsame.imp fun _ _ => Recontracted.narrowed)).narrowed
    (lowerFeedback_ok h.fed).narrowed

/-- Every feedback edge is bound to an input. -/
theorem CompiledFrom.feedback_eq_nil
    (hfree : ∀ loc f, inputAt plan.nodes loc ≠ some (.feedback f)) : plan.feedback = [] := by
  rw [h.feedback]
  by_contra hne
  obtain ⟨loc, f, hbound⟩ := (lowerFeedback_ok h.fed).bound hne
  rw [← h.nodes] at hbound
  exact hfree loc f hbound

/-- Every invocation port is bound to an input. -/
theorem CompiledFrom.ports_eq_nil (hfeedback : ∀ loc f, inputAt plan.nodes loc ≠ some (.feedback f))
    (hfree : ∀ loc k, inputAt plan.nodes loc ≠ some (.invocation k)) :
      plan.invocationPorts = [] := by
  obtain ⟨kernels, regions, groups, emission, locs, wiring, first, hfrom, hsame, -⟩ :=
    h.lowered_from
  have hnodes : plan.nodes = lowered.nodes :=
    h.nodes.trans ((lowerFeedback_ok h.fed).unchanged (h.feedback ▸ h.feedback_eq_nil hfeedback))
  have hlocs : locs = [] := by
    refine List.eq_nil_iff_forall_not_mem.mpr fun loc hloc => ?_
    obtain ⟨k, hk⟩ := List.mem_iff_getElem?.mp hloc
    refine hfree loc k ?_
    rw [hnodes, inputAt_recontracted hsame, inputAt_recontracted hfrom.synced]
    exact (hfrom.netlist.invocation loc k).mpr hk
  have hports := hfrom.invocations
  rw [hlocs] at hports
  have hnil : sortDedup graph'.invocationInputs = [] := List.forall₂_nil_right_iff.mp hports
  rw [h.ports, List.eq_nil_iff_forall_not_mem]
  intro port hport
  have hmem := mem_sortDedup.mpr (mem_sortBy.mp hport)
  rw [hnil] at hmem
  exact absurd hmem List.not_mem_nil

end

theorem compile_disciplined {blake3 : Blake3} (h : compile blake3 compiler graph = .ok authorized) :
    Disciplined authorized.plan.nodes authorized.plan.buffers := by
  obtain ⟨graph', descriptors, lowered, feedback, hfrom⟩ := compile_origin h
  exact hfrom.disciplined

end Blut.GraphCore
