/-
  What the region search returns.

  Every candidate is a cut of the topological order into chains
  (`buildSemanticRegionCandidates_ok`). For such a cut an edge between two regions leaves its
  producer at the last node and enters its consumer at the first one, and goes forward.
-/
import Blut.GraphCore.Discipline
import Blut.GraphCore.Regions

namespace Blut.GraphCore

open Blut.Lib

/-! ## Chains -/

/-- The nodes of a segment form a chain in which each one feeds only the next. -/
def Segment.Chained (graph : Graph) (segment : Segment) : Prop :=
  segment.members.IsChain fun a b => fusionEdgeIsOnly graph a b = true

/-- A partial candidate that has cut the nodes before `remaining`. -/
structure Pending.Cuts (context : PhysicalLowering) (members : List Member) (item : Pending) :
    Prop where
  split : item.segments.flatMap Segment.members ++ item.remaining = members
  chained : ∀ segment ∈ item.segments, segment.Chained context.graph

section

variable {context : PhysicalLowering} {members : List Member} {kernel : KernelDescriptor}

theorem fusedAlternatives_chained {remaining : List Member}
    (h : kernel ∈ fusedAlternatives context remaining) :
    Segment.Chained context.graph
      { members := remaining.take kernel.implements.length, kernel := kernel } := by
  unfold fusedAlternatives at h
  rw [mem_sortBy, List.mem_filter, Bool.and_eq_true] at h
  have hfuses := h.2.2
  unfold KernelDescriptor.fuses linearFusionIsSafe at hfuses
  rw [Bool.and_eq_true] at hfuses
  have hsafe := hfuses.2
  rw [Bool.and_eq_true] at hsafe
  exact windowsAll_eq_true.mp hsafe.2

theorem Pending.Cuts.extend {item : Pending} (h : item.Cuts context members) {count : Nat}
    (hseg : Segment.Chained context.graph
      { members := item.remaining.take count, kernel := kernel }) :
    (item.extend count kernel).Cuts context members := by
  refine ⟨?_, ?_⟩
  · show (item.segments ++ [_]).flatMap Segment.members ++ item.remaining.drop count = members
    rw [List.flatMap_append, List.append_assoc, ← h.split]
    simp
  · exact List.forall_mem_append.mpr ⟨h.chained, List.forall_mem_singleton.mpr hseg⟩

variable {fuse : Bool} {graph : Graph} {edge : Edge}

/-- Every extension cuts off one more chain. -/
theorem Pending.Cuts.next {item : Pending}
    (h : item.Cuts context members) {member : Member} {rest : List Member}
    (hrest : item.remaining = member :: rest) {next : Pending}
    (hnext : next ∈ item.next context fuse member) : next.Cuts context members := by
  unfold Pending.next at hnext
  rcases List.mem_cons.mp hnext with rfl | hfused
  · refine h.extend ?_
    rw [hrest, List.take_succ_cons, List.take_zero]
    exact List.IsChain.singleton member
  · split_ifs at hfused with hfuse
    · obtain ⟨kernel, hkernel, rfl⟩ := List.mem_map.mp hfused
      exact h.extend (fusedAlternatives_chained hkernel)
    · exact absurd hfused List.not_mem_nil

/-! ## The candidates -/

variable {maxCandidates : Nat}

/-- The regions of a cut of the nodes. -/
def IsCut (context : PhysicalLowering) (members : List Member) (segments : List Segment)
    (regions : List CompiledNode) : Prop :=
  segments.flatMap Segment.members = members ∧
    (∀ segment ∈ segments, segment.Chained context.graph) ∧
    segments.mapM semanticRegion = .ok regions

theorem regionLoop_ok {fuel : Nat} {pending : List Pending}
    {complete out : List (List CompiledNode)}
    (hpending : ∀ item ∈ pending, item.Cuts context members)
    (hcomplete : ∀ regions ∈ complete, ∃ segments, IsCut context members segments regions)
    (h : regionLoop context fuse maxCandidates fuel pending complete = .ok out) :
    ∀ regions ∈ out, ∃ segments, IsCut context members segments regions := by
  induction fuel generalizing pending complete with
  | zero =>
    cases pending with
    | nil =>
      rw [regionLoop] at h
      rw [← Except.ok.inj h]
      exact hcomplete
    | cons item pending => simp [regionLoop] at h
  | succ fuel ih =>
    cases pending with
    | nil =>
      rw [regionLoop] at h
      rw [← Except.ok.inj h]
      exact hcomplete
    | cons item pending =>
      have hitem := hpending item List.mem_cons_self
      have hrest : ∀ other ∈ pending, other.Cuts context members :=
        fun other hother => hpending other (List.mem_cons_of_mem _ hother)
      rw [regionLoop] at h
      cases hremaining : item.remaining with
      | nil =>
        simp only [hremaining] at h
        obtain ⟨regions, hregions, h⟩ := bind_eq_ok.mp h
        obtain ⟨-, h⟩ := reject_bind_eq_ok.mp h
        refine ih hrest (fun other hother => ?_) h
        rcases List.mem_append.mp hother with hold | hnew
        · exact hcomplete other hold
        · rw [List.mem_singleton.mp hnew]
          have hsplit := hitem.split
          rw [hremaining, List.append_nil] at hsplit
          exact ⟨item.segments, hsplit, hitem.chained, hregions⟩
      | cons member rest =>
        simp only [hremaining] at h
        obtain ⟨-, h⟩ := reject_bind_eq_ok.mp h
        refine ih (fun other hother => ?_) hcomplete h
        rcases List.mem_append.mp hother with hnew | hold
        · exact hitem.next hremaining hnew
        · exact hrest other hold

theorem buildSemanticRegionCandidates_ok {candidates : List (List CompiledNode)}
    (h : buildSemanticRegionCandidates context fuse maxCandidates = .ok candidates) :
    ∃ members, context.order.mapM context.member = .ok members ∧
      ∀ regions ∈ candidates, ∃ segments, IsCut context members segments regions := by
  unfold buildSemanticRegionCandidates at h
  obtain ⟨members, hmembers, h⟩ := bind_eq_ok.mp h
  refine ⟨members, hmembers, regionLoop_ok ?_ ?_ h⟩
  · intro item hitem
    rw [List.mem_singleton.mp hitem]
    exact ⟨by simp, by simp⟩
  · intro regions hregions
    exact absurd hregions List.not_mem_nil

/-! ## The step of a segment -/

variable {segment : Segment}

/-- The step of a segment runs its nodes, and none of its ports is wired yet. -/
structure RegionOf (segment : Segment) (region : CompiledNode) : Prop where
  semanticNodes : region.semanticNodes = segment.members.map Member.id
  unwired : region.Unwired

theorem semanticRegion_ok {region : CompiledNode} (h : semanticRegion segment = .ok region) :
    RegionOf segment region := by
  simp only [semanticRegion, bind_eq_ok, expect_eq_ok, Option.map_eq_some_iff] at h
  obtain ⟨_, -, _, -, _, -, _, -, h⟩ := h
  rw [← Except.ok.inj h]
  exact ⟨rfl, ⟨fun _ => List.eq_of_mem_replicate, fun _ => List.eq_of_mem_replicate⟩⟩

/-! ## Edges of a fused chain -/

section

variable {src dst : Member} (h : fusionEdgeIsOnly graph src dst = true)
include h

theorem fusionEdgeIsOnly_eq :
    ∃ edge, graph.edges.filter (fun e => e.src.node = src.id) = [edge] ∧
      graph.edges.filter (fun e => e.dst.node = dst.id) = [edge] := by
  unfold fusionEdgeIsOnly at h
  simp only [Bool.and_eq_true, decide_eq_true_eq] at h
  obtain ⟨⟨⟨⟨⟨-, hout⟩, hin⟩, hsame⟩, -⟩, -⟩ := h
  obtain ⟨edge, hedge⟩ := List.length_eq_one_iff.mp hout
  obtain ⟨edge', hedge'⟩ := List.length_eq_one_iff.mp hin
  rw [hedge, hedge', List.head?_cons, List.head?_cons, Option.some_inj] at hsame
  exact ⟨edge, hedge, hsame ▸ hedge'⟩

/-- The only edge out of a node that is fused with the next one goes there, and conversely. -/
theorem fusionEdgeIsOnly_iff (hedge : edge ∈ graph.edges) :
    edge.src.node = src.id ↔ edge.dst.node = dst.id := by
  obtain ⟨only, hout, hin⟩ := fusionEdgeIsOnly_eq h
  have hsrc : edge ∈ graph.edges.filter (fun e => e.src.node = src.id) ↔ edge = only := by
    rw [hout, List.mem_singleton]
  have hdst : edge ∈ graph.edges.filter (fun e => e.dst.node = dst.id) ↔ edge = only := by
    rw [hin, List.mem_singleton]
  rw [List.mem_filter, decide_eq_true_eq, and_iff_right hedge] at hsrc hdst
  rw [hsrc, hdst]

end

section

variable (h : members.IsChain fun a b => fusionEdgeIsOnly graph a b = true)
  (hedge : edge ∈ graph.edges)
include h hedge

/-- An edge that leaves a fused chain leaves it at the last node. -/
theorem chain_leaves (hsrc : edge.src.node ∈ members.map Member.id)
    (hdst : edge.dst.node ∉ members.map Member.id) :
    members.getLast?.map Member.id = some edge.src.node := by
  induction members with
  | nil => exact absurd hsrc List.not_mem_nil
  | cons a rest ih =>
    cases rest with
    | nil =>
      have ha : edge.src.node = a.id := by simpa using hsrc
      rw [ha]
      rfl
    | cons b rest =>
      obtain ⟨hab, hrest⟩ := List.isChain_cons_cons.mp h
      rw [List.map_cons, List.mem_cons, not_or] at hdst
      rw [List.map_cons, List.mem_cons] at hsrc
      rcases hsrc with ha | hmem
      · exact absurd ((fusionEdgeIsOnly_iff hab hedge).mp ha) fun hb => hdst.2 (by simp [hb])
      · have hlast := ih hrest hmem hdst.2
        rw [List.getLast?_cons_cons]
        exact hlast

/-- An edge that enters a fused chain enters it at the first node. -/
theorem chain_enters (hdst : edge.dst.node ∈ members.map Member.id)
    (hsrc : edge.src.node ∉ members.map Member.id) :
    members.head?.map Member.id = some edge.dst.node := by
  induction members with
  | nil => exact absurd hdst List.not_mem_nil
  | cons a rest ih =>
    rw [List.map_cons, List.mem_cons, not_or] at hsrc
    rw [List.map_cons, List.mem_cons] at hdst
    rcases hdst with ha | hmem
    · rw [ha]
      rfl
    · cases rest with
      | nil => exact absurd hmem List.not_mem_nil
      | cons b rest =>
        obtain ⟨hab, hrest⟩ := List.isChain_cons_cons.mp h
        have hhead := ih hrest hmem hsrc.2
        have hb : edge.dst.node = b.id := (Option.some.inj hhead).symm
        exact absurd ((fusionEdgeIsOnly_iff hab hedge).mpr hb) hsrc.1

end

/-! ## Regions of a cut -/

/-- What the graph passes guarantee to the lowering. -/
structure PhysicalLowering.Checked (context : PhysicalLowering) : Prop where
  verified : VerifiedGraph context.graph context.descriptors
  order_nodup : context.order.Nodup
  topological : Topological context.graph.arcs context.order

/-- The members stand in the order. -/
theorem members_of_mapM (h : context.order.mapM context.member = .ok members) :
    members.map Member.id = context.order := by
  have hids := map_eq_of_forall₂ (mapM_ok_forall₂ h) (f := id) (g := Member.id)
    fun id _ member _ hget => ?_
  · rw [← hids, List.map_id]
  · simp only [PhysicalLowering.member, bind_eq_ok] at hget
    obtain ⟨_, -, _, -, _, -, hget⟩ := hget
    rw [← Except.ok.inj hget]
    rfl

end

section Cut

variable {context : PhysicalLowering} {members : List Member} {segments : List Segment}
  {regions : List CompiledNode}

/-- The segment of the region at one index. -/
theorem IsCut.region (h : IsCut context members segments regions) {r : Nat} {region : CompiledNode}
    (hr : regions[r]? = some region) :
    ∃ segment, segment.Chained context.graph ∧ RegionOf segment region := by
  obtain ⟨-, hchained, hregions⟩ := h
  obtain ⟨segment, hsegment, hregion⟩ := mapM_ok_source hregions r region hr
  exact ⟨segment, hchained segment (List.mem_of_getElem? hsegment), semanticRegion_ok hregion⟩

theorem mapM_semanticRegion_nodes {segments : List Segment} {regions : List CompiledNode}
    (h : segments.mapM semanticRegion = .ok regions) :
    regions.flatMap CompiledNode.semanticNodes =
      (segments.flatMap Segment.members).map Member.id := by
  have hnodes := map_eq_of_forall₂ (mapM_ok_forall₂ h) (g := CompiledNode.semanticNodes)
    fun segment _ region _ hregion => (semanticRegion_ok hregion).semanticNodes.symm
  rw [List.flatMap_def, ← hnodes, List.map_flatMap, List.flatMap_def]

/-- The regions run the nodes in the order. -/
theorem IsCut.semanticNodes (h : IsCut context members segments regions)
    (hmembers : members.map Member.id = context.order) :
    regions.flatMap CompiledNode.semanticNodes = context.order := by
  obtain ⟨hsplit, -, hregions⟩ := h
  rw [mapM_semanticRegion_nodes hregions, hsplit, hmembers]

end Cut

end Blut.GraphCore
