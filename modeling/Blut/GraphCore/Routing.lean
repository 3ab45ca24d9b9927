/-
  The routes between regions.

  `lowerGroups_ok` says what the groups of a candidate are: one for every output port that feeds
  another region, with one route per edge, which ends where the edge does. No two routes end at
  the same input (`Routed`).
-/
import Blut.GraphCore.Segments
import Blut.GraphCore.Conversions
import Blut.GraphCore.Emission

namespace Blut.GraphCore

open Blut.Lib

/-! ## Owners -/

variable {r budget budget' index : Nat} {layout : Layout} {kernel : KernelDescriptor}
  {request : ConversionRequest} {table : RegionTable} {output : PortDescriptor} {edge : Edge}
  {edges : List Edge} {groups : List PortGroup} {regions : List CompiledNode}

theorem regionOwners_eq_some (hnd : (regions.flatMap CompiledNode.semanticNodes).Nodup)
    {id : NodeId} :
    (regionOwners regions).get? id = some r ↔
      ∃ region, regions[r]? = some region ∧ id ∈ region.semanticNodes := by
  have hkeys : ((regions.zipIdx.flatMap fun entry =>
      entry.1.semanticNodes.map fun id => (id, entry.2)).map Prod.fst) =
      regions.flatMap CompiledNode.semanticNodes := by
    rw [List.map_flatMap]
    simp only [List.map_map]
    have hfst : regions.flatMap CompiledNode.semanticNodes =
        (regions.zipIdx.map Prod.fst).flatMap CompiledNode.semanticNodes := by
      rw [List.zipIdx_map_fst]
    rw [hfst, List.flatMap_map]
    congr
    funext entry
    simp [Function.comp_def]
  unfold regionOwners
  rw [BTreeMap.get?_ofList_eq_some (hkeys.symm ▸ hnd)]
  simp only [List.mem_flatMap, Prod.exists, List.mk_mem_zipIdx_iff_getElem?, List.mem_map,
    Prod.mk.injEq]
  constructor
  · rintro ⟨region, _, hregion, _, hmem, rfl, rfl⟩
    exact ⟨region, hregion, hmem⟩
  · rintro ⟨region, hregion, hmem⟩
    exact ⟨region, r, hregion, id, hmem, rfl, rfl⟩

/-- An edge between regions goes to a later one. -/
theorem owner_lt {arcs : List (NodeId × NodeId)}
    (hnd : (regions.flatMap CompiledNode.semanticNodes).Nodup)
    (htop : Topological arcs (regions.flatMap CompiledNode.semanticNodes)) {src dst : NodeId}
    {r' : Nat} (harc : (src, dst) ∈ arcs) (hsrc : (regionOwners regions).get? src = some r)
    (hdst : (regionOwners regions).get? dst = some r') (hne : r ≠ r') : r < r' := by
  obtain ⟨region', hregion', hmem'⟩ := (regionOwners_eq_some hnd).mp hdst
  obtain ⟨hlt, hget⟩ := List.getElem?_eq_some_iff.mp hregion'
  -- the order up to the target node
  obtain ⟨xs, ys, hxs⟩ := List.append_of_mem hmem'
  have hsplit : regions = regions.take r' ++ region' :: regions.drop (r' + 1) := by
    rw [← hget, List.getElem_cons_drop, List.take_append_drop]
  have horder : regions.flatMap CompiledNode.semanticNodes =
      ((regions.take r').flatMap CompiledNode.semanticNodes ++ xs) ++ dst ::
        (ys ++ (regions.drop (r' + 1)).flatMap CompiledNode.semanticNodes) := by
    conv_lhs => rw [hsplit]
    rw [List.flatMap_append, List.flatMap_cons, hxs]
    simp
  have hbefore := htop _ dst _ horder src harc
  rcases List.mem_append.mp hbefore with hearlier | hsame
  · obtain ⟨region, hregion, hmem⟩ := List.mem_flatMap.mp hearlier
    obtain ⟨i, hi⟩ := List.mem_iff_getElem?.mp hregion
    rw [List.getElem?_take] at hi
    split_ifs at hi with hlt'
    have hi' := (regionOwners_eq_some hnd).mpr ⟨region, hi, hmem⟩
    rw [Option.some.inj (hsrc.symm.trans hi')]
    exact hlt'
  · have hmem : src ∈ region'.semanticNodes := by
      rw [hxs]
      exact List.mem_append_left _ hsame
    have hsame' := (regionOwners_eq_some hnd).mpr ⟨region', hregion', hmem⟩
    exact absurd (Option.some.inj (hsrc.symm.trans hsame')) hne

/-! ## Routes and groups -/

variable {grouped : List (PortRef × List Edge)}

/-- A port of the graph: the region that runs its node, and the port's index. -/
structure PortOf (table : RegionTable) (ports : NodeDescriptor → List PortDescriptor)
    (port : PortRef) (region index : Nat) : Prop where
  node : ∃ node, table.context.descriptors.get? port.node = some node ∧
    (ports node).findIdx? (fun p => p.name = port.port) = some index
  owner : ∃ step, table.owner.get? port.node = some region ∧ table.regions[region]? = some step

theorem kernelOf_ok {node : NodeId} (h : table.kernelOf node = .ok (index, kernel)) :
    ∃ step, table.owner.get? node = some index ∧ table.regions[index]? = some step := by
  simp only [RegionTable.kernelOf, bind_eq_ok, BTreeMap.index_eq_ok, expect_eq_ok, pure_eq_ok,
    Except.ok.injEq, Prod.mk.injEq] at h
  obtain ⟨i, hi, step, hstep, -, -, rfl, -⟩ := h
  exact ⟨step, hi, hstep⟩

/-- The route of an edge ends at the port that the edge ends at. -/
def RouteOf (table : RegionTable) (edge : Edge) (route : Route) : Prop :=
  PortOf table NodeDescriptor.inputs edge.dst route.consumerRegion route.inputIndex

theorem routeEdge_ok {route : Route}
    (h : routeEdge table output layout budget edge = .ok (some route, budget')) :
    RouteOf table edge route := by
  simp only [routeEdge, bind_eq_ok, Prod.exists, BTreeMap.index_eq_ok, okOr_eq_ok,
    expect_eq_ok] at h
  obtain ⟨consumer, hconsumer, inputIndex, hindex, -, -, region, kernel, hkernel, path, left, -,
    h⟩ := h
  have hroute := (Prod.mk.inj (Except.ok.inj h)).1
  obtain ⟨found, -, hroute⟩ := Option.map_eq_some_iff.mp hroute
  rw [← hroute]
  exact ⟨⟨consumer, hconsumer, hindex⟩, kernelOf_ok hkernel⟩

theorem routeEdges_ok {routing routing' : Routing}
    (h : routeEdges table output edges routing budget = .ok (some routing', budget')) :
    ∃ routes, routing'.routes = routing.routes ++ routes ∧
      List.Forall₂ (RouteOf table) edges routes := by
  induction edges generalizing routing budget with
  | nil =>
    rw [routeEdges] at h
    have hsame := Option.some.inj (Prod.mk.inj (Except.ok.inj h)).1
    rw [← hsame]
    exact ⟨[], by simp, List.Forall₂.nil⟩
  | cons edge edges ih =>
    rw [routeEdges] at h
    obtain ⟨⟨route, left⟩, hroute, h⟩ := bind_eq_ok.mp h
    cases route with
    | none =>
      have hnone := (Prod.mk.inj (Except.ok.inj h)).1
      exact absurd hnone (by simp)
    | some route =>
      obtain ⟨conversions, -, h⟩ := bind_eq_ok.mp h
      obtain ⟨workspace, -, h⟩ := bind_eq_ok.mp h
      obtain ⟨routes, hroutes, hall⟩ := ih h
      refine ⟨route :: routes, ?_, List.Forall₂.cons (routeEdge_ok hroute) hall⟩
      rw [hroutes]
      simp

/-- The buffers of one output port, as `lower_semantic_regions` groups its edges. -/
structure GroupOf (table : RegionTable) (port : PortRef) (edges : List Edge) (group : PortGroup) :
    Prop where
  source : group.source = port
  output : PortOf table NodeDescriptor.outputs port group.producerRegion group.outputIndex
  routes : List.Forall₂ (RouteOf table) (sortBy Edge.dst edges) group.routes

theorem lowerGroup_ok {source : PortRef} {group : PortGroup}
    (h : lowerGroup table budget source edges = .ok (group, budget')) :
    GroupOf table source edges group := by
  simp only [lowerGroup, bind_eq_ok, Prod.exists, BTreeMap.index_eq_ok, okOr_eq_ok, expect_eq_ok,
    reject_eq_ok] at h
  obtain ⟨producer, hproducer, outputIndex, hindex, output, -, _, -, region, kernel, hkernel, best,
    left, hbest, routing, hrouting, h⟩ := h
  have hgroup := (Prod.mk.inj (Except.ok.inj h)).1
  -- the best routing so far has a route for every edge
  have hinv := foldlM_inv (fun state : Option Routing × Nat => ∀ routing, state.1 = some routing →
      List.Forall₂ (RouteOf table) (sortBy Edge.dst edges) routing.routes)
    (sharedLayouts output kernel.outputLayouts) (by
    intro state layout state' _ hstate hstep
    unfold tryLayout at hstep
    obtain ⟨⟨tried, left'⟩, htried, hstep⟩ := bind_eq_ok.mp hstep
    rw [← Except.ok.inj hstep]
    intro found hfound
    cases tried with
    | none => exact hstate found hfound
    | some tried =>
      obtain ⟨routes, hroutes, hnew⟩ := routeEdges_ok htried
      rw [← List.nil_append routes, ← hroutes] at hnew
      cases hold : state.1 with
      | none =>
        simp only [hold, Option.some_inj] at hfound
        rw [← hfound]
        exact hnew
      | some old =>
        simp only [hold] at hfound
        split_ifs at hfound
        · rw [← Option.some.inj hfound]
          exact hnew
        · exact hstate found (hold.trans hfound)) (by simp) hbest
  rw [← hgroup]
  exact ⟨rfl, ⟨⟨producer, hproducer, hindex⟩, kernelOf_ok hkernel⟩, hinv routing hrouting⟩

theorem lowerGroups_ok (h : lowerGroups table grouped budget = .ok groups) :
    List.Forall₂ (fun entry group => GroupOf table entry.1 entry.2 group) grouped groups := by
  unfold lowerGroups at h
  obtain ⟨⟨found, left⟩, hfold, h⟩ := bind_eq_ok.mp h
  rw [← Except.ok.inj h]
  exact foldlM_prefix_inv (fun done (state : List PortGroup × Nat) =>
      List.Forall₂ (fun entry group => GroupOf table entry.1 entry.2 group) done state.1) grouped
        (by
    intro done entry rest state state' _ hinv hstep
    obtain ⟨⟨group, left'⟩, hgroup, hstep⟩ := bind_eq_ok.mp hstep
    rw [← Except.ok.inj hstep]
    exact List.rel_append hinv (List.Forall₂.cons (lowerGroup_ok hgroup) List.Forall₂.nil))
    List.Forall₂.nil hfold

/-! ## Sites

A port of the graph that a step exposes is known by the region and the index of the port. -/

/-- The port at an index of a region, on its first or its last node. -/
def Site (table : RegionTable) (node? : List NodeId → Option NodeId)
    (ports : NodeDescriptor → List PortDescriptor) (port : PortRef) (site : Nat × Nat) : Prop :=
  ∃ step node, table.regions[site.1]? = some step ∧ node? step.semanticNodes = some port.node ∧
    table.context.descriptors.get? port.node = some node ∧
    (ports node).findIdx? (fun p => p.name = port.port) = some site.2

abbrev InputSite (table : RegionTable) := Site table List.head? NodeDescriptor.inputs

abbrev OutputSite (table : RegionTable) := Site table List.getLast? NodeDescriptor.outputs

theorem findIdx?_name {ports : List PortDescriptor} {name : String}
    (h : ports.findIdx? (fun p => p.name = name) = some index) :
    ∃ port, ports[index]? = some port ∧ port.name = name := by
  obtain ⟨hlt, hname, -⟩ := List.findIdx?_eq_some_iff_getElem.mp h
  exact ⟨ports[index], List.getElem?_eq_getElem hlt, by simpa using hname⟩

theorem Site.port_eq {node? : List NodeId → Option NodeId}
    {ports : NodeDescriptor → List PortDescriptor} {port port' : PortRef} {site : Nat × Nat}
    (h : Site table node? ports port site) (h' : Site table node? ports port' site) :
    port = port' := by
  obtain ⟨step, node, hstep, hport, hnode, hindex⟩ := h
  obtain ⟨step', node', hstep', hport', hnode', hindex'⟩ := h'
  cases hstep.symm.trans hstep'
  have hid : port.node = port'.node := Option.some.inj (hport.symm.trans hport')
  rw [hid] at hnode
  cases hnode.symm.trans hnode'
  obtain ⟨found, hfound, hname⟩ := findIdx?_name hindex
  obtain ⟨found', hfound', hname'⟩ := findIdx?_name hindex'
  cases hfound.symm.trans hfound'
  cases port
  cases port'
  simp_all

variable {context : PhysicalLowering} {members : List Member} {segments : List Segment}

section Crossing

variable {step : CompiledNode}

/-- The table of a candidate. -/
def regionTable (context : PhysicalLowering) (regions : List CompiledNode) : RegionTable :=
  { context := context, regions := regions, owner := regionOwners regions }

variable (hcut : IsCut context members segments regions)
  (hmembers : members.map Member.id = context.order) (hchecked : context.Checked)
include hcut hmembers hchecked

theorem IsCut.nodes_nodup :
    (regions.flatMap CompiledNode.semanticNodes).Nodup := by
  rw [hcut.semanticNodes hmembers]
  exact hchecked.order_nodup

variable (hedge : edge ∈ context.graph.edges)
include hedge

theorem crossing_forward {r' : Nat}
    (hsrc : (regionOwners regions).get? edge.src.node = some r)
    (hdst : (regionOwners regions).get? edge.dst.node = some r') (hne : r ≠ r') : r < r' := by
  have htop := hchecked.topological
  rw [← hcut.semanticNodes hmembers] at htop
  exact owner_lt (hcut.nodes_nodup hmembers hchecked) htop
    (List.mem_map.mpr ⟨edge, hedge, rfl⟩) hsrc hdst hne

omit hedge in
/-- The segment of a region with one node, of which another is not one. -/
theorem crossing_segment {id other : NodeId} (howner : (regionOwners regions).get? id = some r)
    (hstep : regions[r]? = some step)
    (hother : (regionOwners regions).get? other ≠ (regionOwners regions).get? id) :
    ∃ segment : Segment, segment.Chained context.graph ∧
      step.semanticNodes = segment.members.map Member.id ∧ id ∈ segment.members.map Member.id ∧
      other ∉ segment.members.map Member.id := by
  have howners := fun {id : NodeId} {r : Nat} =>
    @regionOwners_eq_some r regions (hcut.nodes_nodup hmembers hchecked) id
  obtain ⟨segment, hchained, hof⟩ := hcut.region hstep
  obtain ⟨step', hstep', hmem⟩ := howners.mp howner
  cases hstep.symm.trans hstep'
  refine ⟨segment, hchained, hof.semanticNodes, ?_⟩
  rw [← hof.semanticNodes]
  exact ⟨hmem, fun hin => hother ((howners.mpr ⟨step, hstep, hin⟩).trans howner.symm)⟩

variable
  (hcross : (regionOwners regions).get? edge.src.node ≠ (regionOwners regions).get? edge.dst.node)
include hcross

theorem crossing_enters (howner : (regionOwners regions).get? edge.dst.node = some r)
    (hstep : regions[r]? = some step) : step.semanticNodes.head? = some edge.dst.node := by
  obtain ⟨segment, hchained, hnodes, hmem, hout⟩ :=
    crossing_segment hcut hmembers hchecked howner hstep hcross
  rw [hnodes, List.head?_map]
  exact chain_enters hchained hedge hmem hout

theorem crossing_leaves (howner : (regionOwners regions).get? edge.src.node = some r)
    (hstep : regions[r]? = some step) : step.semanticNodes.getLast? = some edge.src.node := by
  obtain ⟨segment, hchained, hnodes, hmem, hout⟩ :=
    crossing_segment hcut hmembers hchecked howner hstep hcross.symm
  rw [hnodes, List.getLast?_map]
  exact chain_leaves hchained hedge hmem hout

end Crossing

/-! ## Edges and routes -/

variable {crossing : List Edge}

/-- The edge that a route serves. -/
structure JobOf (table : RegionTable) (edge : Edge) (job : Job) : Prop where
  source : edge.src = job.group.source
  group : ∃ edges, GroupOf table job.group.source edges job.group
  route : RouteOf table edge job.route

/-- The routes of the groups serve the grouped edges, one each. -/
theorem forall₂_jobs (hkey : ∀ entry ∈ grouped, ∀ edge ∈ entry.2, edge.src = entry.1)
    (h : List.Forall₂ (fun entry group => GroupOf table entry.1 entry.2 group) grouped groups) :
    List.Forall₂ (JobOf table) (grouped.flatMap fun entry => sortBy Edge.dst entry.2)
      (allJobs groups) := by
  -- the groups may be numbered from anywhere
  have hfrom : ∀ k, List.Forall₂ (JobOf table)
      (grouped.flatMap fun entry => sortBy Edge.dst entry.2)
      ((groups.zipIdx k).flatMap fun group => group.1.routes.zipIdx.map fun route =>
        { groupIndex := group.2, group := group.1, routeIndex := route.2, route := route.1 }) := by
    induction h with
    | nil => exact fun k => List.Forall₂.nil
    | @cons entry group grouped groups hgroup _ ih =>
      intro k
      rw [List.flatMap_cons, List.zipIdx_cons, List.flatMap_cons]
      refine List.rel_append ?_ (ih (fun e he => hkey e (List.mem_cons_of_mem _ he)) (k + 1))
      have hsrc : ∀ edge ∈ sortBy Edge.dst entry.2, edge.src = entry.1 :=
        fun edge hedge => hkey entry List.mem_cons_self edge (mem_sortBy.mp hedge)
      have hroutes := (List.forall₂_and_left _ _).mpr ⟨hsrc, forall₂_zipIdx hgroup.routes 0⟩
      have hsource := hgroup.source
      rw [List.forall₂_map_right_iff]
      refine hroutes.imp fun edge route hroute =>
        ⟨hroute.1.trans hsource.symm, ⟨entry.2, ?_⟩, hroute.2⟩
      show GroupOf table group.source entry.2 group
      rw [hsource]
      exact hgroup
  exact hfrom 0

theorem crossingEdges_ok {owner : BTreeMap NodeId Nat}
    (h : crossingEdges owner edges = .ok crossing) :
    crossing = edges.filter fun edge => owner.get? edge.src.node ≠ owner.get? edge.dst.node := by
  obtain ⟨u, -, h⟩ := bind_eq_ok.mp h
  exact (Except.ok.inj h).symm

/-- The groups of a candidate: every output port that feeds another region has one, every edge
    between regions has one route, and no two of them share a port. -/
structure Routed (context : PhysicalLowering) (regions : List CompiledNode)
    (groups : List PortGroup) : Prop where
  group : ∀ group ∈ groups,
    OutputSite (regionTable context regions) group.source (group.producerRegion, group.outputIndex)
  job : ∀ job ∈ allJobs groups, ∃ edge ∈ context.graph.edges,
    InputSite (regionTable context regions) edge.dst
      (job.route.consumerRegion, job.route.inputIndex) ∧
    job.group.producerRegion < job.route.consumerRegion
  inputs_nodup : ((allJobs groups).map fun job =>
    (job.route.consumerRegion, job.route.inputIndex)).Nodup
  outputs_nodup : (groups.map fun group => (group.producerRegion, group.outputIndex)).Nodup

section Candidate

theorem PhysicalLowering.Checked.dsts_nodup (h : context.Checked) :
    (context.graph.edges.map Edge.dst).Nodup := by
  have hnd := h.verified.bindings_nodup
  unfold Graph.bindings at hnd
  rw [List.nodup_append, List.nodup_append] at hnd
  exact hnd.1.1

variable (hcut : IsCut context members segments regions)
  (hmembers : members.map Member.id = context.order) (hchecked : context.Checked)
include hcut hmembers hchecked

section Sites

variable (hedge : edge ∈ context.graph.edges)
include hedge
variable
  (hcross : (regionOwners regions).get? edge.src.node ≠ (regionOwners regions).get? edge.dst.node)
include hcross

theorem PortOf.inputSite {region : Nat}
    (h : PortOf (regionTable context regions) NodeDescriptor.inputs edge.dst region index) :
    InputSite (regionTable context regions) edge.dst (region, index) := by
  obtain ⟨node, hnode, hindex⟩ := h.node
  obtain ⟨step, howner, hstep⟩ := h.owner
  exact ⟨step, node, hstep, crossing_enters hcut hmembers hchecked hedge hcross howner hstep, hnode,
    hindex⟩

theorem PortOf.outputSite {region : Nat}
    (h : PortOf (regionTable context regions) NodeDescriptor.outputs edge.src region index) :
    OutputSite (regionTable context regions) edge.src (region, index) := by
  obtain ⟨node, hnode, hindex⟩ := h.node
  obtain ⟨step, howner, hstep⟩ := h.owner
  exact ⟨step, node, hstep, crossing_leaves hcut hmembers hchecked hedge hcross howner hstep, hnode,
    hindex⟩

end Sites

theorem routed_of_ok
    (hcrossing : crossingEdges (regionOwners regions) context.graph.edges = .ok crossing)
    (hgroups : lowerGroups (regionTable context regions)
      (BTreeMap.groupOn Edge.src crossing).entries budget = .ok groups) :
    Routed context regions groups := by
  have hfilter := crossingEdges_ok hcrossing
  have hmem : ∀ edge, edge ∈ crossing ↔ edge ∈ context.graph.edges ∧
      (regionOwners regions).get? edge.src.node ≠ (regionOwners regions).get? edge.dst.node := by
    intro edge
    rw [hfilter, List.mem_filter, decide_eq_true_eq]
  have hdsts : (crossing.map Edge.dst).Nodup := by
    rw [hfilter]
    exact hchecked.dsts_nodup.sublist (List.filter_sublist.map Edge.dst)
  have hentries : ∀ entry ∈ (BTreeMap.groupOn Edge.src crossing).entries,
      (∀ edge ∈ entry.2, edge ∈ crossing ∧ edge.src = entry.1) ∧ entry.2 ≠ [] := fun entry hentry =>
    BTreeMap.groupOn_entry hentry
  have hall := lowerGroups_ok hgroups
  have hjobs :=
    forall₂_jobs (fun entry hentry edge hedge => ((hentries entry hentry).1 edge hedge).2) hall
  have hperm := BTreeMap.groupOn_flatMap_perm Edge.src (List.Nodup.of_map Edge.dst hdsts)
    (sortBy_perm Edge.dst)
  -- the site of every group, from one of its edges
  have hsite : ∀ entry ∈ (BTreeMap.groupOn Edge.src crossing).entries, ∀ group,
      GroupOf (regionTable context regions) entry.1 entry.2 group →
      OutputSite (regionTable context regions) entry.1
        (group.producerRegion, group.outputIndex) := by
    intro entry hentry group hgroup
    obtain ⟨edge, hedge⟩ := List.exists_mem_of_ne_nil _ (hentries entry hentry).2
    obtain ⟨hin, hsrc⟩ := (hentries entry hentry).1 edge hedge
    obtain ⟨hgraph, hcross⟩ := (hmem edge).mp hin
    have hport := hgroup.output
    rw [← hsrc] at hport ⊢
    exact hport.outputSite hcut hmembers hchecked hgraph hcross
  have hjob : ∀ edge job, edge ∈ crossing → JobOf (regionTable context regions) edge job →
      InputSite (regionTable context regions) edge.dst
        (job.route.consumerRegion, job.route.inputIndex) ∧
        job.group.producerRegion < job.route.consumerRegion := by
    intro edge job hedge hof
    obtain ⟨hgraph, hcross⟩ := (hmem edge).mp hedge
    obtain ⟨edges, hgroup⟩ := hof.group
    obtain ⟨step, howner, -⟩ := hof.route.owner
    obtain ⟨step', howner', -⟩ := hgroup.output.owner
    rw [← hof.source] at howner'
    refine ⟨hof.route.inputSite hcut hmembers hchecked hgraph hcross, ?_⟩
    refine crossing_forward hcut hmembers hchecked hgraph howner' howner fun heq => hcross ?_
    exact howner'.trans ((congrArg some heq).trans howner.symm)
  refine ⟨fun group hgroup => ?_, fun job hmemJob => ?_, ?_, ?_⟩
  · obtain ⟨entry, hentry, hof⟩ := exists_left_of_forall₂ hall hgroup
    rw [hof.source]
    exact hsite entry hentry group hof
  · obtain ⟨edge, hedge, hof⟩ := exists_left_of_forall₂ hjobs hmemJob
    have hin := hperm.mem_iff.mp hedge
    exact ⟨edge, ((hmem edge).mp hin).1, hjob edge job hin hof⟩
  · refine nodup_map_of_forall₂ hjobs (f := Edge.dst) ((hperm.map Edge.dst).nodup_iff.mpr hdsts) ?_
    intro edge job edge' job' hedge hedge' hof hof' heq
    have hin := (hjob edge job (hperm.mem_iff.mp hedge) hof).1
    have hin' := (hjob edge' job' (hperm.mem_iff.mp hedge') hof').1
    rw [← heq] at hin'
    exact hin.port_eq hin'
  · refine nodup_map_of_forall₂ hall (f := Prod.fst)
      (BTreeMap.groupOn Edge.src crossing).nodup_keys ?_
    intro entry group entry' group' hentry hentry' hof hof' heq
    have hout := hsite entry hentry group hof
    have hout' := hsite entry' hentry' group' hof'
    rw [← heq] at hout'
    exact hout.port_eq hout'

end Candidate

end Blut.GraphCore
