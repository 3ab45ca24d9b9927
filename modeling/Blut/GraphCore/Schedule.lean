/-
  The wired steps of a candidate.

  Every region and every conversion of a route has its own step, and the wires go from earlier to
  later steps (`Laid`). So no two wires write one location, and the bound steps and the buffer
  table are exactly the netlist of the groups: `wireRegions_netlist`.
-/
import Blut.GraphCore.Netlist

namespace Blut.GraphCore

open Blut.Lib

/-! ## Where the steps are -/

/-- Every region and every conversion of a route has a step of its own, and a route runs between
    the regions before its consumer and the consumer. -/
structure Laid (regions : List CompiledNode) (groups : List PortGroup)
    (emission : Emission) : Prop where
  ids : ∀ (s : Nat) (node : CompiledNode), emission.nodes[s]? = some node → node.id = s
  unwired : ∀ node ∈ emission.nodes, node.Unwired
  semantic : ∀ r < regions.length, emission.semanticSteps[r]? = some (emission.stepAt r)
  ascending : ∀ r r' : Nat, r < r' → r' < regions.length → emission.stepAt r < emission.stepAt r'
  placed : ∀ job ∈ allJobs groups, Placed emission emission.nodes job
  before : ∀ job ∈ allJobs groups, ∀ s ∈ convSteps emission job,
    s < emission.stepAt job.route.consumerRegion
  after : ∀ job ∈ allJobs groups, ∀ r : Nat, r < job.route.consumerRegion →
    ∀ s ∈ convSteps emission job, emission.stepAt r < s
  disjoint : ∀ job ∈ allJobs groups, ∀ job' ∈ allJobs groups, ∀ s ∈ convSteps emission job,
    s ∈ convSteps emission job' → job = job'

variable {r : Nat}

section

variable {regions : List CompiledNode} {groups : List PortGroup} {emission : Emission}

theorem laid_of_emitted
    (hconsumers : ∀ job ∈ allJobs groups, job.route.consumerRegion < regions.length)
    (h : Emitted regions.length
      (fun job => job ∈ allJobs groups ∧ job.route.consumerRegion < regions.length) emission) :
    Laid regions groups emission := by
  have hstep : ∀ r < regions.length, emission.semanticSteps[r]? = some (emission.stepAt r) := by
    intro r hr
    have hget := List.getElem?_eq_getElem (hr.trans_eq h.length.symm)
    rw [Emission.stepAt_eq hget, hget]
  have hroute : ∀ job ∈ allJobs groups, RouteAt emission job := fun job hjob =>
    h.route job ⟨hjob, hconsumers job hjob⟩
  refine ⟨h.ids, h.unwired, hstep, fun r r' hlt hr' => ?_, fun job hjob => ?_,
    fun job hjob s hs => ?_, fun job hjob r hr s hs => ?_, fun job hjob job' hjob' s hs hs' => ?_⟩
  · obtain ⟨hi, hget⟩ := List.getElem?_eq_some_iff.mp (hstep r (hlt.trans hr'))
    obtain ⟨hi', hget'⟩ := List.getElem?_eq_some_iff.mp (hstep r' hr')
    rw [← hget, ← hget']
    exact List.pairwise_iff_getElem.mp h.sorted r r' hi hi' hlt
  · exact ⟨(hroute job hjob).steps, (hroute job hjob).converts, hstep _ (hconsumers job hjob)⟩
  · exact (hroute job hjob).before s hs _ (hstep _ (hconsumers job hjob))
  · exact (hroute job hjob).after s hs r _ hr (hstep r (hr.trans (hconsumers job hjob)))
  · exact job_eq_of_key hjob hjob'
      (h.disjoint _ _ _ _ (hroute job hjob).steps (hroute job' hjob').steps s hs hs')

theorem Laid.stepAt_inj (h : Laid regions groups emission) {r' : Nat} (hr : r < regions.length)
    (hr' : r' < regions.length) (heq : emission.stepAt r = emission.stepAt r') : r = r' := by
  by_contra hne
  rcases Nat.lt_or_gt_of_ne hne with hlt | hgt
  · exact (h.ascending r r' hlt hr').ne heq
  · exact (h.ascending r' r hgt hr).ne' heq

/-- No conversion runs at the step of a region. -/
theorem Laid.conv_ne_stepAt (h : Laid regions groups emission) {job : Job}
    (hjob : job ∈ allJobs groups) {s : Nat} (hs : s ∈ convSteps emission job)
    (hr : r < regions.length) : s ≠ emission.stepAt r := by
  intro heq
  rcases Nat.lt_or_ge r job.route.consumerRegion with hlt | hge
  · exact absurd heq.symm (Nat.ne_of_lt (h.after job hjob r hlt s hs))
  · have hbefore := h.before job hjob s hs
    rcases Nat.eq_or_lt_of_le hge with hsame | hgt
    · rw [hsame] at hbefore
      exact absurd heq (Nat.ne_of_lt hbefore)
    · exact absurd heq (Nat.ne_of_lt (hbefore.trans (h.ascending _ r hgt hr)))

/-! ## The locations of the wires -/

/-- All inputs that a route writes: those of its conversions, and its consumer. -/
def jobDsts (emission : Emission) (job : Job) : List Location :=
  (convSteps emission job).map (fun s => (s, 0)) ++ [emission.consumer job.route]

theorem pathWires_dsts (consumer : Location) (path : List LayoutConversion)
    (step : StepId) :
    routeEntry consumer path step :: (pathWires consumer path step).flatMap Wire.dsts =
      (List.range' step path.length).map (fun s => (s, 0)) ++ [consumer] := by
  induction path generalizing step with
  | nil => rfl
  | cons conversion path ih =>
    rw [List.length_cons, List.range'_succ]
    exact congrArg (List.cons (step, 0)) (ih (step + 1))

theorem pathWires_srcs (consumer : Location) (path : List LayoutConversion)
    (step : StepId) :
    (pathWires consumer path step).map Wire.src =
      (List.range' step path.length).map fun s => (s, 0) := by
  induction path generalizing step with
  | nil => rfl
  | cons conversion path ih =>
    rw [pathWires, List.map_cons, List.length_cons, List.range'_succ, List.map_cons, ih]

theorem convLocations_nodup (emission : Emission) (job : Job) :
    ((convSteps emission job).map fun s => ((s, 0) : Location)).Nodup := by
  have hnd : (convSteps emission job).Nodup := List.nodup_range'
  exact hnd.map fun a b hab => congrArg Prod.fst hab

theorem jobWires_dsts (emission : Emission) (job : Job) :
    jobEntry emission job :: (jobWires emission job).flatMap Wire.dsts = jobDsts emission job :=
  pathWires_dsts _ _ _

theorem jobWires_srcs (emission : Emission) (job : Job) :
    (jobWires emission job).map Wire.src = (convSteps emission job).map fun s => (s, 0) :=
  pathWires_srcs _ _ _

theorem groupWires_dsts (emission : Emission) (group : PortGroup × Nat) :
    ((groupWires emission group).flatMap Wire.dsts).Perm
      ((groupJobs group).flatMap (jobDsts emission)) := by
  have hjobs : (groupJobs group).flatMap (jobDsts emission) = (groupJobs group).flatMap fun job =>
      jobEntry emission job :: (jobWires emission job).flatMap Wire.dsts := by
    simp only [jobWires_dsts]
  rw [hjobs, groupWires, List.flatMap_cons, List.flatMap_assoc]
  exact List.map_append_flatMap_perm _ _ _

theorem allWires_dsts (emission : Emission) (groups : List PortGroup) :
    ((allWires emission groups).flatMap Wire.dsts).Perm
      ((allJobs groups).flatMap (jobDsts emission)) := by
  rw [allWires, allJobs_eq, List.flatMap_assoc, List.flatMap_assoc]
  exact List.Perm.flatMap_left _ fun group _ => groupWires_dsts emission group

theorem allWires_srcs (emission : Emission) (groups : List PortGroup) :
    ((allWires emission groups).map Wire.src).Perm
      (groups.map (fun group => (emission.stepAt group.producerRegion, group.outputIndex)) ++
        (allJobs groups).flatMap fun job => (convSteps emission job).map fun s => (s, 0)) := by
  have hsources : groups.map
      (fun group => (emission.stepAt group.producerRegion, group.outputIndex)) =
      groups.zipIdx.map fun group => (sourceWire emission group).src := by
    have hfst : groups = groups.zipIdx.map Prod.fst := by rw [List.zipIdx_map_fst]
    conv_lhs => rw [hfst]
    rw [List.map_map]
    rfl
  rw [hsources, allJobs_eq, List.flatMap_assoc, allWires, List.map_flatMap]
  refine List.Perm.trans ?_ (List.map_append_flatMap_perm _ _ _).symm
  refine List.Perm.flatMap_left _ fun group _ => ?_
  rw [groupWires, List.map_cons, List.map_flatMap]
  simp only [jobWires_srcs]
  exact List.Perm.refl _

section

variable (h : Laid regions groups emission)
include h

/-- Sites of the regions are apart as steps, and apart from the conversions. -/
theorem Laid.sites_nodup {sites : List (Nat × Nat)} (hlt : ∀ site ∈ sites, site.1 < regions.length)
    (hnd : sites.Nodup) :
    (sites.map (fun site : Nat × Nat => ((emission.stepAt site.1, site.2) : Location)) ++
      (allJobs groups).flatMap fun job => (convSteps emission job).map fun s => (s, 0)).Nodup := by
  refine List.nodup_append'.mpr ⟨List.Nodup.map_on ?_ hnd, List.nodup_flatMap.mpr
    ⟨fun job _ => convLocations_nodup emission job, ?_⟩, ?_⟩
  · intro site hsite site' hsite' heq
    obtain ⟨hstep, hindex⟩ := Prod.mk.inj heq
    exact Prod.ext (h.stepAt_inj (hlt site hsite) (hlt site' hsite') hstep) hindex
  · refine (allJobs_nodup groups).imp_of_mem fun {job job'} hjob hjob' hne loc hmem hmem' => ?_
    obtain ⟨s, hs, rfl⟩ := List.mem_map.mp hmem
    obtain ⟨s', hs', heq⟩ := List.mem_map.mp hmem'
    have hss : s' = s := congrArg Prod.fst heq
    rw [hss] at hs'
    exact hne (h.disjoint job hjob job' hjob' s hs hs')
  · intro loc hloc hconv
    obtain ⟨site, hsite, rfl⟩ := List.mem_map.mp hloc
    obtain ⟨job, hjob, hmem⟩ := List.mem_flatMap.mp hconv
    obtain ⟨s, hs, hloc⟩ := List.mem_map.mp hmem
    exact h.conv_ne_stepAt hjob hs (hlt site hsite) (congrArg Prod.fst hloc)

theorem Laid.jobDsts_nodup
    (hconsumers : ∀ job ∈ allJobs groups, job.route.consumerRegion < regions.length)
    (hinputs : ((allJobs groups).map fun job =>
      (job.route.consumerRegion, job.route.inputIndex)).Nodup) :
    ((allJobs groups).flatMap (jobDsts emission)).Nodup := by
  have hsites := h.sites_nodup (List.forall_mem_map.mpr hconsumers) hinputs
  rw [List.map_map, List.map_eq_flatMap] at hsites
  exact (List.perm_append_comm.trans (List.flatMap_append_perm _ _ _)).nodup_iff.mp hsites

theorem Laid.srcs_nodup (hproducers : ∀ group ∈ groups, group.producerRegion < regions.length)
    (houtputs : (groups.map fun group => (group.producerRegion, group.outputIndex)).Nodup) :
    ((allWires emission groups).map Wire.src).Nodup := by
  have hsites := h.sites_nodup (List.forall_mem_map.mpr hproducers) houtputs
  rw [List.map_map] at hsites
  exact (allWires_srcs emission groups).nodup_iff.mpr hsites

end

/-! ## The netlist -/

variable {nodes : List CompiledNode}

/-- The steps `emitted`, bound to the given wires and invocation ports and to nothing else. -/
structure Netlist (emitted : List CompiledNode) (invocations : List Location) (wires : List Wire)
    (wiring : Wiring) : Prop where
  buffers : wiring.buffers = wirePlans wires 0
  frame : wiring.nodes.map CompiledNode.unbound = emitted.map CompiledNode.unbound
  buffer : ∀ loc b, inputAt wiring.nodes loc = some (.buffer b) ↔
    ∃ w, wires[b]? = some w ∧ loc ∈ w.dsts
  invocation : ∀ loc k, inputAt wiring.nodes loc = some (.invocation k) ↔ invocations[k]? = some loc
  output : ∀ loc b, outputAt wiring.nodes loc = some (.buffer b) ↔
    ∃ w, wires[b]? = some w ∧ w.src = loc

/-- Wires that are written once each make a netlist of the steps. -/
theorem netlist_of_written {emitted : List CompiledNode} {locs : List Location} {wires : List Wire}
    {wiring : Wiring} (hins : ∀ loc binding, inputAt emitted loc = some binding → binding = .absent)
    (houts : ∀ loc binding, outputAt emitted loc = some binding → binding = .terminal)
    (hdsts : (locs ++ wires.flatMap Wire.dsts).Nodup) (hsrcs : (wires.map Wire.src).Nodup)
    (hinvocations : Written (invocationIns locs 0) [] emitted nodes)
    (hbound : Bound [] wires { nodes := nodes, buffers := [] } wiring) :
    Netlist emitted locs wires wiring := by
  obtain ⟨ins, outs, hinsPerm, houtsPerm, hw⟩ := hbound.written
  have hwritten := hinvocations.trans hw
  have hbuffers := hbound.buffers
  rw [List.nil_append] at hbuffers
  -- no location is written twice
  have hinKeys : ((invocationIns locs 0 ++ ins).map Prod.fst).Nodup := by
    rw [List.map_append, invocationIns_keys]
    refine ((hinsPerm.map Prod.fst).append_left locs).nodup_iff.mpr ?_
    rw [List.nil_append, wireIns_keys]
    exact hdsts
  have houtKeys : (([] ++ outs).map Prod.fst).Nodup := by
    refine (houtsPerm.map Prod.fst).nodup_iff.mpr ?_
    rw [wireOuts_keys]
    exact hsrcs
  have hmem : ∀ loc binding, (loc, binding) ∈ invocationIns locs 0 ++ ins ↔
      (∃ k, binding = .invocation k ∧ locs[k]? = some loc) ∨
        ∃ b w, binding = .buffer b ∧ wires[b]? = some w ∧ loc ∈ w.dsts := by
    intro loc binding
    have hperm : (loc, binding) ∈ ins ↔ (loc, binding) ∈ wireIns wires 0 := hinsPerm.mem_iff
    rw [List.mem_append, mem_invocationIns, hperm, mem_wireIns]
  have hinput : ∀ loc binding, binding ≠ .absent → (inputAt wiring.nodes loc = some binding ↔
      (∃ k, binding = .invocation k ∧ locs[k]? = some loc) ∨
        ∃ b w, binding = .buffer b ∧ wires[b]? = some w ∧ loc ∈ w.dsts) := by
    intro loc binding hne
    rw [hwritten.input, writeAll_eq_some hinKeys, hmem]
    exact or_iff_left fun hstart => hne (hins loc binding hstart.2)
  refine ⟨hbuffers, hwritten.frame, fun loc b => ?_, fun loc k => ?_, fun loc b => ?_⟩
  · rw [hinput loc (.buffer b) (by simp)]
    simp
  · rw [hinput loc (.invocation k) (by simp)]
    simp
  · have hperm : (loc, OutputBinding.buffer b) ∈ [] ++ outs ↔ (loc, .buffer b) ∈ wireOuts wires 0 :=
      houtsPerm.mem_iff
    rw [hwritten.output, writeAll_eq_some houtKeys, hperm, mem_wireOuts,
      or_iff_left fun hstart => absurd (houts loc _ hstart.2) (by simp)]
    simp

/-! ## The wired candidate -/

theorem Laid.inputAt_absent (h : Laid regions groups emission) (loc : Location)
    (binding : InputBinding) (hloc : inputAt emission.nodes loc = some binding) :
    binding = .absent := by
  obtain ⟨node, hnode, hbinding⟩ := Option.bind_eq_some_iff.mp hloc
  exact (h.unwired node (List.mem_of_getElem? hnode)).inputs _ (List.mem_of_getElem? hbinding)

theorem Laid.outputAt_terminal (h : Laid regions groups emission) (loc : Location)
    (binding : OutputBinding) (hloc : outputAt emission.nodes loc = some binding) :
    binding = .terminal := by
  obtain ⟨node, hnode, hbinding⟩ := Option.bind_eq_some_iff.mp hloc
  exact (h.unwired node (List.mem_of_getElem? hnode)).outputs _ (List.mem_of_getElem? hbinding)

end

section Candidate

variable {context : PhysicalLowering} {members : List Member} {segments : List Segment}
  {regions : List CompiledNode} {groups : List PortGroup} {emission : Emission}

theorem Site.lt {node? : List NodeId → Option NodeId} {ports : NodeDescriptor → List PortDescriptor}
    {port : PortRef} {i : Nat} (h : Site (regionTable context regions) node? ports port (r, i)) :
    r < regions.length := by
  obtain ⟨step, node, hstep, -⟩ := h
  exact (List.getElem?_eq_some_iff.mp hstep).1

theorem Routed.consumer_lt (h : Routed context regions groups) {job : Job}
    (hjob : job ∈ allJobs groups) : job.route.consumerRegion < regions.length := by
  obtain ⟨edge, -, hsite, -⟩ := h.job job hjob
  exact hsite.lt

theorem Routed.producer_lt (h : Routed context regions groups) {group : PortGroup}
    (hgroup : group ∈ groups) : group.producerRegion < regions.length :=
  (h.group group hgroup).lt

/-- The region of an invocation port, whose step takes the value. -/
theorem InvocationAt.site {loc : Location} {port : PortRef} (hlaid : Laid regions groups emission)
    (h : InvocationAt (regionTable context regions) emission.semanticSteps port loc) :
    ∃ r < regions.length, loc = (emission.stepAt r, loc.2) ∧
      InputSite (regionTable context regions) port (r, loc.2) := by
  obtain ⟨r, hsite, hstep⟩ := h
  have hloc : loc.1 = emission.stepAt r :=
    Option.some.inj (hstep.symm.trans (hlaid.semantic r hsite.lt))
  exact ⟨r, hsite.lt, Prod.ext hloc rfl, hsite⟩

/-- No invocation port and no wire share an input. -/
theorem inputs_nodup (hchecked : context.Checked) (hrouted : Routed context regions groups)
    (hlaid : Laid regions groups emission) {locs : List Location}
    (hlocs : List.Forall₂ (InvocationAt (regionTable context regions) emission.semanticSteps)
      (sortDedup context.graph.invocationInputs) locs) :
    (locs ++ (allWires emission groups).flatMap Wire.dsts).Nodup := by
  rw [List.nodup_append]
  refine ⟨?_, ?_, ?_⟩
  · have hnd : ((sortDedup context.graph.invocationInputs).map id).Nodup := by
      rw [List.map_id]
      exact sortDedup_nodup _
    have hids := nodup_map_of_forall₂ hlocs hnd (g := id) (by
      intro port loc port' loc' _ _ hat hat' heq
      obtain ⟨r, hr, hloc, hsite⟩ := hat.site hlaid
      obtain ⟨r', hr', hloc', hsite'⟩ := hat'.site hlaid
      have hsame : loc = loc' := heq
      rw [hsame] at hloc hsite
      have hstep : emission.stepAt r = emission.stepAt r' :=
        congrArg Prod.fst (hloc.symm.trans hloc')
      rw [hlaid.stepAt_inj hr hr' hstep] at hsite
      exact hsite.port_eq hsite')
    rw [List.map_id] at hids
    exact hids
  · refine (allWires_dsts emission groups).nodup_iff.mpr
      (hlaid.jobDsts_nodup ?_ hrouted.inputs_nodup)
    exact fun job hjob => hrouted.consumer_lt hjob
  · intro loc hloc dst hdst heq
    obtain ⟨port, hport, hat⟩ := exists_left_of_forall₂ hlocs hloc
    obtain ⟨r, hr, hstep, hsite⟩ := hat.site hlaid
    rw [(allWires_dsts emission groups).mem_iff] at hdst
    obtain ⟨job, hjob, hmem⟩ := List.mem_flatMap.mp hdst
    rcases List.mem_append.mp hmem with hconv | hconsumer
    · obtain ⟨s, hs, hsdst⟩ := List.mem_map.mp hconv
      have heq' : (s, 0) = (emission.stepAt r, loc.2) := hsdst.trans (heq.symm.trans hstep)
      exact hlaid.conv_ne_stepAt hjob hs hr (congrArg Prod.fst heq')
    · -- an edge and the invocation would bind the same port
      rw [List.mem_singleton] at hconsumer
      obtain ⟨edge, hedge, hin, -⟩ := hrouted.job job hjob
      have heq' : (emission.stepAt r, loc.2) =
          (emission.stepAt job.route.consumerRegion, job.route.inputIndex) :=
        hstep.symm.trans (heq.trans hconsumer)
      have hregion := hlaid.stepAt_inj hr (hrouted.consumer_lt hjob) (congrArg Prod.fst heq')
      have hindex : loc.2 = job.route.inputIndex := congrArg Prod.snd heq'
      rw [hregion, hindex] at hsite
      have hsame := hsite.port_eq hin
      have hnd := hchecked.verified.bindings_nodup
      unfold Graph.bindings at hnd
      rw [List.nodup_append] at hnd
      refine hnd.2.2 edge.dst (List.mem_append_left _ (List.mem_map_of_mem hedge)) port
        (mem_sortDedup.mp hport) hsame.symm

/-- The wired steps of a candidate are the netlist of its groups. -/
theorem wireRegions_netlist (hcut : IsCut context members segments regions)
    (hchecked : context.Checked) (hrouted : Routed context regions groups) {wiring : Wiring}
    (h : wireRegions (regionTable context regions) groups = .ok wiring) :
    ∃ emission locs, Laid regions groups emission ∧
      List.Forall₂ (InvocationAt (regionTable context regions) emission.semanticSteps)
        (sortDedup context.graph.invocationInputs) locs ∧
      Netlist emission.nodes locs (allWires emission groups) wiring := by
  unfold wireRegions at h
  obtain ⟨emission, hemit, h⟩ := bind_eq_ok.mp h
  obtain ⟨nodes, hinvocations, h⟩ := bind_eq_ok.mp h
  have hregions : ∀ region ∈ regions, region.Unwired := by
    intro region hregion
    obtain ⟨r, hr⟩ := List.mem_iff_getElem?.mp hregion
    obtain ⟨segment, -, hof⟩ := hcut.region hr
    exact hof.unwired
  have hlaid := laid_of_emitted (fun job hjob => hrouted.consumer_lt hjob)
    (emitSteps_ok hregions hemit)
  obtain ⟨locs, hlocs, hwritten⟩ := bindInvocations_ok hinvocations
  refine ⟨emission, locs, hlaid, hlocs, ?_⟩
  refine netlist_of_written hlaid.inputAt_absent hlaid.outputAt_terminal
    (inputs_nodup hchecked hrouted hlaid hlocs)
    (hlaid.srcs_nodup (fun group hgroup => hrouted.producer_lt hgroup) hrouted.outputs_nodup)
    hwritten (bindGroups_ok (fun group hgroup job hjob => ?_) h)
  refine (hlaid.placed job ?_).written hwritten
  rw [allJobs_eq]
  exact List.mem_flatMap.mpr ⟨group, hgroup, hjob⟩

end Candidate

end Blut.GraphCore
