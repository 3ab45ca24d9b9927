/-
  Binding as a log of writes.

  Binding the steps writes one location after the other. Read as a log, the whole binding phase
  is a list of wires: one output location, the input locations it feeds, and the port of the
  graph whose value it carries. `bindGroups_ok` and `bindInvocations_ok` say what the two loops
  write; no order of the writes is left in them.
-/
import Blut.GraphCore.Discipline
import Blut.GraphCore.Routing

namespace Blut.GraphCore

open Blut.Lib

/-! ## Writes to the bindings -/

/-- A step without its bindings, of which only the number is kept. -/
def CompiledNode.unbound (node : CompiledNode) : CompiledNode :=
  { node with
    inputBindings := node.inputBindings.map fun _ => .absent
    outputBindings := node.outputBindings.map fun _ => .terminal }

/-- The steps after some writes to their bindings: everything else is as before. -/
structure Written (ins : List (Location × InputBinding)) (outs : List (Location × OutputBinding))
    (nodes nodes' : List CompiledNode) : Prop where
  frame : nodes'.map CompiledNode.unbound = nodes.map CompiledNode.unbound
  input : inputAt nodes' = writeAll ins (inputAt nodes)
  output : outputAt nodes' = writeAll outs (outputAt nodes)

theorem Written.refl (nodes : List CompiledNode) : Written [] [] nodes nodes := ⟨rfl, rfl, rfl⟩

variable {ins : List (Location × InputBinding)} {outs : List (Location × OutputBinding)}
  {nodes nodes' : List CompiledNode} {step : StepId} {index : Nat} {binding : InputBinding}
  {buffer : BufferId} {loc : Location} {wiring wiring' : Wiring} {emission : Emission} {job : Job}

theorem Written.trans {ins' : List (Location × InputBinding)}
    {outs' : List (Location × OutputBinding)} {nodes'' : List CompiledNode}
    (h : Written ins outs nodes nodes') (h' : Written ins' outs' nodes' nodes'') :
    Written (ins ++ ins') (outs ++ outs') nodes nodes'' := by
  refine ⟨h'.frame.trans h.frame, ?_, ?_⟩
  · rw [writeAll_append, ← h.input]
    exact h'.input
  · rw [writeAll_append, ← h.output]
    exact h'.output

section Replaced

variable {α β : Type} {node node' : CompiledNode}

theorem map_set_eq (f : CompiledNode → β) (hnode : nodes[step]? = some node)
    (h : f node' = f node) : (nodes.set step node').map f = nodes.map f := by
  obtain ⟨hstep, rfl⟩ := List.getElem?_eq_some_iff.mp hnode
  have hself := List.set_getElem_self (show step < (nodes.map f).length by simpa using hstep)
  rwa [List.getElem_map, ← h, ← List.map_set] at hself

theorem bindings_eq (f : CompiledNode → List α) (h : nodes'.map f = nodes.map f) (loc : Location) :
    (nodes'[loc.1]?.bind fun node => (f node)[loc.2]?) =
      nodes[loc.1]?.bind fun node => (f node)[loc.2]? := by
  have hmap := congrArg (fun bindings => bindings[loc.1]?.bind (·[loc.2]?)) h
  simp only [List.getElem?_map, Option.bind_map] at hmap
  exact hmap

/-- One binding is replaced. -/
theorem bindings_set (f : CompiledNode → List α) {old new : α} (hnode : nodes[step]? = some node)
    (h : f node' = (f node).set index new) (hold : (f node)[index]? = some old) (loc : Location) :
    ((nodes.set step node')[loc.1]?.bind fun node => (f node)[loc.2]?) =
      writeAll [((step, index), new)]
        (fun loc => nodes[loc.1]?.bind fun node => (f node)[loc.2]?) loc := by
  obtain ⟨hstep, rfl⟩ := List.getElem?_eq_some_iff.mp hnode
  have hindex := (List.getElem?_eq_some_iff.mp hold).1
  obtain ⟨s, i⟩ := loc
  rw [writeAll_singleton, Function.update_apply, List.getElem?_set]
  by_cases hs : step = s
  · subst hs
    by_cases hi : index = i
    · subst hi
      simp [hstep, h, hindex]
    · simp [hstep, h, hi, Ne.symm hi]
  · simp [hs, Ne.symm hs]

end Replaced

theorem written_input {node : CompiledNode} {old : InputBinding} (hnode : nodes[step]? = some node)
    (hold : node.inputBindings[index]? = some old) : Written [((step, index), binding)] [] nodes
      (nodes.set step { node with inputBindings := node.inputBindings.set index binding }) :=
  ⟨map_set_eq _ hnode (by simp [CompiledNode.unbound]),
    funext (bindings_set CompiledNode.inputBindings hnode rfl hold),
    funext (bindings_eq CompiledNode.outputBindings (map_set_eq _ hnode rfl))⟩

theorem written_output {node : CompiledNode} {old binding : OutputBinding}
    (hnode : nodes[step]? = some node) (hold : node.outputBindings[index]? = some old) :
    Written [] [((step, index), binding)] nodes
      (nodes.set step { node with outputBindings := node.outputBindings.set index binding }) :=
  ⟨map_set_eq _ hnode (by simp [CompiledNode.unbound]),
    funext (bindings_eq CompiledNode.inputBindings (map_set_eq _ hnode rfl)),
    funext (bindings_set CompiledNode.outputBindings hnode rfl hold)⟩

theorem setInput_ok (h : setInput nodes step index buffer = .ok nodes') :
    Written [((step, index), .buffer buffer)] [] nodes nodes' := by
  unfold setInput updateInput at h
  obtain ⟨node, hnode, h⟩ := bind_eq_ok.mp h
  obtain ⟨old, hold, h⟩ := bind_eq_ok.mp h
  rw [← Except.ok.inj h]
  exact written_input (okOr_eq_ok.mp hnode) (okOr_eq_ok.mp hold)

theorem setInvocation_ok {invocation : Nat}
    (h : setInvocation nodes step index invocation = .ok nodes') :
    Written [((step, index), .invocation invocation)] [] nodes nodes' := by
  simp only [setInvocation, updateInput, bind_eq_ok, okOr_eq_ok] at h
  obtain ⟨node, hnode, old, hold, binding, ⟨_, -, hbinding⟩, h⟩ := h
  rw [← Except.ok.inj h, ← Except.ok.inj hbinding]
  exact written_input hnode hold

theorem setOutput_ok (h : setOutput nodes step index buffer = .ok nodes') :
    Written [] [((step, index), .buffer buffer)] nodes nodes' := by
  unfold setOutput at h
  obtain ⟨node, hnode, h⟩ := bind_eq_ok.mp h
  obtain ⟨old, hold, h⟩ := bind_eq_ok.mp h
  rw [← Except.ok.inj h]
  exact written_output (okOr_eq_ok.mp hnode) (okOr_eq_ok.mp hold)

/-- What a step is apart from its bindings survives the writes. -/
theorem Written.conversion (h : Written ins outs nodes nodes') (step : StepId) :
    nodes'[step]?.bind CompiledNode.conversion = nodes[step]?.bind CompiledNode.conversion := by
  have hstep := congrArg (fun steps : List CompiledNode =>
    steps[step]?.bind CompiledNode.conversion) h.frame
  simp only [List.getElem?_map, Option.bind_map] at hstep
  exact hstep

/-! ## Wires -/

/-- A buffer as a wire: the output that drives it and the inputs it feeds. -/
structure Wire where
  layout : Layout
  capacityBytes : Nat
  src : Location
  dsts : List Location

/-- The entry of the buffer table. -/
def Wire.plan (wire : Wire) (id : BufferId) : BufferPlan :=
  { id := id
    layout := wire.layout
    capacityBytes := wire.capacityBytes
    producer := wire.src.1
    consumers := sortDedup (wire.dsts.map Prod.fst)
    lastConsumer := (sortDedup (wire.dsts.map Prod.fst)).getLast?.getD 0
    aliases := none }

/-- The table of the wires, numbered from `base`. -/
def wirePlans (wires : List Wire) (base : Nat) : List BufferPlan :=
  (wires.zipIdx base).map fun (wire, id) => wire.plan id

/-- The input bindings of the wires. -/
def wireIns (wires : List Wire) (base : Nat) : List (Location × InputBinding) :=
  (wires.zipIdx base).flatMap fun (wire, id) => wire.dsts.map fun dst => (dst, .buffer id)

/-- The output bindings of the wires. -/
def wireOuts (wires : List Wire) (base : Nat) : List (Location × OutputBinding) :=
  (wires.zipIdx base).map fun (wire, id) => (wire.src, .buffer id)

@[simp] theorem wirePlans_nil (base : Nat) : wirePlans [] base = [] := rfl
@[simp] theorem wireIns_nil (base : Nat) : wireIns [] base = [] := rfl
@[simp] theorem wireOuts_nil (base : Nat) : wireOuts [] base = [] := rfl

@[simp] theorem wirePlans_cons (wire : Wire) (wires : List Wire) (base : Nat) :
    wirePlans (wire :: wires) base = wire.plan base :: wirePlans wires (base + 1) := rfl

@[simp] theorem wireIns_cons (wire : Wire) (wires : List Wire) (base : Nat) :
    wireIns (wire :: wires) base =
      wire.dsts.map (fun dst => (dst, .buffer base)) ++ wireIns wires (base + 1) := rfl

@[simp] theorem wireOuts_cons (wire : Wire) (wires : List Wire) (base : Nat) :
    wireOuts (wire :: wires) base = (wire.src, .buffer base) :: wireOuts wires (base + 1) := rfl

theorem wirePlans_append (wires wires' : List Wire) (base : Nat) :
    wirePlans (wires ++ wires') base =
      wirePlans wires base ++ wirePlans wires' (base + wires.length) := by
  simp [wirePlans, List.zipIdx_append]

theorem wireIns_append (wires wires' : List Wire) (base : Nat) :
    wireIns (wires ++ wires') base =
      wireIns wires base ++ wireIns wires' (base + wires.length) := by
  simp [wireIns, List.zipIdx_append]

theorem wireOuts_append (wires wires' : List Wire) (base : Nat) :
    wireOuts (wires ++ wires') base =
      wireOuts wires base ++ wireOuts wires' (base + wires.length) := by
  simp [wireOuts, List.zipIdx_append]

@[simp] theorem length_wirePlans (wires : List Wire) (base : Nat) :
    (wirePlans wires base).length = wires.length := by
  simp [wirePlans]

theorem wireIns_keys (wires : List Wire) (base : Nat) :
    (wireIns wires base).map Prod.fst = wires.flatMap Wire.dsts := by
  induction wires generalizing base with
  | nil => rfl
  | cons wire wires ih =>
    rw [wireIns_cons, List.map_append, ih, List.map_map, List.flatMap_cons]
    exact congrArg (· ++ _) (List.map_id _)

theorem wireOuts_keys (wires : List Wire) (base : Nat) :
    (wireOuts wires base).map Prod.fst = wires.map Wire.src := by
  induction wires generalizing base with
  | nil => rfl
  | cons wire wires ih => rw [wireOuts_cons, List.map_cons, ih, List.map_cons]

variable {wires : List Wire}

theorem mem_wireIns : (loc, binding) ∈ wireIns wires 0 ↔
      ∃ b w, binding = .buffer b ∧ wires[b]? = some w ∧ loc ∈ w.dsts := by
  simp only [wireIns, List.mem_flatMap, Prod.exists, List.mk_mem_zipIdx_iff_getElem?, List.mem_map]
  constructor
  · rintro ⟨w, b, hw, s, i, hdst, ⟨⟩⟩
    exact ⟨b, w, rfl, hw, hdst⟩
  · rintro ⟨b, w, rfl, hw, hdst⟩
    exact ⟨w, b, hw, loc.1, loc.2, hdst, rfl⟩

theorem mem_wireOuts {binding : OutputBinding} : (loc, binding) ∈ wireOuts wires 0 ↔
      ∃ b w, binding = .buffer b ∧ wires[b]? = some w ∧ w.src = loc := by
  simp only [wireOuts, List.mem_map, Prod.exists, List.mk_mem_zipIdx_iff_getElem?]
  constructor
  · rintro ⟨w, b, hw, ⟨⟩⟩
    exact ⟨b, w, rfl, hw, rfl⟩
  · rintro ⟨b, w, rfl, hw, rfl⟩
    exact ⟨w, b, hw, rfl⟩

/-- The buffers and bindings that some wires add, and the entries bound besides. -/
structure Bound (entries : List (Location × InputBinding)) (wires : List Wire)
    (start finish : Wiring) : Prop where
  buffers : finish.buffers = start.buffers ++ wirePlans wires start.buffers.length
  written : ∃ ins outs, ins.Perm (entries ++ wireIns wires start.buffers.length) ∧
    outs.Perm (wireOuts wires start.buffers.length) ∧ Written ins outs start.nodes finish.nodes

theorem Bound.refl (wiring : Wiring) : Bound [] [] wiring wiring :=
  ⟨by simp, [], [], by simp, by simp, Written.refl _⟩

theorem Bound.trans {wires' : List Wire} {start middle finish : Wiring}
    {entries entries' : List (Location × InputBinding)} (h : Bound entries wires start middle)
    (h' : Bound entries' wires' middle finish) :
    Bound (entries ++ entries') (wires ++ wires') start finish := by
  obtain ⟨ins, outs, hins, houts, hw⟩ := h.written
  obtain ⟨ins', outs', hins', houts', hw'⟩ := h'.written
  have hlen : middle.buffers.length = start.buffers.length + wires.length := by
    rw [h.buffers, List.length_append, length_wirePlans]
  rw [hlen] at hins' houts'
  refine ⟨?_, ins ++ ins', outs ++ outs', ?_, ?_, hw.trans hw'⟩
  · rw [h'.buffers, hlen, h.buffers, wirePlans_append, List.append_assoc]
  · -- the later entries go before the earlier wires
    rw [wireIns_append, List.append_assoc]
    refine (hins.append hins').trans ?_
    rw [List.append_assoc, ← List.append_assoc (wireIns _ _), ← List.append_assoc entries']
    exact (List.perm_append_comm.append_right _).append_left _
  · rw [wireOuts_append]
    exact houts.append houts'

/-- A wire is bound at its source, and by the entries of what comes after. -/
theorem Bound.cons {wire : Wire} {start middle finish : Wiring}
    (h : Bound (wire.dsts.map fun dst => (dst, .buffer start.buffers.length)) wires middle finish)
    (hbuffers : middle.buffers = start.buffers ++ [wire.plan start.buffers.length])
    (hw : Written ins [(wire.src, .buffer start.buffers.length)] start.nodes middle.nodes) :
    Bound ins (wire :: wires) start finish := by
  obtain ⟨ins', outs', hins, houts, hw'⟩ := h.written
  have hlen : middle.buffers.length = start.buffers.length + 1 := by
    rw [hbuffers, List.length_append, List.length_singleton]
  rw [hlen] at hins houts
  refine ⟨?_, _, _, ?_, ?_, hw.trans hw'⟩
  · rw [h.buffers, hlen, hbuffers, wirePlans_cons, List.append_assoc]
    rfl
  · rw [wireIns_cons]
    exact hins.append_left ins
  · rw [wireOuts_cons]
    exact houts.cons _

/-! ## Routes -/

variable {path : List LayoutConversion}

/-- Where a route is entered: its first conversion, or the consumer itself. -/
def routeEntry (consumer : Location) : List LayoutConversion → StepId → Location
  | [], _ => consumer
  | _ :: _, step => (step, 0)

theorem head_range'_getD (consumer : Location) (path : List LayoutConversion) (step : StepId) :
    (List.range' step path.length).head?.getD consumer.1 = (routeEntry consumer path step).1 := by
  cases path with
  | nil => rfl
  | cons conversion path => simp [routeEntry, List.range'_succ]

/-- The wires from the conversions of a route, which run from `step` on. -/
def pathWires (consumer : Location) : List LayoutConversion → StepId → List Wire
  | [], _ => []
  | conversion :: path, step =>
    { layout := conversion.dst
      capacityBytes := conversion.maxOutputBytes
      src := (step, 0)
      dsts := [routeEntry consumer path (step + 1)] } :: pathWires consumer path (step + 1)

theorem ConvertsAt.written (hw : Written ins outs nodes nodes') (h : ConvertsAt nodes path step) :
    ConvertsAt nodes' path step := by
  induction path generalizing step with
  | nil => trivial
  | cons conversion path ih => exact ⟨(hw.conversion step).trans h.1, ih h.2⟩

theorem pushBuffer_wire {buffers buffers' : List BufferPlan} (wire : Wire)
    (h : pushBuffer buffers wire.layout wire.capacityBytes wire.src.1 (wire.dsts.map Prod.fst) =
      .ok buffers') : buffers' = buffers ++ [wire.plan buffers.length] := by
  unfold pushBuffer at h
  obtain ⟨last, hlast, h⟩ := bind_eq_ok.mp h
  rw [expect_eq_ok] at hlast
  rw [← Except.ok.inj h]
  simp [Wire.plan, hlast]

/-- Binding a route writes its wires, and the buffer at its entry. -/
theorem bindRoute_ok {consumer : StepId} {inputIndex : Nat}
    (hconv : ConvertsAt wiring.nodes path step)
    (h : bindRoute consumer inputIndex (List.range' step path.length) buffer wiring = .ok wiring') :
    Bound [(routeEntry (consumer, inputIndex) path step, .buffer buffer)]
      (pathWires (consumer, inputIndex) path step) wiring wiring' := by
  induction path generalizing step buffer wiring with
  | nil =>
    rw [List.length_nil, List.range'_zero, bindRoute] at h
    obtain ⟨nodes, hset, h⟩ := bind_eq_ok.mp h
    rw [← Except.ok.inj h]
    exact ⟨by simp [pathWires], _, _, List.Perm.refl _, List.Perm.refl _, setInput_ok hset⟩
  | cons conversion path ih =>
    simp only [List.length_cons, List.range'_succ, bindRoute, bind_eq_ok] at h
    obtain ⟨nodes, hset, found, hfound, buffers, hpush, nodes', hout, h⟩ := h
    have hin := setInput_ok hset
    have hboth := hin.trans (setOutput_ok hout)
    -- the conversion found at the step is that of the path
    have hsame : found = conversion := by
      rw [expect_eq_ok, hin.conversion] at hfound
      exact Option.some.inj (hfound.symm.trans hconv.1)
    rw [hsame, head_range'_getD (consumer, inputIndex)] at hpush
    have hbuffers := pushBuffer_wire
      { layout := conversion.dst
        capacityBytes := conversion.maxOutputBytes
        src := (step, 0)
        dsts := [routeEntry (consumer, inputIndex) path (step + 1)] } hpush
    exact Bound.cons (ih (hconv.2.written hboth) h) hbuffers hboth

/-! ## The wires of the groups -/

/-- The step of a region. -/
def Emission.stepAt (emission : Emission) (region : Nat) : StepId :=
  emission.semanticSteps[region]?.getD 0

theorem Emission.stepAt_eq {region : Nat} (h : emission.semanticSteps[region]? = some step) :
    emission.stepAt region = step := by
  unfold Emission.stepAt
  rw [h, Option.getD_some]

/-- The input at which a route ends. -/
def Emission.consumer (emission : Emission) (route : Route) : Location :=
  (emission.stepAt route.consumerRegion, route.inputIndex)

def jobEntry (emission : Emission) (job : Job) : Location :=
  routeEntry (emission.consumer job.route) (conversionsOf job.route.path) (emission.base job.key)

def jobWires (emission : Emission) (job : Job) : List Wire :=
  pathWires (emission.consumer job.route) (conversionsOf job.route.path)
    (emission.base job.key)

def groupJobs (group : PortGroup × Nat) : List Job :=
  group.1.routes.zipIdx.map fun route =>
    { groupIndex := group.2, group := group.1, routeIndex := route.2, route := route.1 }

/-- The wire of the output port itself. -/
def sourceWire (emission : Emission) (group : PortGroup × Nat) : Wire :=
  { layout := group.1.layout
    capacityBytes := group.1.capacityBytes
    src := (emission.stepAt group.1.producerRegion, group.1.outputIndex)
    dsts := (groupJobs group).map (jobEntry emission) }

def groupWires (emission : Emission) (group : PortGroup × Nat) : List Wire :=
  sourceWire emission group :: (groupJobs group).flatMap (jobWires emission)

def allWires (emission : Emission) (groups : List PortGroup) : List Wire :=
  groups.zipIdx.flatMap (groupWires emission)

theorem allJobs_eq (groups : List PortGroup) :
    allJobs groups = groups.zipIdx.flatMap groupJobs := rfl

/-- The route's steps are where the emission says, in the given list of steps. -/
structure Placed (emission : Emission) (nodes : List CompiledNode) (job : Job) : Prop where
  steps : emission.conversionSteps.get? job.key =
    some (List.range' (emission.base job.key) (conversionsOf job.route.path).length)
  converts : ConvertsAt nodes (conversionsOf job.route.path) (emission.base job.key)
  consumer : emission.semanticSteps[job.route.consumerRegion]? =
    some (emission.stepAt job.route.consumerRegion)

theorem Placed.written (hw : Written ins outs nodes nodes') (h : Placed emission nodes job) :
    Placed emission nodes' job :=
  ⟨h.steps, h.converts.written hw, h.consumer⟩

/-! ## Binding the groups -/

theorem routeSteps_eq (h : Placed emission nodes job) :
    routeSteps emission job.groupIndex (job.route, job.routeIndex) =
      .ok (List.range' (emission.base job.key) (conversionsOf job.route.path).length,
        emission.stepAt job.route.consumerRegion) := by
  unfold routeSteps
  have hget : emission.conversionSteps.get? (toLex (job.groupIndex, job.routeIndex)) =
      some (List.range' (emission.base job.key) (conversionsOf job.route.path).length) := h.steps
  rw [BTreeMap.index_eq_ok.mpr hget, ok_bind, expect_eq_ok.mpr h.consumer, ok_bind]
  rfl

/-- The body of the loop over the routes of a group. -/
def bindJob (emission : Emission) (buffer : BufferId) (wiring : Wiring) (job : Job) :
    Outcome CompileError Wiring := do
  let (path, consumer) ← routeSteps emission job.groupIndex (job.route, job.routeIndex)
  bindRoute consumer job.route.inputIndex path buffer wiring

/-- One route of a group, whose source buffer is `buffer`. -/
theorem bindJob_ok (hplaced : Placed emission wiring.nodes job)
    (h : bindJob emission buffer wiring job = .ok wiring') :
    Bound [(jobEntry emission job, .buffer buffer)] (jobWires emission job) wiring wiring' := by
  unfold bindJob at h
  rw [routeSteps_eq hplaced, ok_bind] at h
  exact bindRoute_ok hplaced.converts h

/-- The loop over the routes of a group. -/
theorem bindJobs_ok {jobs : List Job} (hplaced : ∀ job ∈ jobs, Placed emission wiring.nodes job)
    (h : jobs.foldlM (bindJob emission buffer) wiring = .ok wiring') :
    Bound ((jobs.map (jobEntry emission)).map fun entry => (entry, .buffer buffer))
      (jobs.flatMap (jobWires emission)) wiring wiring' := by
  induction jobs generalizing wiring with
  | nil =>
    rw [foldlM_nil_ok] at h
    rw [← h]
    exact Bound.refl wiring
  | cons job jobs ih =>
    obtain ⟨middle, hstep, hrest⟩ := foldlM_cons_ok.mp h
    have hbound := bindJob_ok (hplaced job List.mem_cons_self) hstep
    obtain ⟨ins, outs, -, -, hw⟩ := hbound.written
    rw [List.flatMap_cons]
    exact hbound.trans (ih (fun other hother =>
      (hplaced other (List.mem_cons_of_mem _ hother)).written hw) hrest)

theorem bindGroup_ok {group : PortGroup × Nat}
    (hplaced : ∀ job ∈ groupJobs group, Placed emission wiring.nodes job)
    (h : bindGroup emission wiring group = .ok wiring') :
    Bound [] (groupWires emission group) wiring wiring' := by
  simp only [bindGroup, bind_eq_ok, expect_eq_ok] at h
  obtain ⟨producer, hproducer, consumers, hconsumers, buffers, hpush, nodes, hset, h⟩ := h
  have hstep := Emission.stepAt_eq hproducer
  have hentries : consumers = ((groupJobs group).map (jobEntry emission)).map Prod.fst := by
    have hmap : group.1.routes.zipIdx.mapM (fun route => do
        let (path, consumer) ← routeSteps emission group.2 route
        return path.head?.getD consumer) =
        (.ok (group.1.routes.zipIdx.map fun route => (jobEntry emission
          { groupIndex := group.2, group := group.1, routeIndex := route.2, route := route.1 }).1) :
          Outcome CompileError (List StepId)) := by
      refine mapM_eq_map fun route hroute => ?_
      have hjob := hplaced _ (List.mem_map.mpr ⟨route, hroute, rfl⟩)
      have hsteps := routeSteps_eq hjob
      simp only at hsteps
      rw [hsteps, ok_bind]
      exact congrArg Except.ok (head_range'_getD (emission.consumer route.1)
        (conversionsOf route.1.path) _)
    rw [hmap] at hconsumers
    rw [← Except.ok.inj hconsumers]
    unfold groupJobs
    rw [List.map_map, List.map_map]
    rfl
  rw [hentries, ← hstep] at hpush
  have hbuffers := pushBuffer_wire (sourceWire emission group) hpush
  have hsource := setOutput_ok hset
  rw [← hstep] at hsource
  have hjobs : (groupJobs group).foldlM (bindJob emission wiring.buffers.length)
      { nodes := nodes, buffers := buffers } = .ok wiring' := by
    unfold groupJobs
    rw [List.foldlM_map]
    exact h
  have hbound := bindJobs_ok (fun job hjob => (hplaced job hjob).written hsource) hjobs
  show Bound [] (sourceWire emission group :: _) wiring wiring'
  exact Bound.cons hbound hbuffers hsource

theorem bindGroups_ok {groups : List (PortGroup × Nat)}
    (hplaced : ∀ group ∈ groups, ∀ job ∈ groupJobs group, Placed emission wiring.nodes job)
    (h : groups.foldlM (bindGroup emission) wiring = .ok wiring') :
    Bound [] (groups.flatMap (groupWires emission)) wiring wiring' := by
  induction groups generalizing wiring with
  | nil =>
    rw [foldlM_nil_ok] at h
    rw [← h]
    exact Bound.refl wiring
  | cons group groups ih =>
    obtain ⟨middle, hstep, hrest⟩ := foldlM_cons_ok.mp h
    have hbound := bindGroup_ok (hplaced group List.mem_cons_self) hstep
    obtain ⟨ins, outs, -, -, hw⟩ := hbound.written
    rw [List.flatMap_cons]
    exact hbound.trans (ih (fun other hother job hjob =>
      (hplaced other (List.mem_cons_of_mem _ hother) job hjob).written hw) hrest)

/-! ## Binding the invocation ports -/

variable {semanticSteps : List StepId}

/-- Where the value of an invocation port goes. -/
def InvocationAt (table : RegionTable) (semanticSteps : List StepId) (port : PortRef)
    (loc : Location) : Prop :=
  ∃ region, InputSite table port (region, loc.2) ∧ semanticSteps[region]? = some loc.1

/-- The bindings of the invocation ports, numbered from `base`. -/
def invocationIns (locs : List Location) (base : Nat) : List (Location × InputBinding) :=
  (locs.zipIdx base).map fun (loc, k) => (loc, .invocation k)

theorem invocationIns_keys (locs : List Location) (base : Nat) :
    (invocationIns locs base).map Prod.fst = locs := by
  unfold invocationIns
  rw [List.map_map]
  exact List.zipIdx_map_fst base locs

theorem mem_invocationIns {locs : List Location} :
    (loc, binding) ∈ invocationIns locs 0 ↔ ∃ k, binding = .invocation k ∧ locs[k]? = some loc := by
  simp only [invocationIns, List.mem_map, Prod.exists, List.mk_mem_zipIdx_iff_getElem?]
  constructor
  · rintro ⟨s, i, k, hk, ⟨⟩⟩
    exact ⟨k, rfl, hk⟩
  · rintro ⟨k, rfl, hk⟩
    exact ⟨loc.1, loc.2, k, hk, rfl⟩

theorem bindInvocation_ok {table : RegionTable} {port : PortRef} {k : Nat}
    (h : bindInvocation table semanticSteps nodes (port, k) = .ok nodes') :
    ∃ loc, InvocationAt table semanticSteps port loc ∧
      Written [(loc, .invocation k)] [] nodes nodes' := by
  simp only [bindInvocation, bind_eq_ok, expect_eq_ok, okOr_eq_ok, reject_eq_ok,
    BTreeMap.index_eq_ok] at h
  obtain ⟨region, hregion, semantic, hsemantic, _, hhead, descriptor, hdescriptor,
    index, hindex, step, hstep, h⟩ := h
  have hfirst : semantic.semanticNodes.head? = some port.node := by simpa using hhead
  exact ⟨(step, index), ⟨region, ⟨semantic, descriptor, hsemantic, hfirst, hdescriptor, hindex⟩,
    hstep⟩, setInvocation_ok h⟩

theorem bindInvocations_ok {table : RegionTable} {ports : List PortRef} {base : Nat}
    (h : (ports.zipIdx base).foldlM (bindInvocation table semanticSteps) nodes = .ok nodes') :
    ∃ locs, List.Forall₂ (InvocationAt table semanticSteps) ports locs ∧
      Written (invocationIns locs base) [] nodes nodes' := by
  induction ports generalizing nodes base with
  | nil =>
    have hsame : nodes = nodes' := foldlM_nil_ok.mp h
    rw [← hsame]
    exact ⟨[], List.Forall₂.nil, Written.refl nodes⟩
  | cons port ports ih =>
    rw [List.zipIdx_cons] at h
    obtain ⟨middle, hstep, hrest⟩ := foldlM_cons_ok.mp h
    obtain ⟨loc, hat, hw⟩ := bindInvocation_ok hstep
    obtain ⟨locs, hlocs, hw'⟩ := ih hrest
    exact ⟨loc :: locs, List.Forall₂.cons hat hlocs, hw.trans hw'⟩

end Blut.GraphCore
