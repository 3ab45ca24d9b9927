/-
  Where the steps are emitted.

  `emitSteps` writes the steps region by region, each after the conversions it consumes. What the
  later passes need of it is `Emitted`: ids are positions, nothing is wired yet, every region and
  every conversion of a route has its own step, and a route runs after all earlier regions and
  before its consumer.
-/
import Blut.GraphCore.Discipline
import Blut.GraphCore.Lower

namespace Blut.GraphCore

open Blut.Lib

/-! ## The routes of all groups -/

/-- A route with its place among the groups. -/
structure Job where
  groupIndex : Nat
  group : PortGroup
  routeIndex : Nat
  route : Route

def Job.key (job : Job) : Nat ×ₗ Nat := toLex (job.groupIndex, job.routeIndex)

/-- The routes in the order in which every region looks through them. -/
def allJobs (groups : List PortGroup) : List Job :=
  groups.zipIdx.flatMap fun group => group.1.routes.zipIdx.map fun route =>
    { groupIndex := group.2, group := group.1, routeIndex := route.2, route := route.1 }

section

variable {regions : List CompiledNode} {groups : List PortGroup} {job : Job}

theorem places_of_mem_allJobs (h : job ∈ allJobs groups) :
    groups[job.groupIndex]? = some job.group ∧
      job.group.routes[job.routeIndex]? = some job.route := by
  obtain ⟨⟨group, g⟩, hgroup, hjob⟩ := List.mem_flatMap.mp h
  obtain ⟨⟨route, r⟩, hroute, rfl⟩ := List.mem_map.mp hjob
  exact ⟨List.mk_mem_zipIdx_iff_getElem?.mp hgroup, List.mk_mem_zipIdx_iff_getElem?.mp hroute⟩

/-- A route is known by its place. -/
theorem job_eq_of_key {job' : Job} (h : job ∈ allJobs groups) (h' : job' ∈ allJobs groups)
    (hkey : job.key = job'.key) : job = job' := by
  obtain ⟨hg, hr⟩ := places_of_mem_allJobs h
  obtain ⟨hg', hr'⟩ := places_of_mem_allJobs h'
  cases job
  cases job'
  obtain ⟨rfl, rfl⟩ := Prod.mk.inj (toLex.injective hkey)
  cases hg.symm.trans hg'
  cases hr.symm.trans hr'
  rfl

theorem allJobs_nodup (groups : List PortGroup) : (allJobs groups).Nodup := by
  have hsnd : ∀ {α : Type} (xs : List α), (xs.zipIdx.map Prod.snd).Nodup := by
    intro α xs
    rw [List.zipIdx_map_snd]
    exact List.nodup_range'
  unfold allJobs
  rw [List.nodup_flatMap]
  refine ⟨fun group _ => ?_, ?_⟩
  · refine (List.Nodup.of_map Prod.snd (hsnd group.1.routes)).map_on fun x _ y _ hxy => ?_
    simp only [Job.mk.injEq, true_and] at hxy
    exact Prod.ext hxy.2 hxy.1
  · refine (List.pairwise_map.mp (hsnd groups)).imp fun {a b} hne => ?_
    intro job ha hb
    obtain ⟨_, _, rfl⟩ := List.mem_map.mp ha
    obtain ⟨_, _, heq⟩ := List.mem_map.mp hb
    exact hne (congrArg Job.groupIndex heq).symm

/-- The body of the two inner loops of `emitRegion`. -/
def emitJob (region : Nat) (emission : Emission) (job : Job) : Outcome CompileError Emission :=
  emitRoute region job.groupIndex job.group emission (job.route, job.routeIndex)

theorem emitRegion_eq (groups : List PortGroup) (emission : Emission)
    (region : CompiledNode × Nat) :
    emitRegion groups emission region = do
      let emission ← (allJobs groups).foldlM (emitJob region.2) emission
      return { emission with
        nodes := emission.nodes ++ [{ region.1 with id := emission.nodes.length }]
        semanticSteps := emission.semanticSteps ++ [emission.nodes.length] } := by
  unfold emitRegion allJobs
  rw [foldlM_flatMap]
  simp only [List.foldlM_map]
  rfl

/-! ## Emitted paths -/

variable {path : List KernelDescriptor} {steps nodes : List CompiledNode} {group : PortGroup}
  {emission emission' : Emission}

def conversionsOf (path : List KernelDescriptor) : List LayoutConversion :=
  path.filterMap KernelDescriptor.conversion

/-- The first step of a route's conversions. -/
def Emission.base (emission : Emission) (key : Nat ×ₗ Nat) : StepId :=
  ((emission.conversionSteps.get? key).bind List.head?).getD 0

/-- The steps of a route's conversions. -/
def convSteps (emission : Emission) (job : Job) : List Nat :=
  List.range' (emission.base job.key) (conversionsOf job.route.path).length

/-- The steps from `step` on are the given conversions. -/
def ConvertsAt (nodes : List CompiledNode) : List LayoutConversion → StepId → Prop
  | [], _ => True
  | conversion :: path, step =>
    nodes[step]?.bind CompiledNode.conversion = some conversion ∧ ConvertsAt nodes path (step + 1)

theorem ConvertsAt.append {path : List LayoutConversion} {step : StepId}
    (h : ConvertsAt nodes path step) (more : List CompiledNode) :
    ConvertsAt (nodes ++ more) path step := by
  induction path generalizing step with
  | nil => trivial
  | cons conversion path ih =>
    obtain ⟨node, hnode, -⟩ := Option.bind_eq_some_iff.mp h.1
    refine ⟨?_, ih h.2⟩
    rw [List.getElem?_append_left (List.getElem?_eq_some_iff.mp hnode).1]
    exact h.1

/-- Where a route's conversions are, whatever the base of an empty path. -/
theorem convSteps_eq {base : Nat} (h : emission.conversionSteps.get? job.key =
      some (List.range' base (conversionsOf job.route.path).length)) :
    convSteps emission job = List.range' base (conversionsOf job.route.path).length ∧
      ∀ nodes, ConvertsAt nodes (conversionsOf job.route.path) base →
        ConvertsAt nodes (conversionsOf job.route.path) (emission.base job.key) := by
  unfold convSteps Emission.base
  rw [h]
  cases conversionsOf job.route.path with
  | nil => exact ⟨rfl, fun _ _ => trivial⟩
  | cons conversion path => simp [List.range'_succ]

theorem emitPath_ok (nodes : List CompiledNode) {inputBytes : Nat}
    (h : emitPath group path inputBytes nodes.length = .ok steps) :
    steps.map CompiledNode.id = List.range' nodes.length (conversionsOf path).length ∧
      ConvertsAt (nodes ++ steps) (conversionsOf path) nodes.length ∧
      ∀ node ∈ steps, node.Unwired := by
  induction path generalizing inputBytes nodes steps with
  | nil =>
    have hnil : [] = steps := Except.ok.inj h
    rw [← hnil]
    exact ⟨rfl, trivial, fun _ hnode => absurd hnode List.not_mem_nil⟩
  | cons kernel path ih =>
    rw [emitPath] at h
    obtain ⟨conversion, hconv, h⟩ := bind_eq_ok.mp h
    obtain ⟨rest, hrest, h⟩ := bind_eq_ok.mp h
    rw [expect_eq_ok] at hconv
    -- the rest is emitted after the first step
    have hlen : (nodes ++ [conversionStep nodes.length group kernel conversion inputBytes]).length =
        nodes.length + 1 := by simp
    rw [← hlen] at hrest
    obtain ⟨hids, hpath, hunwired⟩ := ih _ hrest
    rw [hlen] at hids hpath
    rw [← Except.ok.inj h, conversionsOf, List.filterMap_cons_some hconv, List.length_cons,
      List.range'_succ]
    refine ⟨congrArg (List.cons nodes.length) hids, ⟨by simp [conversionStep], ?_⟩,
      List.forall_mem_cons.mpr ⟨⟨fun _ => List.mem_singleton.mp, fun _ => List.mem_singleton.mp⟩,
        hunwired⟩⟩
    rw [List.append_assoc] at hpath
    exact hpath

/-- Steps that are numbered on keep their positions as ids. -/
theorem ids_append
    (h : ∀ (s : Nat) (node : CompiledNode), nodes[s]? = some node → node.id = s)
    (hids : steps.map CompiledNode.id = List.range' nodes.length steps.length) (s : Nat)
    (node : CompiledNode) (hnode : (nodes ++ steps)[s]? = some node) : node.id = s := by
  rw [List.getElem?_append] at hnode
  split_ifs at hnode with hlt
  · exact h s node hnode
  · have hid := congrArg (fun ids : List StepId => ids[s - nodes.length]?) hids
    simp only [List.getElem?_map, hnode, Option.map_some] at hid
    rw [List.getElem?_range' (List.getElem?_eq_some_iff.mp hnode).1, Option.some_inj] at hid
    exact hid.trans (show nodes.length + 1 * (s - nodes.length) = s by omega)

/-! ## The invariant of the emission -/

variable {done : Job → Prop} {count : Nat} {region : CompiledNode}

/-- The conversions of a route are emitted, after the regions before its consumer and before the
    consumer itself. -/
structure RouteAt (emission : Emission) (job : Job) : Prop where
  steps : emission.conversionSteps.get? job.key = some (convSteps emission job)
  converts : ConvertsAt emission.nodes (conversionsOf job.route.path) (emission.base job.key)
  before : ∀ s ∈ convSteps emission job, ∀ s' : Nat,
    emission.semanticSteps[job.route.consumerRegion]? = some s' → s < s'
  after : ∀ s ∈ convSteps emission job, ∀ (r : Nat) (s' : Nat), r < job.route.consumerRegion →
    emission.semanticSteps[r]? = some s' → s' < s

/-- More steps, for other routes or for a region that is not before the consumer. -/
theorem RouteAt.grow (h : RouteAt emission job) {more : List CompiledNode}
    (hget : emission'.conversionSteps.get? job.key = emission.conversionSteps.get? job.key)
    (hnodes : emission'.nodes = emission.nodes ++ more)
    (hsteps : ∀ r s' : Nat, r ≤ job.route.consumerRegion → emission'.semanticSteps[r]? = some s' →
      emission.semanticSteps[r]? = some s' ∨
        (r = job.route.consumerRegion ∧ ∀ s ∈ convSteps emission job, s < s')) :
    RouteAt emission' job := by
  have hbase : emission'.base job.key = emission.base job.key := by
    unfold Emission.base
    rw [hget]
  have hconv : convSteps emission' job = convSteps emission job := by
    unfold convSteps
    rw [hbase]
  refine ⟨?_, ?_, fun s hs s' hs' => ?_, fun s hs r s' hr hs' => ?_⟩
  · rw [hget, hconv]
    exact h.steps
  · rw [hnodes, hbase]
    exact h.converts.append more
  · rw [hconv] at hs
    rcases hsteps _ s' le_rfl hs' with hold | ⟨-, hlt⟩
    · exact h.before s hs s' hold
    · exact hlt s hs
  · rw [hconv] at hs
    rcases hsteps r s' hr.le hs' with hold | ⟨heq, -⟩
    · exact h.after s hs r s' hr hold
    · exact absurd heq hr.ne

/-- The regions up to `count` and the routes in `done` are emitted. -/
structure Emitted (count : Nat) (done : Job → Prop) (emission : Emission) : Prop where
  ids : ∀ (s : Nat) (node : CompiledNode), emission.nodes[s]? = some node → node.id = s
  unwired : ∀ node ∈ emission.nodes, node.Unwired
  length : emission.semanticSteps.length = count
  semantic_lt : ∀ s ∈ emission.semanticSteps, s < emission.nodes.length
  sorted : emission.semanticSteps.Pairwise (· < ·)
  route : ∀ job, done job → RouteAt emission job
  bounded : ∀ key (steps : List Nat), emission.conversionSteps.get? key = some steps →
    ∀ s ∈ steps, s < emission.nodes.length
  disjoint : ∀ key key' (steps steps' : List Nat), emission.conversionSteps.get? key = some steps →
    emission.conversionSteps.get? key' = some steps' → ∀ s ∈ steps, s ∈ steps' → key = key'

theorem Emitted.start : Emitted 0 (fun _ => False)
      { nodes := [], semanticSteps := [], conversionSteps := BTreeMap.empty } := by
  constructor <;> simp

section

variable (h : Emitted count done emission)
include h

/-- One more route of the region that comes next. -/
theorem Emitted.emitRoute (hregion : job.route.consumerRegion = count)
    (hfresh : ∀ job', done job' → job'.key ≠ job.key)
    (hsteps : emitPath job.group job.route.path job.group.capacityBytes emission.nodes.length =
      .ok steps) (hemission : emission' = { emission with
      nodes := emission.nodes ++ steps
      conversionSteps := emission.conversionSteps.insert job.key (steps.map CompiledNode.id) }) :
    Emitted count (fun job' => done job' ∨ job' = job) emission' := by
  obtain ⟨hids, hconverts, hunwired⟩ := emitPath_ok emission.nodes hsteps
  have hlen : steps.length = (conversionsOf job.route.path).length := by
    simpa using congrArg List.length hids
  have hself : emission'.conversionSteps.get? job.key =
      some (List.range' emission.nodes.length (conversionsOf job.route.path).length) := by
    rw [hemission, ← hids]
    exact BTreeMap.get?_insert_self ..
  subst hemission
  -- the steps of a route are old, or numbered on
  have hlookup : ∀ key (steps' : List Nat), (emission.conversionSteps.insert job.key
      (steps.map CompiledNode.id)).get? key = some steps' →
      (key = job.key ∧ ∀ s ∈ steps', emission.nodes.length ≤ s ∧
        s < emission.nodes.length + steps.length) ∨
      (emission.conversionSteps.get? key = some steps' ∧
        ∀ s ∈ steps', s < emission.nodes.length) := by
    intro key steps' hget
    rw [BTreeMap.get?_insert] at hget
    split_ifs at hget with hkey
    · rw [← Option.some.inj hget, hids, hlen]
      exact Or.inl ⟨hkey, fun s => List.mem_range'_1.mp⟩
    · exact Or.inr ⟨hget, h.bounded key steps' hget⟩
  refine ⟨ids_append h.ids (hlen ▸ hids), List.forall_mem_append.mpr ⟨h.unwired, hunwired⟩,
    h.length, fun s hs => ?_, h.sorted, ?_, fun key steps' hget s hs => ?_, ?_⟩
  · rw [List.length_append]
    exact Nat.lt_add_right _ (h.semantic_lt s hs)
  · rintro job' (hdone | rfl)
    · exact (h.route job' hdone).grow (BTreeMap.get?_insert_ne _ _ (hfresh job' hdone)) rfl
        fun r s' _ => Or.inl
    · obtain ⟨hconv, hat⟩ := convSteps_eq hself
      refine ⟨hconv ▸ hself, hat _ hconverts, fun s hs s' hs' => ?_, fun s hs r s' _ hs' => ?_⟩
      · rw [hregion, ← h.length] at hs'
        simp at hs'
      · rw [hconv] at hs
        exact (h.semantic_lt s' (List.mem_of_getElem? hs')).trans_le (List.mem_range'_1.mp hs).1
  · rw [List.length_append]
    rcases hlookup key steps' hget with ⟨-, hnew⟩ | ⟨-, hold⟩
    · exact (hnew s hs).2
    · exact Nat.lt_add_right _ (hold s hs)
  · intro key key' steps₁ steps₂ hget hget' s hs hs'
    rcases hlookup key steps₁ hget with ⟨hkey, hnew⟩ | ⟨hget, hold⟩ <;>
      rcases hlookup key' steps₂ hget' with ⟨hkey', hnew'⟩ | ⟨hget', hold'⟩
    · rw [hkey, hkey']
    · exact absurd (hold' s hs') (hnew s hs).1.not_gt
    · exact absurd (hold s hs) (hnew' s hs').1.not_gt
    · exact h.disjoint key key' steps₁ steps₂ hget hget' s hs hs'

theorem Emitted.congr {done' : Job → Prop} (hdone : ∀ job, done job ↔ done' job) :
    Emitted count done' emission := by
  have heq : done = done' := funext fun job => propext (hdone job)
  rw [← heq]
  exact h

/-- The step of the next region, after all the routes it consumes. -/
theorem Emitted.emitSemantic (hregion : region.Unwired)
    (hdone : ∀ job, done job → job.route.consumerRegion ≤ count) :
    Emitted (count + 1) done { emission with
      nodes := emission.nodes ++ [{ region with id := emission.nodes.length }]
      semanticSteps := emission.semanticSteps ++ [emission.nodes.length] } := by
  have hbounded := fun key steps hget s hs =>
    Nat.lt_succ_of_lt (h.bounded key steps hget s hs)
  refine ⟨ids_append h.ids rfl, List.forall_mem_append.mpr ⟨h.unwired,
    List.forall_mem_singleton.mpr ⟨hregion.inputs, hregion.outputs⟩⟩, by simp [h.length], ?_,
    List.pairwise_append.mpr ⟨h.sorted, List.pairwise_singleton _ _, fun s hs s' hs' => ?_⟩,
    fun job hjob => ?_, ?_, h.disjoint⟩
  · rw [List.length_append, List.length_singleton]
    exact List.forall_mem_append.mpr ⟨fun s hs => Nat.lt_succ_of_lt (h.semantic_lt s hs),
      List.forall_mem_singleton.mpr (Nat.lt_succ_self _)⟩
  · rw [List.mem_singleton.mp hs']
    exact h.semantic_lt s hs
  · have hroute := h.route job hjob
    refine hroute.grow rfl rfl fun r s hr hs => ?_
    rw [List.getElem?_append] at hs
    split_ifs at hs with hlt
    · exact Or.inl hs
    · rw [List.getElem?_singleton] at hs
      split_ifs at hs
      rw [h.length] at hlt
      rw [← Option.some.inj hs]
      exact Or.inr ⟨le_antisymm hr ((hdone job hjob).trans (not_lt.mp hlt)),
        h.bounded _ _ hroute.steps⟩
  · rw [List.length_append, List.length_singleton]
    exact hbounded

end

/-- One region with the routes it consumes. -/
theorem emitRegion_ok (h : Emitted count
      (fun job => job ∈ allJobs groups ∧ job.route.consumerRegion < count) emission)
    (hregion : region.Unwired)
    (hrun : emitRegion groups emission (region, count) = .ok emission') :
    Emitted (count + 1)
      (fun job => job ∈ allJobs groups ∧ job.route.consumerRegion < count + 1) emission' := by
  rw [emitRegion_eq] at hrun
  obtain ⟨middle, hjobs, hrun⟩ := bind_eq_ok.mp hrun
  -- the routes looked at so far that end in this region are emitted
  have hmiddle := foldlM_prefix_inv (fun seen emission => Emitted count
    (fun job => (job ∈ allJobs groups ∧ job.route.consumerRegion < count) ∨
      (job ∈ seen ∧ job.route.consumerRegion = count)) emission) (allJobs groups) (by
    intro seen job rest emission₁ emission₂ hsplit hinv hstep
    unfold emitJob Blut.GraphCore.emitRoute at hstep
    split_ifs at hstep with hother
    · rw [← Except.ok.inj hstep]
      refine hinv.congr fun job' => or_congr_right ?_
      rw [List.mem_append, List.mem_singleton, or_and_right, or_iff_left]
      rintro ⟨rfl, heq⟩
      exact hother heq
    · rw [ne_eq, not_not] at hother
      obtain ⟨steps, hsteps, hstep⟩ := bind_eq_ok.mp hstep
      have hnd := allJobs_nodup groups
      have hmem : job ∈ allJobs groups := by
        rw [hsplit]
        exact List.mem_append_right _ List.mem_cons_self
      have hfresh : ∀ job', ((job' ∈ allJobs groups ∧ job'.route.consumerRegion < count) ∨
          (job' ∈ seen ∧ job'.route.consumerRegion = count)) → job'.key ≠ job.key := by
        rintro job' (⟨hjob', hlt⟩ | ⟨hseen, -⟩) hkey
        · rw [job_eq_of_key hjob' hmem hkey] at hlt
          exact absurd hother (Nat.ne_of_lt hlt)
        · rw [hsplit, List.nodup_append] at hnd
          have hjob' : job' ∈ allJobs groups := by
            rw [hsplit]
            exact List.mem_append_left _ hseen
          exact hnd.2.2 job' hseen job List.mem_cons_self (job_eq_of_key hjob' hmem hkey)
      refine (hinv.emitRoute hother hfresh hsteps (Except.ok.inj hstep).symm).congr fun job' => ?_
      rw [List.mem_append, List.mem_singleton, or_and_right, or_assoc]
      refine or_congr_right (or_congr_right ⟨fun heq => ⟨heq, heq ▸ hother⟩, And.left⟩))
    (h.congr fun job => by simp) hjobs
  rw [← Except.ok.inj hrun]
  refine (hmiddle.emitSemantic hregion ?_).congr fun job => ?_
  · rintro job (⟨-, hlt⟩ | ⟨-, heq⟩)
    · exact le_of_lt hlt
    · exact le_of_eq heq
  · rw [← and_or_left, Nat.lt_succ_iff_lt_or_eq]

/-- What `emitSteps` returns. -/
theorem emitSteps_ok (hregions : ∀ region ∈ regions, region.Unwired)
    (h : emitSteps groups regions = .ok emission) :
    Emitted regions.length
      (fun job => job ∈ allJobs groups ∧ job.route.consumerRegion < regions.length) emission := by
  have hall := foldlM_prefix_inv (fun done emission => Emitted done.length
    (fun job => job ∈ allJobs groups ∧ job.route.consumerRegion < done.length) emission)
    regions.zipIdx (by
    intro done region rest emission₁ emission₂ hsplit hinv hstep
    have hget : regions.zipIdx[done.length]? = some region := by
      rw [hsplit]
      simp
    rw [List.getElem?_zipIdx, Option.map_eq_some_iff] at hget
    obtain ⟨node, hnode, hregion⟩ := hget
    rw [← hregion, Nat.zero_add] at hstep
    rw [List.length_append, List.length_singleton]
    exact emitRegion_ok hinv (hregions node (List.mem_of_getElem? hnode)) hstep)
    (Emitted.start.congr fun job => by simp) h
  rw [List.length_zipIdx] at hall
  exact hall

end

end Blut.GraphCore
