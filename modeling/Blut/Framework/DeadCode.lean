/-
  Dead code elimination (`dag_opt.rs`: `eliminate_dead_code`).

  A node is live when it can be reached, over data edges and gates, from a root that has a
  successor. The live nodes keep their order and get new ids. A plan in which every node is live
  stays as it is. The parallel executor lets the optimizer run the pass before it runs a plan, the
  sequential one runs the plan as it was built (`preparePlan`).
-/
import Blut.Lib.Reachability
import Blut.Framework.Plan

namespace Blut.Framework

open Blut.Lib

variable {V : Type}

/-! ## The pass -/

/-- `plan_adjacency`. -/
def CompiledPlan.arcsFrom (plan : CompiledPlan V) (node : Nat) : List Nat :=
  (plan.arcs.filter fun arc => arc.1 = node).map Prod.snd

def CompiledPlan.arcsInto (plan : CompiledPlan V) (node : Nat) : List Nat :=
  (plan.arcs.filter fun arc => arc.2 = node).map Prod.fst

/-- The roots that start something. -/
def CompiledPlan.liveRoots (plan : CompiledPlan V) : List Nat :=
  if plan.nodes.length = 1 then [0]
  else (List.range plan.nodes.length).filter fun id =>
    (plan.arcsInto id).isEmpty && !(plan.arcsFrom id).isEmpty

def CompiledPlan.live (plan : CompiledPlan V) : Finset Nat :=
  reach plan.arcsFrom (Finset.range plan.nodes.length) plan.liveRoots ∅

/-- The ids that stay, and the new id of one of them. -/
def CompiledPlan.kept (plan : CompiledPlan V) : List Nat :=
  (List.range plan.nodes.length).filter fun id => id ∈ plan.live

def CompiledPlan.newId (plan : CompiledPlan V) (id : Nat) : Nat := plan.kept.idxOf id

theorem CompiledPlan.length_kept (plan : CompiledPlan V) :
    (plan.kept.filterMap fun id => plan.nodes[id]?).length = plan.kept.length := by
  refine List.filterMap_length_eq_length.mpr fun id hid => ?_
  simpa using List.mem_range.mp (List.mem_filter.mp hid).1

variable {plan : CompiledPlan V} {id : Nat}

/-- The plan without its dead nodes. -/
def CompiledPlan.pruneDead (plan : CompiledPlan V) : CompiledPlan V where
  nodes := plan.kept.filterMap fun id => plan.nodes[id]?
  edges := (plan.edges.filter fun e => e.src ∈ plan.kept ∧ e.dst ∈ plan.kept).map fun e =>
    ⟨plan.newId e.src, plan.newId e.dst⟩
  initial := fun id => plan.kept[id]?.bind plan.initial
  expansions := []
  conditionGates := (plan.conditionGates.filter fun g =>
    g.condition ∈ plan.kept ∧ g.target ∈ plan.kept).map fun g =>
      ⟨plan.newId g.condition, plan.newId g.target, g.when⟩
  inRange := by
    intro e he
    obtain ⟨e', he', rfl⟩ := List.mem_map.mp he
    have hkept := of_decide_eq_true (List.mem_filter.mp he').2
    rw [plan.length_kept]
    exact ⟨List.idxOf_lt_length_iff.mpr hkept.1, List.idxOf_lt_length_iff.mpr hkept.2⟩
  gated := by
    intro g hg
    obtain ⟨g', hg', rfl⟩ := List.mem_map.mp hg
    have hkept := of_decide_eq_true (List.mem_filter.mp hg').2
    rw [plan.length_kept]
    exact ⟨List.idxOf_lt_length_iff.mpr hkept.1, List.idxOf_lt_length_iff.mpr hkept.2⟩
  seeded := by
    intro id v h
    obtain ⟨old, hold, hseed⟩ := Option.bind_eq_some_iff.mp h
    obtain ⟨hlt, hget⟩ := List.getElem?_eq_some_iff.mp hold
    refine ⟨by rwa [plan.length_kept], ?_⟩
    -- an edge into the new id would come from one into the old
    rw [List.eq_nil_iff_forall_not_mem]
    intro p hp
    obtain ⟨e, he, heq⟩ := List.mem_map.mp (mem_predecessors.mp hp)
    obtain ⟨hedge, hkept⟩ := List.mem_filter.mp he
    have hid : plan.newId e.dst = plan.newId old := by
      have hnew : plan.newId old = id := by
        unfold CompiledPlan.newId
        rw [← hget]
        exact (List.nodup_range.filter _).idxOf_getElem id hlt
      rw [hnew]
      exact (PlanEdge.mk.inj heq).2
    have hdst := (List.idxOf_inj (of_decide_eq_true hkept).2).mp hid
    have hroot := (plan.seeded old v hseed).2
    have hpred : e.src ∈ predecessors plan.edges old := mem_predecessors.mpr (hdst ▸ hedge)
    rw [hroot] at hpred
    exact absurd hpred List.not_mem_nil

def CompiledPlan.eliminateDeadCode (plan : CompiledPlan V) : CompiledPlan V :=
  if plan.nodes.length = 0 ∨ plan.expansions ≠ [] ∨ plan.liveRoots = [] ∨
      plan.live.card = plan.nodes.length then plan
  else plan.pruneDead

/-! ## Plans without dead nodes -/

variable {order : List Nat}

theorem mem_arcsFrom {a b : Nat} : b ∈ plan.arcsFrom a ↔ (a, b) ∈ plan.arcs := by
  simp [CompiledPlan.arcsFrom]

theorem mem_arcsInto {a b : Nat} : a ∈ plan.arcsInto b ↔ (a, b) ∈ plan.arcs := by
  simp [CompiledPlan.arcsInto]

/-- The arcs never lead back. -/
def CompiledPlan.Acyclic (plan : CompiledPlan V) : Prop :=
  WellFounded fun a b => (a, b) ∈ plan.arcs

theorem CompiledPlan.acyclic_of_topoOrder (h : plan.topoOrder = .ok order) :
    plan.Acyclic := by
  have hordered := topoOrder_eq_ok h
  exact wellFounded_of_topological hordered.nodup hordered.topological
    (fun e he => (hordered.mem e.2).mpr (arcs_inRange plan he).2)

/-- Without a cycle every node of a plan is visited. -/
theorem CompiledPlan.Acyclic.topoOrder (h : plan.Acyclic) (hid : id < plan.nodes.length) :
    ∃ order, plan.topoOrder = .ok order := by
  obtain ⟨result, hnd, hmem, -, hwaits, hiff⟩ := topoOrder_visits plan
  have hall := visited_of_acyclic (fun v hcycle => h.transGen.asymmetric v v hcycle hcycle)
    (fun e he => List.mem_range.mpr (arcs_inRange plan he).1) hwaits
  have hperm := (List.perm_ext_iff_of_nodup hnd List.nodup_range).mpr fun v => ⟨hmem v, hall v⟩
  exact ⟨result, (hiff result).mpr ⟨by omega, hperm.length_eq.trans List.length_range, rfl⟩⟩

theorem liveRoots_lt (h : id ∈ plan.liveRoots) : id < plan.nodes.length := by
  unfold CompiledPlan.liveRoots at h
  split at h
  · rename_i hone
    rw [List.mem_singleton.mp h, hone]
    exact Nat.one_pos
  · exact List.mem_range.mp (List.mem_filter.mp h).1

theorem live_lt (h : id ∈ plan.live) : id < plan.nodes.length := by
  rcases reach_path h with hin | ⟨root, hroot, hpath⟩
  · exact absurd hin (Finset.notMem_empty id)
  · rcases Relation.ReflTransGen.cases_tail hpath with heq | ⟨p, -, hstep⟩
    · rw [heq]
      exact liveRoots_lt hroot
    · exact (arcs_inRange plan (mem_arcsFrom.mp hstep)).2

theorem mem_kept : id ∈ plan.kept ↔ id ∈ plan.live := by
  rw [CompiledPlan.kept, List.mem_filter, List.mem_range, decide_eq_true_eq]
  exact and_iff_right_of_imp live_lt

theorem live_eq_of_card (h : plan.live.card = plan.nodes.length) :
    plan.live = Finset.range plan.nodes.length :=
  Finset.eq_of_subset_of_card_le (fun id hid => Finset.mem_range.mpr (live_lt hid))
    (by rw [Finset.card_range, h])

/-- The live nodes contain the roots and what follows a live node. -/
theorem live_spec : (∀ x ∈ plan.liveRoots, x ∈ plan.live) ∧
    ∀ x ∈ plan.live, ∀ y ∈ plan.arcsFrom x, y ∈ plan.live := by
  have hnext : ∀ x ∈ Finset.range plan.nodes.length, ∀ y ∈ plan.arcsFrom x,
      y ∈ Finset.range plan.nodes.length := fun x _ y hy =>
    Finset.mem_range.mpr (arcs_inRange plan (mem_arcsFrom.mp hy)).2
  have hstack : ∀ x ∈ plan.liveRoots, x ∈ Finset.range plan.nodes.length := fun x hx =>
    Finset.mem_range.mpr (liveRoots_lt hx)
  exact reach_spec hnext hstack (by simp)

/-- A node with an arc is live: against the arcs one comes to a root. -/
theorem live_of_connected (hacyclic : plan.Acyclic) (hid : id < plan.nodes.length)
    (h : plan.arcsInto id ≠ [] ∨ plan.arcsFrom id ≠ []) : id ∈ plan.live := by
  induction id using hacyclic.induction with
  | h id ih =>
    cases hinto : plan.arcsInto id with
    | nil =>
      refine live_spec.1 id ?_
      unfold CompiledPlan.liveRoots
      split
      · rw [List.mem_singleton]
        omega
      · refine List.mem_filter.mpr ⟨List.mem_range.mpr hid, ?_⟩
        simp [hinto, h.resolve_left (not_not_intro hinto)]
    | cons p rest =>
      have harc : (p, id) ∈ plan.arcs := mem_arcsInto.mp (by simp [hinto])
      have hfrom := mem_arcsFrom.mpr harc
      exact live_spec.2 p (ih p harc (arcs_inRange plan harc).1 (Or.inr (List.ne_nil_of_mem hfrom)))
        id
        hfrom

/-- A single node is live, and so is every node where each one without an arc into it has one out
    of it. -/
theorem live_eq_range (hacyclic : plan.Acyclic)
    (hroots : plan.nodes.length = 1 ∨ ∀ id < plan.nodes.length, plan.arcsInto id = [] →
      plan.arcsFrom id ≠ []) :
    plan.live = Finset.range plan.nodes.length := by
  ext id
  rw [Finset.mem_range]
  refine ⟨live_lt, fun hid => ?_⟩
  rcases hroots with hone | hroots
  · refine live_spec.1 id ?_
    unfold CompiledPlan.liveRoots
    rw [if_pos hone, List.mem_singleton]
    omega
  · exact live_of_connected hacyclic hid (or_iff_not_imp_left.mpr fun hinto =>
      hroots id hid (not_not.mp hinto))

/-- Where every node without an arc into it has one out of it, nothing is dead. -/
theorem eliminateDeadCode_eq_self (horder : plan.topoOrder = .ok order)
    (hroots : ∀ id < plan.nodes.length, plan.arcsInto id = [] → plan.arcsFrom id ≠ []) :
    plan.eliminateDeadCode = plan := by
  have hcard : plan.live.card = plan.nodes.length := by
    rw [live_eq_range (CompiledPlan.acyclic_of_topoOrder horder) (Or.inr hroots), Finset.card_range]
  unfold CompiledPlan.eliminateDeadCode
  rw [if_pos (Or.inr (Or.inr (Or.inr hcard)))]

/-! ## Preparation -/

inductive PreparedExecutorMode where
  | sequential
  | parallel
  deriving DecidableEq

/-- `prepare_plan_with_mode`; of the optimizer's passes only the elimination of dead code changes
    the nodes. -/
def preparePlan (mode : PreparedExecutorMode) (deadCode : Bool) (plan : CompiledPlan V) :
    CompiledPlan V :=
  if mode = .parallel ∧ deadCode = true then plan.eliminateDeadCode else plan

/-- The ids of the nodes that the elimination leaves, in the order of their new ids. -/
def CompiledPlan.survivors (plan : CompiledPlan V) : List Nat :=
  if plan.nodes.length = 0 ∨ plan.expansions ≠ [] ∨ plan.liveRoots = [] ∨
      plan.live.card = plan.nodes.length then List.range plan.nodes.length
  else plan.kept

/-- The node of the plan behind each node that runs. -/
def origins (mode : PreparedExecutorMode) (deadCode : Bool) (plan : CompiledPlan V) : List Nat :=
  if mode = .parallel ∧ deadCode = true then plan.survivors else List.range plan.nodes.length

theorem preparePlan_sequential (deadCode : Bool) (plan : CompiledPlan V) :
    preparePlan .sequential deadCode plan = plan :=
  if_neg fun h => PreparedExecutorMode.noConfusion h.1

/-- When every node survives the plan is the same. -/
theorem eliminateDeadCode_of_survivors (h : ∀ id < plan.nodes.length, id ∈ plan.survivors) :
    plan.eliminateDeadCode = plan := by
  unfold CompiledPlan.eliminateDeadCode
  refine if_pos ?_
  by_contra hpruned
  unfold CompiledPlan.survivors at h
  rw [if_neg hpruned] at h
  have hlive : plan.live = Finset.range plan.nodes.length := by
    ext id
    rw [Finset.mem_range]
    exact ⟨live_lt, fun hid => mem_kept.mp (h id hid)⟩
  exact hpruned (Or.inr (Or.inr (Or.inr (by rw [hlive, Finset.card_range]))))

theorem survivors_of_eq (h : plan.eliminateDeadCode = plan) :
    plan.survivors = List.range plan.nodes.length := by
  unfold CompiledPlan.survivors
  split_ifs with hwhole
  · rfl
  · unfold CompiledPlan.eliminateDeadCode at h
    rw [if_neg hwhole] at h
    -- as many are kept as there were
    have hlength : plan.kept.length = (List.range plan.nodes.length).length := by
      rw [List.length_range, ← plan.length_kept]
      exact congrArg (fun plan => plan.nodes.length) h
    exact List.filter_sublist.eq_of_length hlength

/-- When every node is the origin of one that runs, the plan was left as it is. -/
theorem preparePlan_of_origins {mode : PreparedExecutorMode} {deadCode : Bool}
    (h : ∀ id < plan.nodes.length, id ∈ origins mode deadCode plan) :
    preparePlan mode deadCode plan = plan := by
  unfold preparePlan
  unfold origins at h
  split_ifs at h ⊢ with hoptimize
  · exact eliminateDeadCode_of_survivors h
  · rfl

end Blut.Framework
