/-
  What the coordinator keeps true while no error was recorded.

  The state is read as a board of the scheduling library: a node waits when it is ready or
  deferred behind a key, a completed node is credited when the in-degrees of its successors were
  lowered. `Tracked` says that this board is sound for the running graph and that the counters,
  keys and tasks agree with it. The lemmas of this file carry it through every part of a move;
  `Accounting` puts them together for whole runs.
-/
import Blut.Lib.Scheduling
import Blut.Framework.Coordinator

namespace Blut.Framework

open Blut.Lib

variable {V Key : Type}

/-! ## The network of a state -/

/-- Every target has one gate, and no selector is reached from a target. A plan with one gate is
    so when it has an order. -/
structure GatesApart (plan : CompiledPlan V) : Prop where
  distinct : (plan.conditionGates.map CompiledConditionGate.target).Nodup
  apart : ∀ g ∈ plan.conditionGates, ∀ g' ∈ plan.conditionGates,
    ¬ Relation.ReflTransGen (fun a b => (⟨a, b⟩ : PlanEdge) ∈ plan.edges) g.target g'.condition

def Setup.network (setup : Setup V Key) (s : Coordinator V Key) : Network Nat where
  nodes := {n | n < s.nodes.length}
  edge := fun p n => ⟨p, n⟩ ∈ s.edges
  gate := fun c t => ∃ g ∈ setup.plan.conditionGates, g.condition = c ∧ g.target = t
  link := fun p n => ∃ g ∈ setup.groups, [p, n] <:+: g

/-- The running graph: the plan, and after it graphs that are not connected to it. -/
structure Layout (plan : CompiledPlan V) (nodes : List PlanNode) (edges : List PlanEdge)
    (order : List Nat) : Prop where
  nodes_eq : ∃ extra, nodes = plan.nodes ++ extra
  edges_eq : ∃ extra, edges = plan.edges ++ extra ∧
    ∀ e ∈ extra, plan.nodes.length ≤ e.src ∧ plan.nodes.length ≤ e.dst
  inRange : edgesInRange edges nodes.length
  ordered : Ordered edges plan.conditionGates nodes.length order

namespace Layout

variable {plan : CompiledPlan V} {nodes : List PlanNode} {edges : List PlanEdge} {order : List Nat}

section

variable (h : Layout plan nodes edges order)
include h

theorem length_le : plan.nodes.length ≤ nodes.length := by
  obtain ⟨extra, hextra⟩ := h.nodes_eq
  rw [hextra, List.length_append]
  omega

theorem node_eq {n : Nat} (hn : n < plan.nodes.length) :
    nodes[n]? = plan.nodes[n]? := by
  obtain ⟨extra, hextra⟩ := h.nodes_eq
  rw [hextra, List.getElem?_append_left hn]

/-- An edge at a node of the plan is an edge of the plan. -/
theorem edge_mem {p n : Nat} (he : ⟨p, n⟩ ∈ edges)
    (hpn : p < plan.nodes.length ∨ n < plan.nodes.length) : ⟨p, n⟩ ∈ plan.edges := by
  obtain ⟨extra, hextra, hout⟩ := h.edges_eq
  rw [hextra, List.mem_append] at he
  rcases he with he | he
  · exact he
  · have hle := hout _ he
    dsimp only at hle
    omega

theorem path_mem {a b : Nat} (ha : a < plan.nodes.length)
    (hpath : Relation.ReflTransGen (fun x y => (⟨x, y⟩ : PlanEdge) ∈ edges) a b) :
    b < plan.nodes.length ∧
      Relation.ReflTransGen (fun x y => (⟨x, y⟩ : PlanEdge) ∈ plan.edges) a b := by
  induction hpath with
  | refl => exact ⟨ha, Relation.ReflTransGen.refl⟩
  | tail _ hstep ih =>
    have hedge := h.edge_mem hstep (Or.inl ih.1)
    exact ⟨(plan.inRange _ hedge).2, ih.2.tail hedge⟩

end

end Layout

/-! ## Links -/

variable {n p : Nat} {g credited : List Nat}

/-- Two neighbours in a list. -/
theorem tail_mem_iff : n ∈ g.tail ↔ ∃ p, [p, n] <:+: g := by
  constructor
  · induction g with
    | nil => simp
    | cons a rest ih =>
      cases rest with
      | nil => simp
      | cons b rest =>
        intro h
        rcases List.mem_cons.mp h with rfl | h
        · exact ⟨a, [], rest, rfl⟩
        · exact (ih h).imp fun p => List.infix_cons
  · rintro ⟨p, before, after, hsplit⟩
    rw [← hsplit]
    cases before with
    | nil => simp
    | cons b before => simp

theorem linked_of_neighbours {plan : CompiledPlan V} (hchain : g.IsChain (Linked plan))
    (h : [p, n] <:+: g) : Linked plan p n := by
  have hpair := List.IsChain.infix hchain h
  exact (List.isChain_cons_cons.mp hpair).1

section Network

variable {setup : Setup V Key} {s : Coordinator V Key}

theorem Setup.inner_iff (n : Nat) : (setup.network s).Inner n ↔ n ∈ setup.fusedInternal := by
  unfold Setup.fusedInternal Network.Inner
  rw [List.mem_flatMap]
  constructor
  · rintro ⟨p, g, hg, hin⟩
    exact ⟨g, hg, tail_mem_iff.mpr ⟨p, hin⟩⟩
  · rintro ⟨g, hg, hn⟩
    obtain ⟨p, hin⟩ := tail_mem_iff.mp hn
    exact ⟨p, g, hg, hin⟩

theorem Setup.isTarget_iff (n : Nat) :
    setup.isTarget n = true ↔ ∃ c, (setup.network s).gate c n := by
  unfold Setup.isTarget
  rw [List.any_eq_true]
  constructor
  · rintro ⟨g, hg, ht⟩
    exact ⟨g.condition, g, hg, rfl, of_decide_eq_true ht⟩
  · rintro ⟨c, g, hg, -, ht⟩
    exact ⟨g, hg, decide_eq_true ht⟩

/-- The network of a laid out state is well formed. -/
theorem Setup.network_wf (hgates : GatesApart setup.plan)
    (hlayout : Layout setup.plan s.nodes s.edges s.order) : (setup.network s).Wf := by
  have hlink : ∀ {p n}, (setup.network s).link p n → Linked setup.plan p n := by
    rintro p n ⟨g, hg, hin⟩
    exact linked_of_neighbours (setup.grouped.chain g hg) hin
  have hold : ∀ {p n}, Linked setup.plan p n → n < setup.plan.nodes.length := fun hl =>
    (setup.plan.inRange _ hl.edge).2
  refine ⟨fun he => hlayout.inRange _ he, ?_, ?_, ?_, ?_, ?_, ?_, ?_⟩
  · rintro c t ⟨g, hg, rfl, rfl⟩
    have hin := setup.plan.gated g hg
    have hle := hlayout.length_le
    show g.condition < s.nodes.length ∧ g.target < s.nodes.length
    omega
  · have hwf := wellFounded_of_topological hlayout.ordered.nodup hlayout.ordered.topological
      (fun e he => (hlayout.ordered.mem e.2).mpr ?_)
    · refine Subrelation.wf (fun {p n} hpn => ?_) hwf
      rcases hpn with he | ⟨g, hg, rfl, rfl⟩
      · exact mem_arcsOf.mpr (Or.inl he)
      · exact mem_arcsOf.mpr (Or.inr ⟨g, hg, rfl, rfl⟩)
    · rcases mem_arcsOf.mp he with hedge | ⟨g, hg, -, ht⟩
      · exact (hlayout.inRange _ hedge).2
      · rw [← ht]
        exact lt_of_lt_of_le (setup.plan.gated g hg).2 hlayout.length_le
  · rintro c c' t ⟨g, hg, rfl, ht⟩ ⟨g', hg', rfl, ht'⟩
    rw [List.inj_on_of_nodup_map hgates.distinct hg hg' (ht.trans ht'.symm)]
  · rintro c t c' t' ⟨g, hg, rfl, rfl⟩ ⟨g', hg', rfl, rfl⟩ hpath
    exact hgates.apart g hg g' hg' (hlayout.path_mem (setup.plan.gated g hg).2 hpath).2
  · intro p n hpn
    obtain ⟨extra, hextra, -⟩ := hlayout.edges_eq
    show ⟨p, n⟩ ∈ s.edges
    rw [hextra]
    exact List.mem_append_left _ (hlink hpn).edge
  · intro p q n hpn hqn
    have hl := hlink hpn
    have hq : q ∈ predecessors setup.plan.edges n :=
      mem_predecessors.mpr (hlayout.edge_mem hqn (Or.inr (hold hl)))
    rw [hl.pred] at hq
    exact List.mem_singleton.mp hq
  · rintro p c n ⟨g, hg, -⟩ ⟨gate, hgate, -⟩
    have hplain := (setup.grouped.plain (List.ne_nil_of_mem hg)).2
    rw [hplain] at hgate
    exact absurd hgate List.not_mem_nil

end Network

/-! ## What is tracked -/

variable {edges : List PlanEdge}

/-- A node is ready, or deferred behind a key. -/
def Coordinator.Waiting (s : Coordinator V Key) (n : Nat) : Prop :=
  n ∈ s.ready ∨ ∃ key, n ∈ s.deferred key

def Coordinator.board (s : Coordinator V Key) (credited : List Nat)
    (decided : Set Nat) : Board Nat where
  waiting := {n | s.Waiting n}
  started := {n | n ∈ s.started}
  completed := {n | n ∈ s.completed}
  credited := {n | n ∈ credited}
  pruned := {n | n ∈ s.pruned}
  enabled := {n | n ∈ s.enabledConditionTargets}
  decided := decided

/-- A waiting node is in one place. -/
structure Places (ready : Finset Nat) (deferred : Key → List Nat) : Prop where
  apart : ∀ n ∈ ready, ∀ key, n ∉ deferred key
  once : ∀ n key key', n ∈ deferred key → n ∈ deferred key' → key = key'

/-- The keys in flight are those of the holders, and nodes are deferred behind these only. -/
structure Keyed (holders : List (Nat × Key)) (nodeKeyOf : Nat → Option Key)
    (inflightKeys : Finset Key) (deferred : Key → List Nat) : Prop where
  heads : (holders.map Prod.fst).Nodup
  keys : (holders.map Prod.snd).Nodup
  nodeKey : ∀ n key, nodeKeyOf n = some key ↔ (n, key) ∈ holders
  inflight : ∀ key, key ∈ inflightKeys ↔ key ∈ holders.map Prod.snd
  behind : ∀ n key, n ∈ deferred key → key ∈ holders.map Prod.snd

/-- The edges as pairs. -/
def pairsOf (edges : List PlanEdge) : List (Nat × Nat) := edges.map fun e => (e.src, e.dst)

theorem mem_pairsOf : (p, n) ∈ pairsOf edges ↔ ⟨p, n⟩ ∈ edges := by
  unfold pairsOf
  rw [List.mem_map]
  constructor
  · rintro ⟨e, he, heq⟩
    obtain ⟨rfl, rfl⟩ := Prod.mk.inj heq
    exact he
  · exact fun h => ⟨⟨p, n⟩, h, rfl⟩

theorem successors_eq (edges : List PlanEdge) (n : Nat) :
    successors edges n = ((pairsOf edges).filter fun e => e.1 = n).map Prod.snd := by
  unfold successors pairsOf
  rw [List.filter_map, List.map_map]
  rfl

/-- No input is missing. -/
theorem unvisitedInto_eq_zero :
    unvisitedInto (pairsOf edges) credited n = 0 ↔ ∀ p, ⟨p, n⟩ ∈ edges → p ∈ credited := by
  unfold unvisitedInto
  rw [List.countP_eq_zero]
  constructor
  · intro h p hp
    have hnot := h (p, n) (mem_pairsOf.mpr hp)
    simpa using hnot
  · rintro h ⟨p, m⟩ he hcount
    have hboth : m = n ∧ p ∉ credited := by simpa using hcount
    exact hboth.2 (h p (hboth.1 ▸ mem_pairsOf.mp he))

/-- The running nodes are the started ones that have neither completed nor been pruned. -/
structure Busy (running started completed : List Nat) (pruned : Finset Nat) : Prop where
  nodup : running.Nodup
  completed_nodup : completed.Nodup
  mem : ∀ n, n ∈ running ↔ n ∈ started ∧ n ∉ completed ∧ n ∉ pruned

/-- Outputs and decisions are those of the nodes that completed. -/
structure Values (setup : Setup V Key) (decided : Set Nat) (enabled pruned : Finset Nat)
    (outcomes : List (Nat × V)) (outputs : Nat → Option V) : Prop where
  done : ∀ n v, (n, v) ∈ outcomes → outputs n = some v
  lost : ∀ n ∈ pruned, outputs n = none
  passed : ∀ g ∈ setup.plan.conditionGates, g.target ∈ enabled →
    ∃ v, (g.condition, v) ∈ outcomes ∧ setup.runtime.decision v = some g.when
  refused : ∀ g ∈ setup.plan.conditionGates, g.target ∈ decided → g.target ∉ enabled →
    ∃ v b, (g.condition, v) ∈ outcomes ∧ setup.runtime.decision v = some b ∧ b ≠ g.when

def Coordinator.running (s : Coordinator V Key) : List Nat := s.join.flatMap Task.members

/-- The invariant. `rest` are the members of a task whose outcomes are still to be processed. -/
structure Tracked (setup : Setup V Key) (rest credited : List Nat) (decided : Set Nat)
    (holders : List (Nat × Key)) (s : Coordinator V Key) : Prop where
  layout : Layout setup.plan s.nodes s.edges s.order
  sound : Sound (setup.network s) (s.board credited decided)
  places : Places s.ready s.deferred
  indeg : ∀ n, s.indeg n = unvisitedInto (pairsOf s.edges) credited n
  keyed : Keyed holders s.nodeKeyOf s.inflightKeys s.deferred
  busy : Busy (rest ++ s.running) s.started s.completed s.pruned
  values : Values setup decided s.enabledConditionTargets s.pruned s.outcomes s.outputs
  whole : ∀ g ∈ setup.groups, ∀ a ∈ g, ∀ b ∈ g, a ∈ s.started → b ∈ s.started
  tails : ∀ task ∈ s.join, task.tail = setup.tailOf task.head

/-- Between two moves: nothing is half processed. -/
def Setup.decidedTargets (setup : Setup V Key) (s : Coordinator V Key) : Set Nat :=
  {t | ∃ c, (setup.network s).gate c t ∧ c ∈ s.completed}

def Coordinator.holders (s : Coordinator V Key) : List (Nat × Key) :=
  s.join.map fun task => (task.head, task.key)

def Settled (setup : Setup V Key) (s : Coordinator V Key) : Prop :=
  Tracked setup [] s.completed (setup.decidedTargets s) s.holders s

/-! ## Groups -/

section Groups

variable {setup : Setup V Key} {s : Coordinator V Key}

/-- The task of a node is its group, or the node alone when no group starts with it. -/
theorem Setup.tailOf_spec (setup : Setup V Key) (node : Nat) :
    (node :: setup.tailOf node) ∈ setup.groups ∨
      (setup.tailOf node = [] ∧ ∀ g ∈ setup.groups, g.head? ≠ some node) := by
  unfold Setup.tailOf
  split
  · rename_i g hfind
    have hhead : g.head? = some node := by simpa using List.find?_some hfind
    have hg : node :: g.tail = g := List.cons_head?_tail hhead
    rw [hg]
    exact Or.inl (List.mem_of_find?_eq_some hfind)
  · rename_i hnone
    refine Or.inr ⟨rfl, fun g hg hhead => ?_⟩
    exact absurd hhead (by simpa using List.find?_eq_none.mp hnone g hg)

/-- Two groups with a common node are one. -/
theorem Setup.group_unique {g' : List Nat} (hg : g ∈ setup.groups) (hg' : g' ∈ setup.groups)
    (hn : n ∈ g) (hn' : n ∈ g') : g = g' := by
  by_contra hne
  have hsymm : Std.Symm (@List.Disjoint Nat) := ⟨fun _ _ hdis => hdis.symm⟩
  have hpair := (List.nodup_flatten.mp setup.grouped.apart).2
  exact hpair.forall hg hg' hne hn hn'

end Groups

/-! ## The start of the loop -/

theorem Setup.start_completed (setup : Setup V Key) : setup.start.completed = [] := rfl

theorem Setup.start_decided (setup : Setup V Key) : setup.decidedTargets setup.start = ∅ := by
  unfold Setup.decidedTargets
  rw [setup.start_completed]
  simp

theorem Setup.start_waiting (setup : Setup V Key) (n : Nat) :
    setup.start.Waiting n ↔ n ∈ (setup.network setup.start).nodes ∧
      (∀ p, ¬ (setup.network setup.start).edge p n) ∧
        ∀ c, ¬ (setup.network setup.start).gate c n := by
  have htarget : setup.isTarget n = false ↔ ∀ c, ¬ (setup.network setup.start).gate c n := by
    rw [← Bool.not_eq_true, setup.isTarget_iff n, not_exists]
  have hpred : predecessors setup.plan.edges n = [] ↔
      ∀ p, ¬ (setup.network setup.start).edge p n := by
    rw [List.eq_nil_iff_forall_not_mem]
    exact forall_congr' fun p => not_congr mem_predecessors
  rw [← htarget, ← hpred]
  simp [Coordinator.Waiting, Setup.start, Setup.network]

theorem settled_start (setup : Setup V Key) : Settled setup setup.start := by
  have hlayout : Layout setup.plan setup.start.nodes setup.start.edges setup.start.order :=
    ⟨⟨[], by simp [Setup.start]⟩, ⟨[], by simp [Setup.start], by simp⟩, setup.plan.inRange,
      topoOrder_eq_ok setup.ordered⟩
  have hlink : ∀ p n, (setup.network setup.start).link p n →
      (setup.network setup.start).edge p n := by
    rintro p n ⟨g, hg, hin⟩
    exact (linked_of_neighbours (setup.grouped.chain g hg) hin).edge
  have hboard : setup.start.board [] ∅ = ⟨{n | setup.start.Waiting n}, ∅, ∅, ∅, ∅, ∅, ∅⟩ := by
    ext n <;> simp [Coordinator.board, Setup.start, Coordinator.completed]
  unfold Settled
  rw [setup.start_completed, setup.start_decided]
  refine ⟨hlayout, ?_, ⟨by simp [Setup.start], by simp [Setup.start]⟩, ?_,
    ⟨List.nodup_nil, List.nodup_nil, by simp [Setup.start, Coordinator.holders],
      by simp [Setup.start, Coordinator.holders], by simp [Setup.start]⟩,
    ⟨List.nodup_nil, List.nodup_nil, by simp [Setup.start, Coordinator.running]⟩,
    ⟨by simp [Setup.start], by simp [Setup.start], by simp [Setup.start], by simp⟩,
    by simp [Setup.start], by simp [Setup.start]⟩
  · rw [hboard]
    exact Sound.initial hlink setup.start_waiting
  · intro n
    show (predecessors setup.plan.edges n).length = unvisitedInto (pairsOf setup.plan.edges) [] n
    unfold predecessors unvisitedInto pairsOf
    rw [List.length_map, ← List.countP_eq_length_filter, List.countP_map]
    congr 1
    funext e
    simp

/-! ## Dispatch -/

section Dispatch

variable {setup : Setup V Key} {s : Coordinator V Key}

variable {rest : List Nat} {decided : Set Nat} {holders : List (Nat × Key)} {node : Nat} {key : Key}

/-- The nodes linked behind a waiting node. -/
theorem Tracked.group_fresh (h : Tracked setup rest credited decided holders s)
    (hwait : s.Waiting node) : ∀ n ∈ node :: setup.tailOf node, n ∉ s.started := by
  have hnode : node ∉ s.started := h.sound.waiting_new node hwait
  rcases setup.tailOf_spec node with hg | ⟨hnil, -⟩
  · exact fun n hn hs => hnode (h.whole _ hg n hn node List.mem_cons_self hs)
  · rw [hnil]
    exact List.forall_mem_singleton.mpr hnode

/-- Every member of a group but the first is linked to one before it. -/
theorem Setup.group_linked (setup : Setup V Key) (s : Coordinator V Key)
    (hn : n ∈ node :: setup.tailOf node) (hne : n ≠ node) :
    ∃ p ∈ node :: setup.tailOf node, (setup.network s).link p n := by
  have htail : n ∈ (node :: setup.tailOf node).tail := (List.mem_cons.mp hn).resolve_left hne
  rcases setup.tailOf_spec node with hg | ⟨hnil, -⟩
  · obtain ⟨p, hin⟩ := tail_mem_iff.mp htail
    exact ⟨p, hin.subset (by simp), _, hg, hin⟩
  · rw [hnil] at htail
    exact absurd htail List.not_mem_nil

theorem Tracked.group_lt (h : Tracked setup rest credited decided holders s)
    (hwait : s.Waiting node) : ∀ n ∈ node :: setup.tailOf node, n < s.nodes.length := by
  intro n hn
  by_cases hne : n = node
  · rw [hne]
    exact h.sound.waiting_mem node hwait
  · obtain ⟨p, -, g, hg, hin⟩ := setup.group_linked s hn hne
    have hedge := (linked_of_neighbours (setup.grouped.chain g hg) hin).edge
    exact lt_of_lt_of_le (setup.plan.inRange _ hedge).2 h.layout.length_le

/-- A group that shares a member with the task of an outer node is that task. -/
theorem Setup.group_eq (setup : Setup V Key) (s : Coordinator V Key)
    (houter : ¬ (setup.network s).Inner node) (hp : p ∈ node :: setup.tailOf node)
    (hg : g ∈ setup.groups) (hpg : p ∈ g) : g = node :: setup.tailOf node := by
  rcases setup.tailOf_spec node with hgroup | ⟨hnil, hhead⟩
  · exact setup.group_unique hg hgroup hpg hp
  · -- alone, it would have to be inside a group
    rw [hnil] at hp
    rw [List.mem_singleton.mp hp] at hpg
    exfalso
    cases g with
    | nil => exact absurd hpg List.not_mem_nil
    | cons a rest =>
      rcases List.mem_cons.mp hpg with rfl | hrest
      · exact hhead _ hg rfl
      · obtain ⟨q, hq⟩ := tail_mem_iff.mp (show node ∈ (a :: rest).tail from hrest)
        exact houter ⟨q, _, hg, hq⟩

/-- The members of the group of a waiting node are not pruned. -/
theorem Tracked.group_kept (hgates : GatesApart setup.plan)
    (h : Tracked setup rest credited decided holders s) (hwait : s.Waiting node) :
    ∀ n ∈ node :: setup.tailOf node, n ∉ s.pruned := by
  have hnode : node ∉ s.pruned := h.sound.waiting_kept node hwait
  rcases setup.tailOf_spec node with hg | ⟨hnil, -⟩
  · -- along the chain, from the head
    refine List.IsChain.induction (· ∉ s.pruned) _
      (List.IsChain.iff_mem.mp (List.isChain_isInfix _))
      ?_ fun _ => hnode
    rintro a b ⟨-, hb, hin⟩ ha
    exact h.sound.linked_kept (setup.network_wf hgates h.layout) ⟨_, hg, hin⟩ ha
      (h.group_fresh hwait b hb)
  · rw [hnil]
    exact List.forall_mem_singleton.mpr hnode

theorem Setup.group_nodup (setup : Setup V Key) (node : Nat) :
    (node :: setup.tailOf node).Nodup := by
  rcases setup.tailOf_spec node with hg | ⟨hnil, -⟩
  · exact (List.nodup_flatten.mp setup.grouped.apart).1 _ hg
  · rw [hnil]
    exact List.nodup_singleton node

theorem Tracked.holder_started (h : Tracked setup rest credited decided s.holders s)
    (hn : n ∈ s.holders.map Prod.fst) : n ∈ s.started := by
  obtain ⟨holder, hholder, rfl⟩ := List.mem_map.mp hn
  obtain ⟨task, htask, rfl⟩ := List.mem_map.mp hholder
  have hrun : task.head ∈ rest ++ s.running :=
    List.mem_append_right _ (List.mem_flatMap.mpr ⟨task, htask, List.mem_cons_self⟩)
  exact ((h.busy.mem _).mp hrun).1

variable [DecidableEq Key]

theorem Keyed.add {nodeKeyOf : Nat → Option Key} {inflightKeys : Finset Key}
    {deferred : Key → List Nat} (h : Keyed holders nodeKeyOf inflightKeys deferred)
    (hnode : node ∉ holders.map Prod.fst) (hkey : key ∉ inflightKeys) :
    Keyed (holders ++ [(node, key)]) (Function.update nodeKeyOf node (some key))
      (insert key inflightKeys) deferred := by
  rw [h.inflight] at hkey
  refine ⟨?_, ?_, ?_, ?_, ?_⟩
  · simpa using h.heads.concat hnode
  · simpa using h.keys.concat hkey
  · intro n k
    rw [List.mem_append, List.mem_singleton]
    by_cases hn : n = node
    · rw [hn, Function.update_self, or_iff_right fun hmem => hnode (List.mem_map_of_mem hmem)]
      simp [eq_comm]
    · rw [Function.update_of_ne hn, h.nodeKey, or_iff_left fun heq => hn (congrArg Prod.fst heq)]
  · intro k
    rw [Finset.mem_insert, h.inflight, List.map_append, List.mem_append, or_comm]
    simp
  · intro n k hn
    rw [List.map_append, List.mem_append]
    exact Or.inl (h.behind n k hn)

theorem Settled.spawn (hgates : GatesApart setup.plan) (h : Settled setup s) (input : V)
    (hready : node ∈ s.ready) (hkey : key ∉ s.inflightKeys) :
    Settled setup (s.spawn ⟨node, setup.tailOf node, input, key⟩) := by
  have hwait : s.Waiting node := Or.inl hready
  have hfresh := h.group_fresh hwait
  have hkept := h.group_kept hgates hwait
  have houter := h.sound.waiting_outer node hwait
  have hboard : (s.spawn ⟨node, setup.tailOf node, input, key⟩).board s.completed
        (setup.decidedTargets s) =
      { s.board s.completed (setup.decidedTargets s) with
        waiting := (s.board s.completed (setup.decidedTargets s)).waiting \ {node}
        started := (s.board s.completed (setup.decidedTargets s)).started ∪
          {n | n ∈ node :: setup.tailOf node} } := by
    have hplace := h.places.apart node hready
    ext n
    · show (n ∈ s.ready.erase node ∨ ∃ k, n ∈ s.deferred k) ↔
        (n ∈ s.ready ∨ ∃ k, n ∈ s.deferred k) ∧ ¬ n = node
      rw [Finset.mem_erase, and_comm, or_and_right]
      refine or_congr_right (and_iff_left_of_imp ?_).symm
      rintro ⟨k, hk⟩ rfl
      exact hplace k hk
    · simp [Coordinator.board, Coordinator.spawn, Task.members]
    all_goals rfl
  refine { h with
    sound := ?_, places := ?_, keyed := ?_, busy := ?_, whole := ?_, tails := ?_ }
  · show Sound (setup.network s) ((s.spawn ⟨node, setup.tailOf node, input, key⟩).board s.completed
      (setup.decidedTargets s))
    rw [hboard]
    refine h.sound.start (setup.network_wf hgates h.layout) hwait List.mem_cons_self
      (h.group_lt hwait) (fun n hn hne => setup.group_linked s hn hne) ?_
    rintro p hp n ⟨g, hg, hin⟩
    exact setup.group_eq s houter hp hg (hin.subset (by simp)) ▸ hin.subset (by simp)
  · exact ⟨fun n hn => h.places.apart n (Finset.mem_of_mem_erase hn), h.places.once⟩
  · have hnode : node ∉ s.holders.map Prod.fst := fun hn =>
      h.sound.waiting_new node hwait (h.holder_started hn)
    have hadd := h.keyed.add hnode hkey
    have hholders : (s.spawn ⟨node, setup.tailOf node, input, key⟩).holders =
        s.holders ++ [(node, key)] := by
      simp [Coordinator.holders, Coordinator.spawn]
    rw [hholders]
    exact hadd
  · have hrunning : (s.spawn ⟨node, setup.tailOf node, input, key⟩).running =
        s.running ++ (node :: setup.tailOf node) := by
      simp [Coordinator.running, Coordinator.spawn, Task.members]
    have hbusy := h.busy
    rw [List.nil_append] at hbusy ⊢
    rw [hrunning]
    refine ⟨?_, hbusy.completed_nodup, ?_⟩
    · rw [List.nodup_append]
      refine ⟨hbusy.nodup, setup.group_nodup node, fun a ha b hb hab => ?_⟩
      exact hfresh b hb (hab ▸ ((hbusy.mem a).mp ha).1)
    · intro n
      show n ∈ s.running ++ (node :: setup.tailOf node) ↔
        n ∈ s.started ++ (node :: setup.tailOf node) ∧ n ∉ s.completed ∧ n ∉ s.pruned
      rw [List.mem_append, List.mem_append, hbusy.mem, or_and_right]
      exact or_congr_right (and_iff_left_of_imp fun hn =>
        ⟨fun hc => hfresh n hn (h.sound.completed_started n hc), hkept n hn⟩).symm
  · intro g hg a ha b hb hs
    rcases List.mem_append.mp hs with hs | hs
    · exact List.mem_append_left _ (h.whole g hg a ha b hb hs)
    · refine List.mem_append_right _ ?_
      show b ∈ node :: setup.tailOf node
      rw [← setup.group_eq s houter hs hg ha]
      exact hb
  · intro task htask
    rcases List.mem_append.mp htask with ht | ht
    · exact h.tails task ht
    · rw [List.mem_singleton.mp ht]

theorem Settled.defer (h : Settled setup s) (hready : node ∈ s.ready)
    (hkey : key ∈ s.inflightKeys) : Settled setup (s.defer node key) := by
  have hplace := h.places.apart node hready
  have hdeferred : ∀ n k, n ∈ (s.defer node key).deferred k ↔
      n ∈ s.deferred k ∨ (n = node ∧ k = key) := by
    intro n k
    unfold Coordinator.defer
    by_cases hk : k = key
    · subst hk
      simp
    · simp [hk]
  have hboard : (s.defer node key).board s.completed (setup.decidedTargets s) =
      s.board s.completed (setup.decidedTargets s) := by
    ext n
    · show (n ∈ s.ready.erase node ∨ ∃ k, n ∈ (s.defer node key).deferred k) ↔
        (n ∈ s.ready ∨ ∃ k, n ∈ s.deferred k)
      simp only [Finset.mem_erase, hdeferred, exists_or, exists_and_left, exists_eq, and_true]
      by_cases hn : n = node
      · simp [hn, hready]
      · simp [hn]
    all_goals rfl
  refine { h with sound := ?_, places := ⟨?_, ?_⟩, keyed := { h.keyed with behind := ?_ } }
  · show Sound (setup.network s) ((s.defer node key).board s.completed (setup.decidedTargets s))
    rw [hboard]
    exact h.sound
  · intro n hn k hk
    obtain ⟨hne, hn⟩ := Finset.mem_erase.mp hn
    rcases (hdeferred n k).mp hk with hk | ⟨heq, -⟩
    · exact h.places.apart n hn k hk
    · exact hne heq
  · intro n k k' hk hk'
    rcases (hdeferred n k).mp hk with hold | ⟨hn, hkey⟩
    · rcases (hdeferred n k').mp hk' with hold' | ⟨hn, -⟩
      · exact h.places.once n k k' hold hold'
      · exact absurd (hn ▸ hold) (hplace k)
    · rcases (hdeferred n k').mp hk' with hold' | ⟨-, hkey'⟩
      · exact absurd (hn ▸ hold') (hplace k')
      · exact hkey.trans hkey'.symm
  · intro n k hk
    rcases (hdeferred n k).mp hk with hk | ⟨-, rfl⟩
    · exact h.keyed.behind n k hk
    · exact (h.keyed.inflight k).mp hkey

/-- Taking a ready node, when no error comes of it. -/
theorem Settled.dispatch (hgates : GatesApart setup.plan) (h : Settled setup s)
    (hready : node ∈ s.ready) (hok : (setup.dispatch s node).firstError = none) :
    Settled setup (setup.dispatch s node) := by
  have hkept : node ∉ s.pruned := h.sound.waiting_kept node (Or.inl hready)
  unfold Setup.dispatch at hok ⊢
  rw [if_neg hkept] at hok ⊢
  unfold Setup.admit at hok ⊢
  split at hok
  · simp [Coordinator.failWith] at hok
  · simp [Coordinator.failWith] at hok
  · dsimp only
    split_ifs with hkey
    · exact h.defer hready hkey
    · exact h.spawn hgates _ hready hkey

end Dispatch

end Blut.Framework
