/-
  Sub-plans that join a running graph (`inject_spawn`).

  The nodes of a sub-plan get the ids after those of the running graph, and no edge connects the
  two. `Settled.extend` carries the invariant over one sub-plan, `Settled.drain` over all the
  pending ones.
-/
import Blut.Framework.Tracking

namespace Blut.Framework

open Blut.Lib

variable {V Key : Type}

/-! ## The graph -/

variable {edges edges' : List PlanEdge} {n : Nat} {order' order : List Nat}

/-- The order of two graphs side by side. -/
theorem Ordered.append {gates : List CompiledConditionGate} {k : Nat}
    (h : Ordered edges gates n order) (h' : Ordered edges' [] k order')
    (hedges : edgesInRange edges n) (hgates : gatesInRange gates n) :
    Ordered (edges ++ edges'.map (PlanEdge.shift n)) gates (n + k)
      (order ++ order'.map (· + n)) := by
  have hshift : ∀ v, v ∈ order'.map (· + n) ↔ n ≤ v ∧ v < n + k := by
    intro v
    rw [List.mem_map]
    constructor
    · rintro ⟨w, hw, rfl⟩
      have hlt := (h'.mem w).mp hw
      omega
    · rintro ⟨hle, hlt⟩
      exact ⟨v - n, (h'.mem _).mpr (by omega), by omega⟩
  refine ⟨?_, fun v => ?_, ?_⟩
  · have hinj : (order'.map (· + n)).Nodup := h'.nodup.map fun a b hab =>
      Nat.add_right_cancel hab
    refine List.nodup_append'.mpr ⟨h.nodup, hinj, fun v hv hv' => ?_⟩
    have hlt := (h.mem v).mp hv
    have hle := ((hshift v).mp hv').1
    omega
  · rw [List.mem_append, h.mem, hshift]
    omega
  · -- no arc leaves its part
    have htop : Topological (arcsOf (edges'.map (PlanEdge.shift n)) []) (order'.map (· + n)) := by
      refine h'.topological.map (· + n) fun src node hsrc => ?_
      rcases mem_arcsOf.mp hsrc with he | ⟨g, hg, -⟩
      · obtain ⟨⟨p', n'⟩, he', heq⟩ := List.mem_map.mp he
        unfold PlanEdge.shift at heq
        obtain ⟨hsrc', hdst⟩ := PlanEdge.mk.inj heq
        dsimp only at hsrc' hdst
        have hnode : n' = node := by omega
        subst hnode
        exact ⟨p', hsrc'.symm, mem_arcsOf.mpr (Or.inl he')⟩
      · exact absurd hg List.not_mem_nil
    refine h.topological.append_list htop ?_ ?_
    · intro src node hnode hsrc
      have hlt := (h.mem node).mp hnode
      rcases mem_arcsOf.mp hsrc with he | hg
      · rcases mem_append_shift.mp he with he | ⟨p', n', -, -, hn'⟩
        · exact mem_arcsOf.mpr (Or.inl he)
        · omega
      · exact mem_arcsOf.mpr (Or.inr hg)
    · intro src node hnode hsrc
      have hle := ((hshift node).mp hnode).1
      rcases mem_arcsOf.mp hsrc with he | ⟨g, hg, -, ht⟩
      · rcases List.mem_append.mp he with he | he
        · have hr := (hedges _ he).2
          dsimp only at hr
          omega
        · exact mem_arcsOf.mpr (Or.inl he)
      · have hr := (hgates g hg).2
        omega

theorem Layout.append {plan : CompiledPlan V} {nodes nodes' : List PlanNode}
    (h : Layout plan nodes edges order) (hrange : edgesInRange edges' nodes'.length)
    (h' : Ordered edges' [] nodes'.length order') :
    Layout plan (nodes ++ nodes') (edges ++ edges'.map (PlanEdge.shift nodes.length))
      (order ++ order'.map (· + nodes.length)) := by
  have hle := h.length_le
  have hgates : gatesInRange plan.conditionGates nodes.length := by
    intro g hg
    have hin := plan.gated g hg
    omega
  refine ⟨?_, ?_, ?_, ?_⟩
  · obtain ⟨extra, hextra⟩ := h.nodes_eq
    exact ⟨extra ++ nodes', by rw [hextra, List.append_assoc]⟩
  · obtain ⟨extra, hextra, hout⟩ := h.edges_eq
    refine ⟨extra ++ edges'.map (PlanEdge.shift nodes.length), by rw [hextra, List.append_assoc],
      ?_⟩
    intro e he
    rcases List.mem_append.mp he with he | he
    · exact hout e he
    · obtain ⟨e', -, rfl⟩ := List.mem_map.mp he
      show plan.nodes.length ≤ e'.src + nodes.length ∧ plan.nodes.length ≤ e'.dst + nodes.length
      omega
  · rw [List.length_append]
    exact edgesInRange_append h.inRange hrange
  · rw [List.length_append]
    exact h.ordered.append h' h.inRange hgates

/-! ## One sub-plan -/

section Extend

variable {setup : Setup V Key} {s : Coordinator V Key} {delta : SpawnDelta V}
  {localOrder : List Nat}

theorem Coordinator.extend_length (s : Coordinator V Key) (delta : SpawnDelta V)
    (localOrder : List Nat) :
    (s.extend delta localOrder).nodes.length = s.nodes.length + delta.subplan.nodes.length := by
  unfold Coordinator.extend
  rw [List.length_append, List.length_map]

theorem Coordinator.extend_edge {p : Nat} : ⟨p, n⟩ ∈ (s.extend delta localOrder).edges ↔
      ⟨p, n⟩ ∈ s.edges ∨ ∃ p' n', ⟨p', n'⟩ ∈ delta.subplan.edges ∧
        p = p' + s.nodes.length ∧ n = n' + s.nodes.length :=
  mem_append_shift

/-- A seed is stored under an id of the sub-plan. -/
theorem foldl_seeds_of_lt {base : Nat} (hn : n < base) (seeds : List (Nat × V))
    (outputs : Nat → Option V) : seeds.foldl (fun outputs (id, artifact) =>
      Function.update outputs (id + base) (some artifact)) outputs n = outputs n := by
  induction seeds generalizing outputs with
  | nil => rfl
  | cons seed seeds ih =>
    have hne : n ≠ seed.1 + base := by omega
    rw [List.foldl_cons, ih]
    exact Function.update_of_ne hne _ _

/-- The outputs under the old ids stay. -/
theorem Coordinator.extend_outputs (hn : n < s.nodes.length) :
    (s.extend delta localOrder).outputs n = s.outputs n := by
  unfold Coordinator.extend
  dsimp only
  rw [foldl_seeds_of_lt hn, if_neg (by omega)]

/-- The roots of the sub-plan are ready. -/
theorem Coordinator.extend_ready : n ∈ (s.extend delta localOrder).ready ↔
      n ∈ s.ready ∨ ∃ id < delta.subplan.nodes.length,
        predecessors delta.subplan.edges id = [] ∧ n = id + s.nodes.length := by
  unfold Coordinator.extend
  dsimp only
  simp only [Finset.mem_union, List.mem_toFinset, List.mem_map, List.mem_filter, List.mem_range,
    decide_eq_true_eq, and_assoc, eq_comm (b := n)]

/-- The in-degrees count the inputs that are missing. -/
theorem Coordinator.extend_indeg (hrange : edgesInRange s.edges s.nodes.length)
    (hcompleted : ∀ n ∈ s.completed, n < s.nodes.length)
    (hindeg : ∀ n, s.indeg n = unvisitedInto (pairsOf s.edges) s.completed n) (n : Nat) :
    (s.extend delta localOrder).indeg n =
      unvisitedInto (pairsOf (s.extend delta localOrder).edges) s.completed n := by
  have hsplit : unvisitedInto (pairsOf (s.extend delta localOrder).edges) s.completed n =
      unvisitedInto (pairsOf s.edges) s.completed n +
        unvisitedInto (pairsOf (delta.subplan.edges.map (PlanEdge.shift s.nodes.length)))
          s.completed n := by
    unfold unvisitedInto pairsOf Coordinator.extend
    rw [List.map_append, List.countP_append]
  have hnew : unvisitedInto (pairsOf (delta.subplan.edges.map (PlanEdge.shift s.nodes.length)))
      s.completed n = delta.subplan.edges.countP fun e => e.dst + s.nodes.length = n := by
    unfold unvisitedInto pairsOf
    rw [List.map_map, List.countP_map]
    congr 1
    funext e
    have hsrc : e.src + s.nodes.length ∉ s.completed := fun hmem => by
      have hlt := hcompleted _ hmem
      omega
    show decide (e.dst + s.nodes.length = n ∧ e.src + s.nodes.length ∉ s.completed) = _
    exact decide_eq_decide.mpr (and_iff_left hsrc)
  rw [hsplit, hnew]
  show (if s.nodes.length ≤ n then _ else s.indeg n) = _
  split_ifs with hle
  · -- no old edge points to a new node
    have hzero : unvisitedInto (pairsOf s.edges) s.completed n = 0 := by
      rw [unvisitedInto_eq_zero]
      intro p hp
      have hlt := (hrange _ hp).2
      dsimp only at hlt
      omega
    rw [hzero, Nat.zero_add]
    unfold predecessors
    rw [List.length_map, ← List.countP_eq_length_filter]
    congr 1
    funext e
    have hiff : (e.dst = n - s.nodes.length) ↔ (e.dst + s.nodes.length = n) := by omega
    exact decide_eq_decide.mpr hiff
  · have hzero : (delta.subplan.edges.countP fun e => e.dst + s.nodes.length = n) = 0 := by
      rw [List.countP_eq_zero]
      intro e _
      have hne : ¬ e.dst + s.nodes.length = n := by omega
      simpa using hne
    rw [hzero, hindeg n, Nat.add_zero]

/-- The nodes of the sub-plan. -/
def freshIds (s : Coordinator V Key) (delta : SpawnDelta V) : Set Nat :=
  {n | s.nodes.length ≤ n ∧ n < s.nodes.length + delta.subplan.nodes.length}

theorem Coordinator.extend_waiting : (s.extend delta localOrder).Waiting n ↔
      s.Waiting n ∨ ∃ id < delta.subplan.nodes.length,
        predecessors delta.subplan.edges id = [] ∧ n = id + s.nodes.length := by
  unfold Coordinator.Waiting
  rw [Coordinator.extend_ready]
  exact or_right_comm

/-- The roots of the sub-plan, in the running graph. -/
theorem Coordinator.extend_root (hrange : edgesInRange s.edges s.nodes.length) :
    (∃ id < delta.subplan.nodes.length,
        predecessors delta.subplan.edges id = [] ∧ n = id + s.nodes.length) ↔
      n ∈ freshIds s delta ∧ ∀ p, ⟨p, n⟩ ∉ (s.extend delta localOrder).edges := by
  have hpreds : ∀ id p, p ∈ predecessors (s.extend delta localOrder).edges (id + s.nodes.length) ↔
      ∃ p' ∈ predecessors delta.subplan.edges id, p' + s.nodes.length = p := by
    intro id p
    have heq : predecessors (s.extend delta localOrder).edges (id + s.nodes.length) =
        (predecessors delta.subplan.edges id).map (· + s.nodes.length) :=
      predecessors_append_right hrange
    rw [heq, List.mem_map]
  constructor
  · rintro ⟨id, hid, hroot, rfl⟩
    refine ⟨⟨by omega, by omega⟩, fun p hp => ?_⟩
    obtain ⟨p', hp', -⟩ := (hpreds id p).mp (mem_predecessors.mpr hp)
    rw [hroot] at hp'
    exact absurd hp' List.not_mem_nil
  · rintro ⟨⟨hle, hlt⟩, hnone⟩
    have hn : n = (n - s.nodes.length) + s.nodes.length := by omega
    refine ⟨n - s.nodes.length, by omega, ?_, hn⟩
    rw [List.eq_nil_iff_forall_not_mem]
    intro p hp
    have hmem := (hpreds _ _).mpr ⟨p, hp, rfl⟩
    rw [← hn] at hmem
    exact hnone _ (mem_predecessors.mp hmem)

/-- The board of the extended graph is sound. -/
theorem Settled.extend_sound (hgates : GatesApart setup.plan) (h : Settled setup s) :
    Sound (setup.network (s.extend delta localOrder))
      ((s.extend delta localOrder).board s.completed (setup.decidedTargets s)) := by
  have hwf := setup.network_wf hgates h.layout
  have hlen := s.extend_length delta localOrder
  have hboard : (s.extend delta localOrder).board s.completed (setup.decidedTargets s) =
      { s.board s.completed (setup.decidedTargets s) with
        waiting := (s.board s.completed (setup.decidedTargets s)).waiting ∪
          {n | n ∈ freshIds s delta ∧
            ∀ p, ¬ (setup.network (s.extend delta localOrder)).edge p n} } := by
    unfold Coordinator.board
    congr 1
    ext n
    exact Coordinator.extend_waiting.trans
      (or_congr_right (Coordinator.extend_root h.layout.inRange))
  rw [hboard]
  refine h.sound.extend ?_ ?_ ?_ ?_ rfl rfl (fun c t hg => (hwf.gate_mem hg).2)
    (fun p n hl => (hwf.edge_mem (hwf.link_edge hl)).2) (fun p n he => (hwf.edge_mem he).symm)
  · ext n
    show n < (s.extend delta localOrder).nodes.length ↔ n < s.nodes.length ∨ n ∈ freshIds s delta
    rw [hlen]
    unfold freshIds
    show _ ↔ _ ∨ (_ ∧ _)
    omega
  · rintro n ⟨hle, -⟩ hlt
    exact absurd hlt (Nat.not_lt.mpr hle)
  · intro p n he
    rcases Coordinator.extend_edge.mp he with hold | ⟨p', n', hnew, rfl, rfl⟩
    · exact Or.inl hold
    · have hr := delta.subplan.inRange _ hnew
      dsimp only at hr
      refine Or.inr ⟨⟨?_, ?_⟩, ?_, ?_⟩ <;> omega
  · exact fun p n he => Coordinator.extend_edge.mpr (Or.inl he)

theorem Settled.extend (hgates : GatesApart setup.plan) (h : Settled setup s)
    (horder : delta.subplan.topoOrder = .ok localOrder)
    (hplain : delta.subplan.conditionGates = []) : Settled setup (s.extend delta localOrder) := by
  have hold : ∀ n, n ∈ s.completed → n < s.nodes.length := fun n hn =>
    h.sound.started_mem n (h.sound.completed_started n hn)
  have hwait : ∀ n, s.Waiting n → n < s.nodes.length := h.sound.waiting_mem
  have hlocal := topoOrder_eq_ok horder
  rw [hplain] at hlocal
  refine ⟨?_, h.extend_sound hgates, ⟨?_, h.places.once⟩,
    Coordinator.extend_indeg h.layout.inRange hold h.indeg, h.keyed, h.busy, ?_, h.whole, h.tails⟩
  · refine h.layout.append ?_ ?_
    · rw [List.length_map]
      exact delta.subplan.inRange
    · rw [List.length_map]
      exact hlocal
  · intro n hn key hkey
    rcases Coordinator.extend_ready.mp hn with hn | ⟨id, -, -, rfl⟩
    · exact h.places.apart n hn key hkey
    · have hlt := hwait _ (Or.inr ⟨key, hkey⟩)
      omega
  · refine { h.values with done := ?_, lost := ?_ }
    · intro n v hv
      rw [Coordinator.extend_outputs (hold n (List.mem_map_of_mem hv))]
      exact h.values.done n v hv
    · intro n hn
      rw [Coordinator.extend_outputs (h.sound.pruned_mem n hn)]
      exact h.values.lost n hn

end Extend

/-! ## The pending sub-plans -/

section Drain

variable {setup : Setup V Key} {s : Coordinator V Key}

theorem Setup.injectSpawn_eq_ok {s' : Coordinator V Key} {delta : SpawnDelta V}
    (h : setup.injectSpawn s delta = .ok s') :
    ∃ localOrder, delta.subplan.topoOrder = .ok localOrder ∧ delta.subplan.conditionGates = [] ∧
      s' = s.extend delta localOrder := by
  unfold Setup.injectSpawn at h
  dsimp only at h
  split at h
  · cases h
  split at h
  · cases h
  rename_i localOrder horder
  split at h
  · cases h
  split at h
  · rename_i hgates
    injection h with h
    exact ⟨localOrder, horder, List.isEmpty_iff.mp hgates, h.symm⟩
  · cases h

/-- What holds before the loop, and is kept when a sub-plan joins and when an error is recorded,
    holds after it. -/
theorem Setup.drainLoop_keeps {P : Coordinator V Key → Prop}
    (hfail : ∀ s fault, P s → P (s.failWith fault))
    (hextend : ∀ s delta localOrder, delta.subplan.topoOrder = .ok localOrder →
      delta.subplan.conditionGates = [] → P s → P (s.extend delta localOrder))
    {pending : List (SpawnDelta V)} (h : P s) :
    P (setup.drainLoop pending s) := by
  induction pending generalizing s with
  | nil => exact h
  | cons delta rest ih =>
    unfold Setup.drainLoop
    split
    · split
      · exact hfail s _ h
      · exact h
    · split
      · rename_i s' hinject
        obtain ⟨localOrder, horder, hplain, rfl⟩ := Setup.injectSpawn_eq_ok hinject
        exact ih (hextend s delta localOrder horder hplain h)
      · exact hfail s _ h
      · split
        · exact hfail s _ h
        · exact ih h

/-- Draining starts no node. -/
theorem Setup.drain_kept (s : Coordinator V Key) :
    (setup.drain s).started = s.started ∧ (setup.drain s).join = s.join :=
  Setup.drainLoop_keeps (P := fun s' => s'.started = s.started ∧ s'.join = s.join)
    (fun _ _ hs => hs) (fun _ _ _ _ _ hs => hs) ⟨rfl, rfl⟩

theorem Settled.drain (hgates : GatesApart setup.plan) (h : Settled setup s)
    (hok : (setup.drain s).firstError = none) :
    Settled setup (setup.drain s) := by
  have hkeep : (setup.drain s).firstError = none → Settled setup (setup.drain s) := by
    unfold Setup.drain
    refine Setup.drainLoop_keeps (P := fun s' => s'.firstError = none → Settled setup s') ?_ ?_
      fun _ => { h with }
    · exact fun s' fault _ hnone => absurd hnone (Option.some_ne_none _)
    · exact fun s' delta localOrder horder hplain hs hnone => (hs hnone).extend hgates horder hplain
  exact hkeep hok

end Drain

end Blut.Framework
