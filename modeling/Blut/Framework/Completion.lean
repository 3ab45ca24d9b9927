/-
  The completion half of the loop keeps what is tracked.

  An outcome is recorded, its key freed, the successors are told, the gates of a selector are
  resolved and fan-outs queued (`Tracked.complete`). A node that was killed, or whose advisory
  stage failed, is pruned with everything behind it (`Settled.abandon`).
-/
import Blut.Framework.Tracking

namespace Blut.Framework

open Blut.Lib

variable {V Key : Type} {setup : Setup V Key} {s : Coordinator V Key} {rest credited : List Nat}
  {decided : Set Nat} {holders : List (Nat × Key)}

/-! ## What a completion keeps -/

theorem Setup.queueExpansions_eq (setup : Setup V Key) (n : Nat) (v : V)
    (expansions : List MapExpansion) (s : Coordinator V Key) :
    ∃ pending error, setup.queueExpansions n v expansions s =
      { s with pendingSpawns := pending, firstError := error } := by
  induction expansions generalizing s with
  | nil => exact ⟨s.pendingSpawns, s.firstError, rfl⟩
  | cons expansion expansions ih =>
    unfold Setup.queueExpansions
    split_ifs
    · exact ih s
    · split
      · obtain ⟨pending, error, heq⟩ := ih { s with pendingSpawns := s.pendingSpawns ++ _ }
        exact ⟨pending, error, heq⟩
      · exact ⟨s.pendingSpawns, _, rfl⟩

/-- The graph, the warnings, the tasks and, without fan-outs, the pending sub-plans stay; outcomes
    are added, more nodes are pruned, and the outputs of the other nodes stay. -/
structure Coordinator.Keeps (quiet : Prop) (added : List (Nat × V)) (s s' : Coordinator V Key) :
    Prop where
  graph : s'.nodes = s.nodes ∧ s'.edges = s.edges ∧ s'.order = s.order
  warnings : s'.warnings = s.warnings
  pending : quiet → s'.pendingSpawns = s.pendingSpawns
  tasks : s'.started = s.started ∧ s'.join = s.join
  outcomes : s'.outcomes = s.outcomes ++ added
  pruned : s.pruned ⊆ s'.pruned
  outputs : ∀ n ∉ s'.pruned, n ∉ added.map Prod.fst → s'.outputs n = s.outputs n

namespace Coordinator.Keeps

variable {q : Prop} {s s' s'' : Coordinator V Key} {added added' : List (Nat × V)}

theorem refl (s : Coordinator V Key) : Keeps q [] s s :=
  ⟨⟨rfl, rfl, rfl⟩, rfl, fun _ => rfl, ⟨rfl, rfl⟩, (List.append_nil _).symm, Finset.Subset.refl _,
    fun _ _ _ => rfl⟩

theorem trans (h : Keeps q added s s') (h' : Keeps q added' s' s'') :
    Keeps q (added ++ added') s s'' := by
  obtain ⟨hn, he, ho⟩ := h.graph
  obtain ⟨hn', he', ho'⟩ := h'.graph
  refine ⟨⟨hn'.trans hn, he'.trans he, ho'.trans ho⟩, h'.warnings.trans h.warnings,
    fun hq => (h'.pending hq).trans (h.pending hq),
    ⟨h'.tasks.1.trans h.tasks.1, h'.tasks.2.trans h.tasks.2⟩,
    by rw [h'.outcomes, h.outcomes, List.append_assoc], h.pruned.trans h'.pruned, fun n hn hw => ?_⟩
  rw [List.map_append, List.mem_append, not_or] at hw
  rw [h'.outputs n hn hw.2, h.outputs n (fun hp => hn (h'.pruned hp)) hw.1]

theorem outcomes_eq (h : Keeps q [] s s') : s'.outcomes = s.outcomes :=
  h.outcomes.trans (List.append_nil _)

theorem foldl {α : Type} {f : Coordinator V Key → α → Coordinator V Key} {w : α → List (Nat × V)}
    (hf : ∀ (s : Coordinator V Key) a, Keeps q (w a) s (f s a)) (l : List α)
    (s : Coordinator V Key) : Keeps q (l.flatMap w) s (l.foldl f s) := by
  induction l generalizing s with
  | nil => exact refl s
  | cons a l ih => exact (hf s a).trans (ih (f s a))

theorem foldl_nil {α : Type} {f : Coordinator V Key → α → Coordinator V Key}
    (hf : ∀ (s : Coordinator V Key) a, Keeps q [] s (f s a)) (l : List α)
    (s : Coordinator V Key) : Keeps q [] s (l.foldl f s) := by
  have h := foldl (w := fun _ => []) hf l s
  rwa [List.flatMap_eq_nil_iff.mpr fun _ _ => rfl] at h

theorem unlessFailed {f : Coordinator V Key → Coordinator V Key} (hf : Keeps q [] s (f s)) :
    Keeps q [] s (s.unlessFailed f) := by
  unfold Coordinator.unlessFailed
  split
  · exact hf
  · exact refl s

theorem prune (s : Coordinator V Key) (next : Nat → List Nat) (node : Nat) :
    Keeps q [] s (s.prune next node) := by
  refine { refl s with pruned := subset_reach [node] s.pruned, outputs := fun n hn _ => ?_ }
  have hout : n ∉ (s.prune next node).pruned \ s.pruned :=
    fun hmem => hn (Finset.mem_sdiff.mp hmem).1
  show (if n ∈ (s.prune next node).pruned \ s.pruned then none else s.outputs n) = s.outputs n
  rw [if_neg hout]

theorem resolveGate (value : Bool) (s : Coordinator V Key) (g : CompiledConditionGate) :
    Keeps q [] s (s.resolveGate value g) := by
  unfold Coordinator.resolveGate
  split
  · exact { refl s with }
  · exact prune s _ _

theorem resolveGates (setup : Setup V Key) (s : Coordinator V Key) (n : Nat) (v : V) :
    Keeps q [] s (setup.resolveGates s n v) := by
  unfold Setup.resolveGates
  split
  · exact refl s
  · split
    · exact foldl_nil (resolveGate _) _ s
    · exact { refl s with }

theorem lowerAll (setup : Setup V Key) (s : Coordinator V Key) (n : Nat) :
    Keeps q [] s (setup.lowerAll s n) :=
  foldl_nil (f := setup.lower) (fun s _ => { refl s with }) _ s

theorem record (s : Coordinator V Key) (n : Nat) (v : V) : Keeps q [(n, v)] s (s.record n v) :=
  { refl s with
    outcomes := rfl
    outputs := fun _ _ hm => Function.update_of_ne (List.ne_of_not_mem_cons hm) _ _ }

theorem queueExpansions (setup : Setup V Key) (s : Coordinator V Key) (n : Nat) (v : V)
    (expansions : List MapExpansion) :
    Keeps (expansions = []) [] s (setup.queueExpansions n v expansions s) := by
  cases expansions with
  | nil => exact refl s
  | cons expansion expansions =>
    obtain ⟨pending, error, heq⟩ := setup.queueExpansions_eq n v (expansion :: expansions) s
    rw [heq]
    exact { refl (q := True) s with pending := fun hnil => absurd hnil (List.cons_ne_nil _ _) }

variable [DecidableEq Key]

theorem freeKey (s : Coordinator V Key) (n : Nat) (wanted : Nat → Bool) :
    Keeps q [] s (s.freeKey n wanted) := by
  unfold Coordinator.freeKey
  split
  · exact refl s
  · exact { refl s with }

theorem complete (setup : Setup V Key) (s : Coordinator V Key) (o : Nat × V) :
    Keeps (setup.plan.expansions = []) [o] s (setup.complete s o) := by
  have hfree := (record (q := setup.plan.expansions = []) s o.1 o.2).trans
    (freeKey (s.record o.1 o.2) o.1 fun _ => true)
  have hlower := hfree.trans (unlessFailed (f := (setup.lowerAll · o.1)) (lowerAll setup _ o.1))
  have hgates := hlower.trans
    (unlessFailed (f := (setup.resolveGates · o.1 o.2)) (resolveGates setup _ o.1 o.2))
  exact hgates.trans (unlessFailed (queueExpansions setup _ o.1 o.2 _))

theorem completeAll (setup : Setup V Key) (s : Coordinator V Key) (outcomes : List (Nat × V)) :
    Keeps (setup.plan.expansions = []) outcomes s (outcomes.foldl setup.complete s) := by
  have h := foldl (complete setup) outcomes s
  rwa [List.flatMap_singleton'] at h

theorem abandon (setup : Setup V Key) (s : Coordinator V Key) (n : Nat) :
    Keeps q [] s (setup.abandon s n) :=
  (freeKey s n _).trans (prune _ _ n)

end Coordinator.Keeps

/-! ## Recording an outcome -/

variable {n : Nat} {v : V} {g : CompiledConditionGate} {value : Bool} {deferred : Key → List Nat}
  {key : Key}

theorem Coordinator.completed_of_outcome (h : (n, v) ∈ s.outcomes) : n ∈ s.completed :=
  List.mem_map.mpr ⟨(n, v), h, rfl⟩

theorem Coordinator.record_completed (s : Coordinator V Key) (n : Nat) (v : V) :
    (s.record n v).completed = s.completed ++ [n] := by
  simp [Coordinator.completed, Coordinator.record]

theorem Tracked.record (h : Tracked setup (n :: rest) credited decided holders s) (v : V) :
    Tracked setup rest credited decided holders (s.record n v) := by
  obtain ⟨hs, hc, hp⟩ := (h.busy.mem n).mp List.mem_cons_self
  have hboard : (s.record n v).board credited decided =
      { s.board credited decided with
        completed := insert n (s.board credited decided).completed } := by
    ext m
    case completed =>
      show m ∈ (s.record n v).completed ↔ m = n ∨ m ∈ s.completed
      rw [s.record_completed, List.mem_append, List.mem_singleton, or_comm]
    all_goals rfl
  refine { h with sound := ?_, busy := ?_, values := ⟨?_, ?_, ?_, ?_⟩ }
  · show Sound (setup.network s) ((s.record n v).board credited decided)
    rw [hboard]
    exact h.sound.record hs hp
  · have hnd := h.busy.nodup
    rw [List.cons_append, List.nodup_cons] at hnd
    rw [s.record_completed]
    refine ⟨hnd.2, ?_, fun m => ?_⟩
    · simpa using h.busy.completed_nodup.concat hc
    · have hm := h.busy.mem m
      rw [List.cons_append, List.mem_cons] at hm
      show m ∈ rest ++ s.running ↔ m ∈ s.started ∧ m ∉ s.completed ++ [n] ∧ m ∉ s.pruned
      by_cases hmn : m = n
      · exact iff_of_false (hmn ▸ hnd.1) fun hbusy => hbusy.2.1 (by simp [hmn])
      · simpa [hmn] using hm
  · intro m w hmw
    show Function.update s.outputs n (some v) m = some w
    rcases List.mem_append.mp hmw with hold | hnew
    · have hne : m ≠ n := fun heq => hc (heq ▸ List.mem_map_of_mem hold)
      rw [Function.update_of_ne hne]
      exact h.values.done m w hold
    · obtain ⟨rfl, rfl⟩ := Prod.mk.inj (List.mem_singleton.mp hnew)
      exact Function.update_self _ _ _
  · intro m hm
    show Function.update s.outputs n (some v) m = none
    have hne : m ≠ n := fun heq => hp (heq ▸ hm)
    rw [Function.update_of_ne hne]
    exact h.values.lost m hm
  · intro g hg he
    obtain ⟨w, hw, hdec⟩ := h.values.passed g hg he
    exact ⟨w, List.mem_append_left _ hw, hdec⟩
  · intro g hg hd he
    obtain ⟨w, b, hw, hdec⟩ := h.values.refused g hg hd he
    exact ⟨w, b, List.mem_append_left _ hw, hdec⟩

/-! ## Telling the successors -/

/-- Lowering a list of targets, each as often as it occurs. -/
theorem foldl_lower (setup : Setup V Key) (targets : List Nat) (s : Coordinator V Key)
    (hle : ∀ m, targets.count m ≤ s.indeg m) :
    ∃ indeg ready, targets.foldl setup.lower s = { s with indeg := indeg, ready := ready } ∧
      (∀ m, indeg m = s.indeg m - targets.count m) ∧
      ∀ m, m ∈ ready ↔ m ∈ s.ready ∨ (m ∈ targets ∧ s.indeg m = targets.count m ∧
        setup.conditionAllows s m = true ∧ m ∉ setup.fusedInternal) := by
  induction targets generalizing s with
  | nil => exact ⟨s.indeg, s.ready, rfl, by simp, by simp⟩
  | cons t targets ih =>
    have hcount : ∀ m, (t :: targets).count m = targets.count m + if m = t then 1 else 0 := by
      intro m
      simp only [List.count_cons, beq_iff_eq, eq_comm (a := t)]
    have hindeg : ∀ m, (setup.lower s t).indeg m = s.indeg m - if m = t then 1 else 0 := by
      intro m
      unfold Setup.lower
      by_cases hm : m = t
      · simp [hm]
      · simp [hm]
    have hready : ∀ m, m ∈ (setup.lower s t).ready ↔ m ∈ s.ready ∨ (m = t ∧ s.indeg t - 1 = 0 ∧
        setup.conditionAllows s t = true ∧ t ∉ setup.fusedInternal) := by
      intro m
      unfold Setup.lower
      dsimp only
      split_ifs with hcond
      · rw [Finset.mem_insert, or_comm]
        simp [hcond]
      · simp [hcond]
    simp only [hcount] at hle ⊢
    obtain ⟨indeg, ready, hfold, hdeg, hmem⟩ := ih (setup.lower s t) fun m => by
      rw [hindeg m]
      exact Nat.le_sub_of_add_le (hle m)
    have hallows : ∀ m, setup.conditionAllows (setup.lower s t) m = setup.conditionAllows s m :=
      fun m => rfl
    refine ⟨indeg, ready, ?_, fun m => ?_, fun m => ?_⟩
    · rw [List.foldl_cons, hfold]
      rfl
    · rw [hdeg m, hindeg m, Nat.sub_sub, Nat.add_comm]
    · rw [hmem m, hready m, hindeg m, hallows m, or_assoc, List.mem_cons]
      refine or_congr_right ?_
      by_cases hm : m = t
      · have hpos := hle m
        subst hm
        rw [if_pos rfl] at hpos ⊢
        -- the last of its occurrences brings the count to zero
        rw [← List.count_pos_iff (a := m) (l := targets), ← and_assoc (a := 0 < _),
          and_iff_right rfl, ← or_and_right, and_iff_right (Or.inl rfl)]
        exact and_congr_left fun _ => by omega
      · simp [hm]

/-- The gate of a node, if it has one, let it through. -/
theorem conditionAllows_iff (m : Nat) : setup.conditionAllows s m = true ↔
    ∀ c, (setup.network s).gate c m → m ∈ s.enabledConditionTargets := by
  unfold Setup.conditionAllows
  rw [Bool.or_eq_true, decide_eq_true_eq, Bool.not_eq_true', ← Bool.not_eq_true,
    setup.isTarget_iff (s := s), ← imp_iff_not_or, forall_exists_index]

section

variable (h : Tracked setup rest credited decided holders s)
include h

theorem Tracked.lowerAll (hn : n ∈ s.completed) (hnew : n ∉ credited) :
    Tracked setup rest (credited ++ [n]) decided holders (setup.lowerAll s n) := by
  have hsplit := fun m => unvisitedInto_visit (pairsOf s.edges) hnew m
  rw [← successors_eq] at hsplit
  obtain ⟨indeg, ready, hfold, hdeg, hmem⟩ := foldl_lower setup (successors s.edges n) s
    (fun m => by
    rw [h.indeg m, hsplit m]
    omega)
  have hdeg' : ∀ m, indeg m = unvisitedInto (pairsOf s.edges) (credited ++ [n]) m := by
    intro m
    rw [hdeg m, h.indeg m, hsplit m]
    omega
  -- the nodes that become ready are those that open
  have hopen : ∀ m, m ∈ ready ↔ m ∈ s.ready ∨ ((setup.network s).edge n m ∧
      (∀ p, (setup.network s).edge p m → p ∈ insert n {x | x ∈ credited}) ∧
      (∀ c, (setup.network s).gate c m → m ∈ s.enabledConditionTargets) ∧
      ¬ (setup.network s).Inner m) := by
    intro m
    have hzero : s.indeg m = (successors s.edges n).count m ↔
        ∀ p, (setup.network s).edge p m → p ∈ insert n {x | x ∈ credited} := by
      rw [h.indeg m, hsplit m, Nat.add_eq_right, unvisitedInto_eq_zero]
      refine forall_congr' fun p => imp_congr Iff.rfl ?_
      rw [List.mem_append, List.mem_singleton, or_comm]
      rfl
    rw [hmem m, mem_successors, hzero, conditionAllows_iff, setup.inner_iff]
    rfl
  have hboard : (setup.lowerAll s n).board (credited ++ [n]) decided =
      { s.board credited decided with
        credited := insert n (s.board credited decided).credited
        waiting := (s.board credited decided).waiting ∪ {m | (setup.network s).edge n m ∧
          (∀ p, (setup.network s).edge p m → p ∈ insert n (s.board credited decided).credited) ∧
          (∀ c, (setup.network s).gate c m → m ∈ (s.board credited decided).enabled) ∧
          ¬ (setup.network s).Inner m} } := by
    unfold Setup.lowerAll
    rw [hfold]
    ext m
    case waiting =>
      show (m ∈ ready ∨ ∃ k, m ∈ s.deferred k) ↔ (m ∈ s.ready ∨ ∃ k, m ∈ s.deferred k) ∨ _
      rw [hopen m, or_right_comm]
      rfl
    case credited =>
      show m ∈ credited ++ [n] ↔ m = n ∨ m ∈ credited
      rw [List.mem_append, List.mem_singleton, or_comm]
    all_goals rfl
  have hsound : Sound (setup.network s) ((setup.lowerAll s n).board (credited ++ [n]) decided) := by
    rw [hboard]
    exact h.sound.credit hn hnew fun m hedge => (h.layout.inRange _ hedge).2
  have hplaces : Places ready s.deferred := by
    refine ⟨fun m hm k hk => ?_, h.places.once⟩
    rcases (hopen m).mp hm with hm | ⟨hedge, -⟩
    · exact h.places.apart m hm k hk
    · -- a deferred node has all its inputs
      exact hnew ((h.sound.waiting_open m (Or.inr ⟨k, hk⟩)).1 n hedge)
  unfold Setup.lowerAll at hsound ⊢
  rw [hfold] at hsound ⊢
  exact { h with sound := hsound, places := hplaces, indeg := hdeg' }

/-! ## Pruning -/

/-- A node and what follows it are given up: none of them has completed or waits. -/
theorem Tracked.prune {next : Nat → List Nat}
    {node : Nat} {decided' : Set Nat} {rest' : List Nat} (hnode : node < s.nodes.length)
    (hedges : ∀ x y, (setup.network s).edge x y → y ∈ next x)
    (hnext : ∀ x y, y ∈ next x → (setup.network s).edge x y ∨ (setup.network s).gate x y)
    (hgate : ∀ c t, Reaches next node c → (setup.network s).gate c t → t ∈ next c)
    (hin : ∀ x y, (setup.network s).edge x y ∨ (setup.network s).gate x y → y < s.nodes.length)
    (hdone : ∀ x, Reaches next node x → x ∉ s.completed)
    (hwait : ∀ x, Reaches next node x → ¬ s.Waiting x)
    (hcause : node ∈ s.started ∨ (node ∈ decided' ∧ node ∉ s.enabledConditionTargets))
    (hsub : ∀ t ∈ decided, t ∈ decided') (hgated : ∀ t ∈ decided', ∃ c, (setup.network s).gate c t)
    (hselect : ∀ t ∈ decided', ∀ c, (setup.network s).gate c t → c ∈ s.completed)
    (hresolved : ∀ t ∈ decided', t ∉ decided → t = node)
    (hbusy : ∀ n, n ∈ rest' ++ s.running ↔ n ∈ rest ++ s.running ∧ ¬ Reaches next node n)
    (hnodup : (rest' ++ s.running).Nodup)
    (hrefused : ∀ g ∈ setup.plan.conditionGates, g.target ∈ decided' →
      g.target ∉ s.enabledConditionTargets →
      ∃ v b, (g.condition, v) ∈ s.outcomes ∧ setup.runtime.decision v = some b ∧ b ≠ g.when) :
    Tracked setup rest' credited decided' holders (s.prune next node) := by
  have hclosed : ∀ x ∈ s.pruned, ∀ y ∈ next x, y ∈ s.pruned := by
    intro x hx y hy
    rcases hnext x y hy with he | hg
    · exact h.sound.pruned_edge x hx y he
    · exact h.sound.pruned_gate x hx y hg
  have hmem : ∀ x, x ∈ reach next (Finset.range s.nodes.length) [node] s.pruned ↔
      x ∈ s.pruned ∨ Reaches next node x := by
    intro x
    rw [mem_reach_iff (fun a _ b hb => Finset.mem_range.mpr (hin a b (hnext a b hb)))
      (fun a ha => by rw [List.mem_singleton.mp ha]; exact Finset.mem_range.mpr hnode) hclosed]
    simp
  have hlt : ∀ x, Reaches next node x → x < s.nodes.length := by
    intro x hx
    rcases Relation.ReflTransGen.cases_tail hx with heq | ⟨y, -, hyx⟩
    · rw [heq]
      exact hnode
    · exact hin y x (hnext y x hyx)
  have hready : s.ready \ (reach next (Finset.range s.nodes.length) [node] s.pruned \ s.pruned) =
      s.ready := by
    rw [Finset.sdiff_eq_self_iff_disjoint, Finset.disjoint_left]
    intro x hx hlost
    obtain ⟨hreach, hnot⟩ := Finset.mem_sdiff.mp hlost
    exact hwait x (((hmem x).mp hreach).resolve_left hnot) (Or.inl hx)
  have hboard : (s.prune next node).board credited decided' =
      { s.board credited decided with
        pruned := (s.board credited decided).pruned ∪ {x | Reaches next node x}
        decided := decided' } := by
    unfold Coordinator.prune
    dsimp only
    rw [hready]
    ext x
    case pruned => exact hmem x
    all_goals rfl
  have hsound : Sound (setup.network s) ((s.prune next node).board credited decided') := by
    rw [hboard]
    refine h.sound.prune hlt hdone hwait (fun p hp n hpn => hp.tail (hedges p n hpn))
      (fun c hc t hct => hc.tail (hgate c t hc hct)) (fun x hx => ?_) hsub hgated hselect ?_
    · rcases Relation.ReflTransGen.cases_tail hx with heq | ⟨y, hy, hyx⟩
      · rw [heq]
        rcases hcause with hs | hd
        · exact Or.inl hs
        · exact Or.inr (Or.inl hd)
      · rcases hnext y x hyx with he | hg
        · exact Or.inr (Or.inr (Or.inl ⟨y, he, Or.inr hy⟩))
        · exact Or.inr (Or.inr (Or.inr ⟨y, hg, Or.inr hy⟩))
    · intro t ht hold
      rw [hresolved t ht hold]
      exact Relation.ReflTransGen.refl
  refine { h with
    sound := hsound, places := ?_, busy := ⟨hnodup, h.busy.completed_nodup, ?_⟩
    values := ⟨?_, ?_, h.values.passed, hrefused⟩ }
  · show Places (s.ready \ _) s.deferred
    rw [hready]
    exact h.places
  · intro n
    show n ∈ rest' ++ s.running ↔ n ∈ s.started ∧ n ∉ s.completed ∧
      n ∉ reach next (Finset.range s.nodes.length) [node] s.pruned
    rw [hbusy n, h.busy.mem n, hmem n, not_or]
    tauto
  · intro m w hmw
    have hm := s.completed_of_outcome hmw
    show (if m ∈ _ then none else s.outputs m) = some w
    rw [if_neg]
    · exact h.values.done m w hmw
    · intro hlost
      obtain ⟨hreach, hnot⟩ := Finset.mem_sdiff.mp hlost
      exact hdone m (((hmem m).mp hreach).resolve_left hnot) hm
  · intro m hm
    show (if m ∈ _ then none else s.outputs m) = none
    split_ifs with hlost
    · rfl
    · by_cases hold : m ∈ s.pruned
      · exact h.values.lost m hold
      · exact absurd (Finset.mem_sdiff.mpr ⟨hm, hold⟩) hlost

/-! ## Gates -/

/-- Before its selector is looked at, the target of a gate neither waits nor was started. -/
theorem Tracked.target_idle (hg : g ∈ setup.plan.conditionGates) (hfirst : g.target ∉ decided) :
    g.target ∉ s.enabledConditionTargets ∧ Sound.Idle (s.board credited decided) g.target := by
  have hgate : (setup.network s).gate g.condition g.target := ⟨g, hg, rfl, rfl⟩
  have hdisabled : g.target ∉ s.enabledConditionTargets := fun he =>
    hfirst (h.sound.enabled_decided g.target he)
  exact ⟨hdisabled, fun hs => hdisabled (h.sound.started_gate _ hs _ hgate),
    fun hw => hdisabled ((h.sound.waiting_open _ hw).2 _ hgate)⟩

end

section

variable (hgates : GatesApart setup.plan) (h : Tracked setup rest credited decided holders s)
  (hg : g ∈ setup.plan.conditionGates) (hv : (g.condition, v) ∈ s.outcomes)
include hgates h hg hv

theorem Tracked.enable (hvalue : setup.runtime.decision v = some g.when)
    (hfirst : g.target ∉ decided) :
    Tracked setup rest credited (insert g.target decided) holders (s.enable g.target) := by
  have hgate : (setup.network s).gate g.condition g.target := ⟨g, hg, rfl, rfl⟩
  obtain ⟨hdisabled, hidle⟩ := h.target_idle hg hfirst
  have hzero : s.indeg g.target = 0 ↔ ∀ p, (setup.network s).edge p g.target → p ∈ credited := by
    rw [h.indeg]
    exact unvisitedInto_eq_zero
  have hnew : ∀ m, m ∈ (s.enable g.target).ready ↔ m ∈ s.ready ∨ (m = g.target ∧
      (∀ p, (setup.network s).edge p g.target → p ∈ credited) ∧ g.target ∉ s.pruned) := by
    intro m
    rw [← hzero]
    unfold Coordinator.enable
    dsimp only
    split_ifs with hopen
    · rw [Finset.mem_insert, or_comm]
      simp [hopen]
    · simp [hopen]
  have hboard : (s.enable g.target).board credited (insert g.target decided) =
      { s.board credited decided with
        enabled := insert g.target (s.board credited decided).enabled
        decided := insert g.target (s.board credited decided).decided
        waiting := (s.board credited decided).waiting ∪ {m | m = g.target ∧
          (∀ p, (setup.network s).edge p g.target → p ∈ (s.board credited decided).credited) ∧
          g.target ∉ (s.board credited decided).pruned} } := by
    ext m
    case waiting =>
      show (m ∈ (s.enable g.target).ready ∨ ∃ k, m ∈ s.deferred k) ↔
        (m ∈ s.ready ∨ ∃ k, m ∈ s.deferred k) ∨ _
      rw [hnew m, or_right_comm]
      rfl
    case enabled => exact Finset.mem_insert
    all_goals rfl
  have hsound : Sound (setup.network s)
      ((s.enable g.target).board credited (insert g.target decided)) := by
    rw [hboard]
    exact h.sound.enable (setup.network_wf hgates h.layout) hgate
      (s.completed_of_outcome hv) hfirst
  refine { h with sound := hsound, places := ⟨?_, h.places.once⟩, values := { h.values with
    passed := ?_, refused := ?_ } }
  · intro m hm k hk
    rcases (hnew m).mp hm with hm | ⟨rfl, -⟩
    · exact h.places.apart m hm k hk
    · exact hidle.2 (Or.inr ⟨k, hk⟩)
  · intro g' hg' he
    rcases Finset.mem_insert.mp he with ht | he
    · rw [List.inj_on_of_nodup_map hgates.distinct hg' hg ht]
      exact ⟨v, hv, hvalue⟩
    · exact h.values.passed g' hg' he
  · intro g' hg' hd he
    have hne := mt Finset.mem_insert.mpr he
    rw [not_or] at hne
    exact h.values.refused g' hg' (hd.resolve_left hne.1) hne.2

theorem Tracked.rejectBranch (hvalue : setup.runtime.decision v = some value) (hne : value ≠ g.when)
    (hfirst : g.target ∉ decided) :
    Tracked setup rest credited (insert g.target decided) holders
      (s.prune (successors s.edges) g.target) := by
  have hwf := setup.network_wf hgates h.layout
  have hgate : (setup.network s).gate g.condition g.target := ⟨g, hg, rfl, rfl⟩
  obtain ⟨hdisabled, hidle⟩ := h.target_idle hg hfirst
  have hpath : ∀ x, Reaches (successors s.edges) g.target x →
      Relation.ReflTransGen (setup.network s).edge g.target x :=
    Relation.ReflTransGen.mono (fun a b (hstep : b ∈ successors s.edges a) =>
      mem_successors.mp hstep) _
  have hidles : ∀ x, Reaches (successors s.edges) g.target x →
      Sound.Idle (s.board credited decided) x := fun x hx =>
    h.sound.idle_of_path hidle (Relation.ReflTransGen.mono (fun _ _ => Or.inl) _ _ (hpath x hx))
  refine h.prune (hwf.gate_mem hgate).2 (fun x y he => mem_successors.mpr he)
    (fun x y hy => Or.inl (mem_successors.mp hy)) ?_ ?_ (fun x hx hc => ?_)
    (fun x hx => (hidles x hx).2) (Or.inr ⟨Set.mem_insert _ _, hdisabled⟩)
    (fun t ht => Set.mem_insert_of_mem _ ht) ?_ ?_ ?_ (fun n => ?_) h.busy.nodup ?_
  · -- a branch has no selector
    rintro c t hc ⟨g', hg', rfl, rfl⟩
    exact absurd (hpath _ hc) (hwf.gate_apart hgate ⟨g', hg', rfl, rfl⟩)
  · rintro x y (he | hgt)
    · exact (hwf.edge_mem he).2
    · exact (hwf.gate_mem hgt).2
  · exact (hidles x hx).1 (h.sound.completed_started x hc)
  · rintro t (rfl | ht)
    · exact ⟨g.condition, hgate⟩
    · exact h.sound.decided_gate t ht
  · rintro t (rfl | ht) c hc
    · rw [hwf.gate_unique hc hgate]
      exact s.completed_of_outcome hv
    · exact h.sound.decided_completed t ht c hc
  · rintro t (rfl | ht) hold
    · rfl
    · exact absurd ht hold
  · constructor
    · exact fun hn => ⟨hn, fun hreach => (hidles n hreach).1 ((h.busy.mem n).mp hn).1⟩
    · exact And.left
  · intro g' hg' hd he
    rcases hd with ht | hd
    · rw [List.inj_on_of_nodup_map hgates.distinct hg' hg ht]
      exact ⟨v, value, hv, hvalue, hne⟩
    · exact h.values.refused g' hg' hd he

theorem Tracked.resolveGate (hvalue : setup.runtime.decision v = some value)
    (hfirst : g.target ∉ decided) :
    Tracked setup rest credited (insert g.target decided) holders (s.resolveGate value g) := by
  unfold Coordinator.resolveGate
  split_ifs with hmatch
  · exact h.enable hgates hg hv (hmatch ▸ hvalue) hfirst
  · exact h.rejectBranch hgates hg hv hvalue hmatch hfirst

end

/-- The gates of a selector, one after the other. -/
theorem Tracked.resolveAll (hgates : GatesApart setup.plan) {node : Nat}
    (hvalue : setup.runtime.decision v = some value) (gates : List CompiledConditionGate)
    (h : Tracked setup rest credited decided holders s) (hv : (node, v) ∈ s.outcomes)
    (hmem : ∀ g ∈ gates, g ∈ setup.plan.conditionGates ∧ g.condition = node)
    (hnd : (gates.map CompiledConditionGate.target).Nodup)
    (hfirst : ∀ g ∈ gates, g.target ∉ decided) :
    Tracked setup rest credited (decided ∪ {t | ∃ g ∈ gates, g.target = t}) holders
      (gates.foldl (Coordinator.resolveGate value) s) := by
  induction gates generalizing s decided with
  | nil => simpa using h
  | cons g gates ih =>
    obtain ⟨hg, hcond⟩ := hmem g List.mem_cons_self
    rw [List.map_cons, List.nodup_cons] at hnd
    have hstep := h.resolveGate hgates hg (hcond ▸ hv) hvalue (hfirst g List.mem_cons_self)
    have hrest := ih hstep ((Coordinator.Keeps.resolveGate (q := True) value s g).outcomes_eq ▸ hv)
      (fun g' hg' => hmem g' (List.mem_cons_of_mem _ hg')) hnd.2 (fun g' hg' ht => by
        rcases ht with ht | ht
        · exact hnd.1 (List.mem_map.mpr ⟨g', hg', ht⟩)
        · exact hfirst g' (List.mem_cons_of_mem _ hg') ht)
    have hset : decided ∪ {t | ∃ g' ∈ g :: gates, g'.target = t} =
        insert g.target decided ∪ {t | ∃ g' ∈ gates, g'.target = t} := by
      ext t
      simp [eq_comm, or_left_comm, or_assoc]
    rw [hset]
    exact hrest

/-- The gates of a node that completed, when its decision can be read. -/
theorem Tracked.resolveGates (hgates : GatesApart setup.plan)
    (h : Tracked setup rest credited decided holders s) (hv : (n, v) ∈ s.outcomes)
    (hfirst : ∀ g ∈ setup.plan.conditionGates, g.condition = n → g.target ∉ decided)
    (hok : (setup.resolveGates s n v).firstError = none) :
    Tracked setup rest credited (decided ∪ {t | (setup.network s).gate n t}) holders
      (setup.resolveGates s n v) := by
  have hmem : ∀ g ∈ gatesOf setup.plan.conditionGates n,
      g ∈ setup.plan.conditionGates ∧ g.condition = n := fun g hg => mem_gatesOf.mp hg
  have hset : {t | (setup.network s).gate n t} =
      {t | ∃ g ∈ gatesOf setup.plan.conditionGates n, g.target = t} := by
    simp only [mem_gatesOf, and_assoc]
    rfl
  rw [hset]
  unfold Setup.resolveGates at hok ⊢
  split at hok
  · rename_i hnone
    rw [hnone]
    simpa using h
  · split at hok
    · rename_i value hvalue
      refine h.resolveAll hgates hvalue _ hv hmem ?_ fun g hg =>
        hfirst g (hmem g hg).1 (hmem g hg).2
      exact hgates.distinct.sublist (List.Sublist.map _ List.filter_sublist)
    · simp [Coordinator.failWith] at hok

/-! ## Fan-outs -/

theorem Tracked.queueExpansions (h : Tracked setup rest credited decided holders s)
    (n : Nat) (v : V) (expansions : List MapExpansion) :
    Tracked setup rest credited decided holders (setup.queueExpansions n v expansions s) := by
  obtain ⟨pending, error, heq⟩ := setup.queueExpansions_eq n v expansions s
  rw [heq]
  exact { h with }

/-! ## Freeing a key -/

variable [DecidableEq Key]

theorem Coordinator.freeKey_none (h : s.nodeKeyOf n = none) (wanted : Nat → Bool) :
    s.freeKey n wanted = s := by
  unfold Coordinator.freeKey
  rw [h]

theorem mem_update_nil (m : Nat) (k : Key) :
    m ∈ Function.update deferred key [] k ↔ k ≠ key ∧ m ∈ deferred k := by
  by_cases hk : k = key
  · subst hk
    simp
  · simp [hk]

theorem Places.free {ready : Finset Nat} (h : Places ready deferred) (key : Key) :
    Places (ready ∪ (deferred key).toFinset) (Function.update deferred key []) := by
  refine ⟨fun m hm k hk => ?_, fun m k k' hk hk' => ?_⟩
  · obtain ⟨hkey, hk⟩ := (mem_update_nil m k).mp hk
    rcases Finset.mem_union.mp hm with hm | hm
    · exact h.apart m hm k hk
    · exact hkey (h.once m k key hk (List.mem_toFinset.mp hm))
  · exact h.once m k k' ((mem_update_nil m k).mp hk).2 ((mem_update_nil m k').mp hk').2

theorem Keyed.free {nodeKeyOf : Nat → Option Key} {inflightKeys : Finset Key}
    (h : Keyed ((n, key) :: holders) nodeKeyOf inflightKeys deferred) :
    Keyed holders (Function.update nodeKeyOf n none) (inflightKeys.erase key)
      (Function.update deferred key []) := by
  obtain ⟨hn, hheads⟩ := List.nodup_cons.mp h.heads
  obtain ⟨hk, hkeys⟩ := List.nodup_cons.mp h.keys
  refine ⟨hheads, hkeys, fun m k => ?_, fun k => ?_, fun m k hm => ?_⟩
  · by_cases hm : m = n
    · rw [hm, Function.update_self]
      exact iff_of_false (by simp) fun hmem => absurd (List.mem_map_of_mem hmem) hn
    · rw [Function.update_of_ne hm, h.nodeKey, List.mem_cons]
      exact or_iff_right fun heq => hm (congrArg Prod.fst heq)
  · rw [Finset.mem_erase, h.inflight, List.map_cons, List.mem_cons]
    exact ⟨fun hmem => hmem.2.resolve_left hmem.1, fun hmem =>
      ⟨fun heq => hk (heq ▸ hmem), Or.inr hmem⟩⟩
  · obtain ⟨hne, hm⟩ := (mem_update_nil m k).mp hm
    have hmem := h.behind m k hm
    rw [List.map_cons, List.mem_cons] at hmem
    exact hmem.resolve_left hne

/-- The key of a holder goes; the nodes behind it were waiting before and still are. -/
theorem Tracked.freeKey (h : Tracked setup rest credited decided ((n, key) :: holders) s)
    {wanted : Nat → Bool} (hwanted : ∀ w ∈ s.deferred key, wanted w = true) :
    Tracked setup rest credited decided holders (s.freeKey n wanted) := by
  have hkeyOf : s.nodeKeyOf n = some key := (h.keyed.nodeKey n key).mpr List.mem_cons_self
  have hstate : s.freeKey n wanted = { s with
      nodeKeyOf := Function.update s.nodeKeyOf n none
      inflightKeys := s.inflightKeys.erase key
      deferred := Function.update s.deferred key []
      ready := s.ready ∪ (s.deferred key).toFinset } := by
    unfold Coordinator.freeKey
    rw [hkeyOf]
    dsimp only
    rw [List.filter_eq_self.mpr hwanted]
  have hboard : (s.freeKey n wanted).board credited decided = s.board credited decided := by
    rw [hstate]
    ext m
    case waiting =>
      show (m ∈ s.ready ∪ (s.deferred key).toFinset ∨
          ∃ k, m ∈ Function.update s.deferred key [] k) ↔
        (m ∈ s.ready ∨ ∃ k, m ∈ s.deferred k)
      simp only [Finset.mem_union, List.mem_toFinset, mem_update_nil, or_assoc]
      refine or_congr_right ⟨?_, fun ⟨k, hk⟩ => ?_⟩
      · rintro (hm | ⟨k, -, hk⟩)
        · exact ⟨key, hm⟩
        · exact ⟨k, hk⟩
      · by_cases hkey : k = key
        · exact Or.inl (hkey ▸ hk)
        · exact Or.inr ⟨k, hkey, hk⟩
    all_goals rfl
  have hsound : Sound (setup.network s) ((s.freeKey n wanted).board credited decided) := by
    rw [hboard]
    exact h.sound
  rw [hstate] at hsound ⊢
  exact { h with sound := hsound, places := h.places.free key, keyed := h.keyed.free }

/-! ## One outcome -/

omit [DecidableEq Key] in
theorem Coordinator.unlessFailed_eq {f : Coordinator V Key → Coordinator V Key}
    (h : (s.unlessFailed f).firstError = none) : s.firstError = none ∧ s.unlessFailed f = f s := by
  unfold Coordinator.unlessFailed at h ⊢
  split_ifs at h ⊢ with hnone
  · exact ⟨by simpa using hnone, rfl⟩
  · exact absurd (by simp [h]) hnone

theorem Coordinator.freeKey_error (s : Coordinator V Key) (n : Nat) (wanted : Nat → Bool) :
    (s.freeKey n wanted).firstError = s.firstError := by
  unfold Coordinator.freeKey
  split <;> rfl

/-- Without an error, an outcome is recorded, its key freed, the successors told, the gates
    resolved and the fan-outs queued. -/
theorem Setup.complete_eq (hok : (setup.complete s (n, v)).firstError = none) :
    s.firstError = none ∧ ∃ s₁ s₂ s₃, s₁ = (s.record n v).freeKey n (fun _ => true) ∧
      s₂ = setup.lowerAll s₁ n ∧ s₃ = setup.resolveGates s₂ n v ∧ s₃.firstError = none ∧
      setup.complete s (n, v) = setup.queueExpansions n v setup.plan.expansions s₃ := by
  unfold Setup.complete at hok ⊢
  dsimp only at hok ⊢
  obtain ⟨hok₃, heq₄⟩ := Coordinator.unlessFailed_eq hok
  obtain ⟨hok₂, heq₃⟩ := Coordinator.unlessFailed_eq hok₃
  obtain ⟨hok₁, heq₂⟩ := Coordinator.unlessFailed_eq hok₂
  rw [Coordinator.freeKey_error] at hok₁
  rw [heq₄]
  rw [heq₃] at hok₃ ⊢
  rw [heq₂] at hok₃ ⊢
  exact ⟨hok₁, _, _, _, rfl, rfl, rfl, hok₃, rfl⟩

/-- The outcome of a running node. It holds a key when it is the first of its task. -/
theorem Tracked.complete (hgates : GatesApart setup.plan) {holders' : List (Nat × Key)}
    (h : Tracked setup (n :: rest) s.completed (setup.decidedTargets s) holders s)
    (hholders : (∃ key, holders = (n, key) :: holders') ∨
      (n ∉ holders.map Prod.fst ∧ holders' = holders))
    (hok : (setup.complete s (n, v)).firstError = none) :
    Tracked setup rest (setup.complete s (n, v)).completed
      (setup.decidedTargets (setup.complete s (n, v))) holders' (setup.complete s (n, v)) := by
  obtain ⟨-, hc, -⟩ := (h.busy.mem n).mp List.mem_cons_self
  obtain ⟨-, s₁, s₂, s₃, hs₁, hs₂, hs₃, hok₃, heq⟩ := Setup.complete_eq hok
  have hrecord := h.record v
  have h₁ : Tracked setup rest s.completed (setup.decidedTargets s) holders' s₁ := by
    rw [hs₁]
    rcases hholders with ⟨key, rfl⟩ | ⟨hnone, rfl⟩
    · exact hrecord.freeKey fun _ _ => rfl
    · rw [Coordinator.freeKey_none]
      · exact hrecord
      · by_contra hsome
        obtain ⟨key, hkey⟩ := Option.ne_none_iff_exists'.mp hsome
        exact hnone (List.mem_map_of_mem ((hrecord.keyed.nodeKey n key).mp hkey))
  have ho₁ : s₁.outcomes = s.outcomes ++ [(n, v)] := by
    rw [hs₁, (Coordinator.Keeps.freeKey (q := True) (s.record n v) n _).outcomes_eq]
    rfl
  have hv₁ : (n, v) ∈ s₁.outcomes := by
    rw [ho₁]
    simp
  have h₂ : Tracked setup rest (s.completed ++ [n]) (setup.decidedTargets s) holders' s₂ := by
    rw [hs₂]
    exact h₁.lowerAll (s₁.completed_of_outcome hv₁) hc
  have ho₂ : s₂.outcomes = s₁.outcomes := by
    rw [hs₂]
    exact (Coordinator.Keeps.lowerAll (q := True) setup s₁ n).outcomes_eq
  have h₃ : Tracked setup rest (s.completed ++ [n])
      (setup.decidedTargets s ∪ {t | (setup.network s₂).gate n t}) holders' s₃ := by
    rw [hs₃]
    rw [hs₃] at hok₃
    refine h₂.resolveGates hgates (ho₂ ▸ hv₁) (fun g hg hcond ht => ?_) hok₃
    -- its gates were not looked at before it completed
    have hdone := h.sound.decided_completed g.target ht g.condition ⟨g, hg, rfl, rfl⟩
    exact hc (hcond ▸ hdone)
  have hcompleted : (setup.complete s (n, v)).completed = s.completed ++ [n] := by
    unfold Coordinator.completed
    rw [(Coordinator.Keeps.complete setup s (n, v)).outcomes, List.map_append]
    rfl
  have hdecided : setup.decidedTargets (setup.complete s (n, v)) =
      setup.decidedTargets s ∪ {t | (setup.network s₂).gate n t} := by
    unfold Setup.decidedTargets
    rw [hcompleted]
    ext t
    simp only [List.mem_append, List.mem_singleton, and_or_left, exists_or, exists_eq_right,
      Set.mem_union, Set.mem_ofPred_eq]
    rfl
  rw [hcompleted, hdecided, heq]
  exact h₃.queueExpansions n v setup.plan.expansions

end Blut.Framework
