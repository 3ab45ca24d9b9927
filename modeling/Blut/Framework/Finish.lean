/-
  A task ends, and what is tracked is kept.

  The task leaves the join set with its members still to be accounted for (`Settled.take`). When
  it finished they complete one after the other (`Settled.finished`); when its node was killed or
  its advisory stage failed, the node and everything behind it are pruned (`Settled.abandoned`).
  Whatever the result, nothing is started (`Setup.process_kept`) and a recorded error stays
  (`Setup.process_error`).
-/
import Blut.Framework.Completion

namespace Blut.Framework

open Blut.Lib

variable {V Key : Type} {setup : Setup V Key} {s : Coordinator V Key} {rest credited : List Nat}
  {decided : Set Nat} {holders : List (Nat × Key)}

/-! ## The task leaves the join set -/

theorem Keyed.perm {holders' : List (Nat × Key)} {nodeKeyOf : Nat → Option Key}
    {inflightKeys : Finset Key} {deferred : Key → List Nat} (hperm : holders.Perm holders')
    (h : Keyed holders nodeKeyOf inflightKeys deferred) :
    Keyed holders' nodeKeyOf inflightKeys deferred := by
  have hkeys := hperm.map Prod.snd
  exact ⟨(hperm.map Prod.fst).nodup_iff.mp h.heads, hkeys.nodup_iff.mp h.keys,
    fun n k => (h.nodeKey n k).trans hperm.mem_iff, fun k => (h.inflight k).trans hkeys.mem_iff,
    fun n k hn => hkeys.mem_iff.mp (h.behind n k hn)⟩

theorem Busy.perm {running running' started completed : List Nat} {pruned : Finset Nat}
    (hperm : running.Perm running') (h : Busy running started completed pruned) :
    Busy running' started completed pruned :=
  ⟨hperm.nodup_iff.mp h.nodup, h.completed_nodup,
    fun n => hperm.mem_iff.symm.trans (h.mem n)⟩

/-- The state without one of its tasks. -/
def Coordinator.without (s : Coordinator V Key) (index : Nat) : Coordinator V Key :=
  { s with join := s.join.eraseIdx index }

variable {index n : Nat} {task : Task V Key}

theorem perm_without (hget : s.join[index]? = some task) :
    s.join.Perm (task :: (s.without index).join) := by
  obtain ⟨hlt, hval⟩ := List.getElem?_eq_some_iff.mp hget
  have hperm := List.getElem_cons_eraseIdx_perm hlt
  rw [hval] at hperm
  exact hperm.symm

theorem Settled.take (h : Settled setup s) (hget : s.join[index]? = some task) :
    Tracked setup task.members (s.without index).completed (setup.decidedTargets (s.without index))
      ((task.head, task.key) :: (s.without index).holders) (s.without index) := by
  have hperm := perm_without hget
  have hholders : s.holders.Perm ((task.head, task.key) :: (s.without index).holders) :=
    hperm.map fun t : Task V Key => (t.head, t.key)
  have hrunning : ([] ++ s.running).Perm (task.members ++ (s.without index).running) :=
    hperm.flatMap_right Task.members
  exact { h with
    keyed := h.keyed.perm hholders
    busy := h.busy.perm hrunning
    tails := fun t ht => h.tails t (List.mem_of_mem_eraseIdx ht) }

/-- The first member of a running task holds no key of another. -/
theorem Tracked.not_holder (h : Tracked setup rest credited decided holders s) (hn : n ∈ rest) :
    n ∉ s.holders.map Prod.fst := by
  intro hmem
  obtain ⟨holder, hholder, rfl⟩ := List.mem_map.mp hmem
  obtain ⟨task, htask, rfl⟩ := List.mem_map.mp hholder
  have hrun : task.head ∈ s.running := List.mem_flatMap.mpr ⟨task, htask, List.mem_cons_self⟩
  exact (List.nodup_append.mp h.busy.nodup).2.2 _ hn _ hrun rfl

/-! ## What completing leaves alone -/

variable [DecidableEq Key]

/-- An error recorded before stays. -/
theorem foldl_complete_error (setup : Setup V Key) (outcomes : List (Nat × V))
    (s : Coordinator V Key) (hok : (outcomes.foldl setup.complete s).firstError = none) :
    s.firstError = none := by
  induction outcomes generalizing s with
  | nil => exact hok
  | cons o outcomes ih => exact (Setup.complete_eq (ih (setup.complete s o) hok)).1

/-! ## A finished task -/

/-- The members of a task that hold no key complete one after the other. -/
theorem Tracked.completeAll (hgates : GatesApart setup.plan) (outcomes : List (Nat × V))
    (h : Tracked setup (outcomes.map Prod.fst) s.completed (setup.decidedTargets s) s.holders s)
    (hok : (outcomes.foldl setup.complete s).firstError = none) :
    Settled setup (outcomes.foldl setup.complete s) := by
  induction outcomes generalizing s with
  | nil => exact h
  | cons o outcomes ih =>
    have hok' := foldl_complete_error setup outcomes _ hok
    have hstep := h.complete (v := o.2) hgates
      (Or.inr ⟨h.not_holder List.mem_cons_self, rfl⟩) hok'
    have hholders : s.holders = (setup.complete s o).holders := by
      unfold Coordinator.holders
      rw [(Coordinator.Keeps.complete setup s o).tasks.2]
    rw [hholders] at hstep
    exact ih hstep hok

theorem Settled.finished (hgates : GatesApart setup.plan) (h : Settled setup s)
    (hget : s.join[index]? = some task) {outputs : List V}
    (hlen : outputs.length = task.members.length)
    (hok : ((task.members.zip outputs).foldl setup.complete (s.without index)).firstError = none) :
    Settled setup ((task.members.zip outputs).foldl setup.complete (s.without index)) := by
  have htake := h.take hget
  have hmap : (task.members.zip outputs).map Prod.fst = task.members :=
    List.map_fst_zip (by omega)
  cases outputs with
  | nil =>
    simp [Task.members] at hlen
  | cons v outputs =>
    have hzip : task.members.zip (v :: outputs) = (task.head, v) :: task.tail.zip outputs := rfl
    rw [hzip, List.map_cons] at hmap
    rw [hzip, List.foldl_cons] at hok ⊢
    have hok' := foldl_complete_error setup _ _ hok
    have hmembers : task.members = task.head :: task.tail := rfl
    rw [hmembers] at htake
    have hstep := htake.complete (v := v) hgates (Or.inl ⟨task.key, rfl⟩) hok'
    have hholders : (s.without index).holders =
        (setup.complete (s.without index) (task.head, v)).holders := by
      unfold Coordinator.holders
      rw [(Coordinator.Keeps.complete setup _ _).tasks.2]
    have htail : (task.tail.zip outputs).map Prod.fst = task.tail := (List.cons.inj hmap).2
    rw [hholders, ← htail] at hstep
    exact hstep.completeAll hgates _ hok

/-! ## A node that is given up -/

theorem Tracked.abandon (hgates : GatesApart setup.plan) {key : Key}
    (h : Tracked setup [n] s.completed (setup.decidedTargets s) ((n, key) :: holders) s)
    (hlink : ∀ m, ¬ (setup.network s).link n m) :
    Tracked setup [] s.completed (setup.decidedTargets s) holders (setup.abandon s n) := by
  have hwanted : ∀ w ∈ s.deferred key, decide (w ∉ s.pruned) = true := fun w hw =>
    decide_eq_true (h.sound.waiting_kept w (Or.inr ⟨key, hw⟩))
  have hfree := h.freeKey hwanted
  have hgraph : ∀ wanted : Nat → Bool, (s.freeKey n wanted).edges = s.edges ∧
      setup.network (s.freeKey n wanted) = setup.network s := by
    intro wanted
    unfold Coordinator.freeKey
    split <;> exact ⟨rfl, rfl⟩
  unfold Setup.abandon
  set freed := s.freeKey n fun waiter => decide (waiter ∉ s.pruned) with hfreed
  have hnet : setup.network freed = setup.network s := (hgraph _).2
  have hcompleted : freed.completed = s.completed := by
    unfold Coordinator.completed
    rw [(Coordinator.Keeps.freeKey (q := True) s n _).outcomes_eq]
  have hwf := setup.network_wf hgates hfree.layout
  obtain ⟨hs, hc, hp⟩ := (hfree.busy.mem n).mp (by simp)
  have hnext : ∀ x y, y ∈ setup.killNext s x ↔
      (setup.network freed).edge x y ∨ (setup.network freed).gate x y := by
    intro x y
    rw [hnet]
    unfold Setup.killNext
    rw [List.mem_append, mem_successors, List.mem_map]
    simp only [mem_gatesOf, and_assoc]
    rfl
  -- what follows the node has not run and does not wait
  have hidle : ∀ x, Reaches (setup.killNext s) n x →
      x = n ∨ Sound.Idle (freed.board s.completed (setup.decidedTargets s)) x := by
    intro x hx
    rcases Relation.ReflTransGen.cases_head hx with heq | ⟨y, hny, hyx⟩
    · exact Or.inl heq.symm
    · have hy := hfree.sound.idle_next hc (fun hl => absurd (hnet ▸ hl) (hlink y))
        ((hnext n y).mp hny)
      refine Or.inr (hfree.sound.idle_of_path hy ?_)
      exact Relation.ReflTransGen.mono (fun a b hab => (hnext a b).mp hab) _ _ hyx
  refine hfree.prune (hfree.sound.started_mem n hs) (fun x y he => (hnext x y).mpr (Or.inl he))
    (fun x y hy => (hnext x y).mp hy) (fun c t _ hct => (hnext c t).mpr (Or.inr hct)) ?_ ?_ ?_
    (Or.inl hs) (fun t ht => ht) hfree.sound.decided_gate hfree.sound.decided_completed
    (fun t ht hold => absurd ht hold) ?_ ?_ hfree.values.refused
  · rintro x y (he | hg)
    · exact (hwf.edge_mem he).2
    · exact (hwf.gate_mem hg).2
  · intro x hx hxc
    rcases hidle x hx with rfl | hi
    · exact hc hxc
    · exact hi.1 (hfree.sound.completed_started x hxc)
  · intro x hx hw
    rcases hidle x hx with rfl | hi
    · exact hfree.sound.waiting_new x hw hs
    · exact hi.2 hw
  · intro m
    have hnd := hfree.busy.nodup
    rw [List.singleton_append, List.nodup_cons] at hnd
    rw [List.nil_append, List.singleton_append, List.mem_cons]
    constructor
    · intro hm
      refine ⟨Or.inr hm, fun hreach => ?_⟩
      rcases hidle m hreach with rfl | hi
      · exact hnd.1 hm
      · exact hi.1 ((hfree.busy.mem m).mp (by simp [hm])).1
    · rintro ⟨rfl | hm, hno⟩
      · exact absurd Relation.ReflTransGen.refl hno
      · exact hm
  · have hnd := hfree.busy.nodup
    rw [List.singleton_append, List.nodup_cons] at hnd
    exact hnd.2

theorem Setup.abandon_error (setup : Setup V Key) (s : Coordinator V Key) (n : Nat) :
    (setup.abandon s n).firstError = s.firstError :=
  s.freeKey_error n fun waiter => decide (waiter ∉ s.pruned)

/-- Warning and giving up do not interfere. -/
theorem Setup.abandon_warn (setup : Setup V Key) (s : Coordinator V Key) (warning : StageWarning)
    (n : Nat) : setup.abandon (s.warn warning) n = (setup.abandon s n).warn warning := by
  have hfree : ∀ wanted : Nat → Bool,
      (s.warn warning).freeKey n wanted = (s.freeKey n wanted).warn warning := by
    intro wanted
    unfold Coordinator.freeKey
    cases hkey : s.nodeKeyOf n with
    | none => simp only [Coordinator.warn, hkey]
    | some key => simp only [Coordinator.warn, hkey]
  unfold Setup.abandon
  rw [hfree]
  rfl

omit [DecidableEq Key] in
/-- Nothing is half processed when the tasks and outcomes are those of a state that was. -/
theorem Settled.of_tracked {s' : Coordinator V Key}
    (h : Tracked setup [] s.completed (setup.decidedTargets s) s.holders s')
    (houtcomes : s'.outcomes = s.outcomes) (hjoin : s'.join = s.join) : Settled setup s' := by
  have hcompleted : s.completed = s'.completed := by
    unfold Coordinator.completed
    rw [houtcomes]
  have hdecided : setup.decidedTargets s = setup.decidedTargets s' := by
    unfold Setup.decidedTargets
    rw [hcompleted]
    rfl
  have hholders : s.holders = s'.holders := by
    unfold Coordinator.holders
    rw [hjoin]
  unfold Settled
  rw [← hcompleted, ← hdecided, ← hholders]
  exact h

omit [DecidableEq Key] in
/-- A task whose node has nothing linked behind it is that node alone. -/
theorem Setup.tailOf_eq_nil (setup : Setup V Key) (s : Coordinator V Key)
    (hlink : ∀ m, ¬ (setup.network s).link n m) : setup.tailOf n = [] := by
  rcases setup.tailOf_spec n with hg | ⟨hnil, -⟩
  · cases htail : setup.tailOf n with
    | nil => rfl
    | cons m tail =>
      rw [htail] at hg
      exact absurd ⟨_, hg, [], tail, by simp⟩ (hlink m)
  · exact hnil

theorem Settled.abandoned (hgates : GatesApart setup.plan) (h : Settled setup s)
    (hget : s.join[index]? = some task) (hlink : ∀ m, ¬ (setup.network s).link task.head m) :
    Settled setup (setup.abandon (s.without index) task.head) := by
  have htail : task.tail = [] :=
    (h.tails task (List.mem_of_getElem? hget)).trans (setup.tailOf_eq_nil s hlink)
  have htake := h.take hget
  have hmembers : task.members = [task.head] := by
    unfold Task.members
    rw [htail]
  rw [hmembers] at htake
  have hkeeps := Coordinator.Keeps.abandon (q := True) setup (s.without index) task.head
  exact Settled.of_tracked (htake.abandon hgates hlink) hkeeps.outcomes_eq hkeeps.tasks.2

/-! ## Any result -/

/-- No result starts a node or changes the graph. -/
theorem Setup.process_kept (setup : Setup V Key) (s : Coordinator V Key) (task : Task V Key)
    (result : TaskResult V) :
    ((setup.process s task result).started = s.started ∧
      (setup.process s task result).join = s.join) ∧
    (setup.process s task result).nodes = s.nodes ∧
    (setup.plan.expansions = [] →
      (setup.process s task result).pendingSpawns = s.pendingSpawns) := by
  cases result with
  | finished outputs =>
    have hkeeps := Coordinator.Keeps.completeAll setup s (task.members.zip outputs)
    exact ⟨hkeeps.tasks, hkeeps.graph.1, hkeeps.pending⟩
  | killed =>
    have hkeeps := Coordinator.Keeps.abandon (q := True) setup s task.head
    exact ⟨hkeeps.tasks, hkeeps.graph.1, fun _ => hkeeps.pending trivial⟩
  | stage n source =>
    simp only [Setup.process, Setup.failStage]
    split
    · exact ⟨⟨rfl, rfl⟩, rfl, fun _ => rfl⟩
    · split_ifs
      · have hkeeps := fun warning => Coordinator.Keeps.abandon (q := True) setup (s.warn warning) n
        exact ⟨(hkeeps _).tasks, (hkeeps _).graph.1, fun _ => (hkeeps _).pending trivial⟩
      · exact ⟨⟨rfl, rfl⟩, rfl, fun _ => rfl⟩
  | cancelled => exact ⟨⟨rfl, rfl⟩, rfl, fun _ => rfl⟩
  | other error => exact ⟨⟨rfl, rfl⟩, rfl, fun _ => rfl⟩

theorem Setup.process_error (setup : Setup V Key) (s : Coordinator V Key) (task : Task V Key)
    (result : TaskResult V) (hok : (setup.process s task result).firstError = none) :
    s.firstError = none := by
  cases result with
  | finished outputs => exact foldl_complete_error setup _ s hok
  | killed => exact setup.abandon_error s task.head ▸ hok
  | stage n source =>
    simp only [Setup.process, Setup.failStage] at hok
    split at hok
    · simp [Coordinator.failWith] at hok
    · split_ifs at hok
      · rw [setup.abandon_error] at hok
        exact hok
      · simp [Coordinator.failWith] at hok
  | cancelled => simp [Setup.process, Coordinator.failWith] at hok
  | other error => simp [Setup.process, Coordinator.failWith] at hok

omit [DecidableEq Key] in
/-- Nothing is linked behind an advisory stage. -/
theorem Settled.advisory_unlinked (h : Settled setup s) {stage : Stage}
    (hstage : s.stageOf n = some stage) (hadvisory : stage.isAdvisory = true) (m : Nat) :
    ¬ (setup.network s).link n m := by
  rintro ⟨g, hg, hin⟩
  have hlinked := linked_of_neighbours (setup.grouped.chain g hg) hin
  have hlt := (setup.plan.inRange _ hlinked.edge).1
  obtain ⟨node, hnode, hnot⟩ := candidate_node hlinked.left
  unfold Coordinator.stageOf at hstage
  rw [h.layout.node_eq hlt, hnode] at hstage
  cases hstage
  exact Bool.false_ne_true (hnot.symm.trans hadvisory)

/-- The result of a task, when no error comes of it. -/
theorem Settled.process (hgates : GatesApart setup.plan) (h : Settled setup s)
    (hget : s.join[index]? = some task) {result : TaskResult V}
    (hpossible : setup.possible task result)
    (hok : (setup.process (s.without index) task result).firstError = none) :
    Settled setup (setup.process (s.without index) task result) := by
  cases result with
  | finished outputs => exact h.finished hgates hget hpossible hok
  | killed =>
    refine h.abandoned hgates hget fun m => ?_
    rintro ⟨g, hg, -⟩
    have hcontrol := setup.uncontrolled (List.ne_nil_of_mem hg)
    have hkill : setup.ctx.control = true := hpossible
    rw [hcontrol] at hkill
    exact absurd hkill (by simp)
  | stage n source =>
    simp only [Setup.process, Setup.failStage] at hok ⊢
    split at hok
    · simp [Coordinator.failWith] at hok
    · rename_i stage hstage
      split_ifs at hok ⊢ with hadvisory
      · obtain ⟨rfl, hadv, -⟩ := hadvisory
        have hsettled := h.abandoned hgates hget (h.advisory_unlinked hstage hadv)
        rw [setup.abandon_warn]
        exact { hsettled with }
      · simp [Coordinator.failWith] at hok
  | cancelled => simp [Setup.process, Coordinator.failWith] at hok
  | other error => simp [Setup.process, Coordinator.failWith] at hok

end Blut.Framework
