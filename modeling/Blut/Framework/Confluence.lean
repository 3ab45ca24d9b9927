/-
  The coordinator computes the fates of the nodes, whatever its schedule.

  For a plan without runtime spawns, run without a control policy, `Agrees` relates a state
  without an error to the fates: completed nodes have their output, a started node that was pruned
  has its warning, running tasks have their input. An error means that some node is fatal. Every
  move keeps this (`Agrees.step`), so at the end the result is the one the fates denote and two
  runs cannot differ.
-/
import Blut.Framework.Accounting
import Blut.Framework.Evaluation

namespace Blut.Framework

open Blut.Lib

variable {V Key : Type}

/-! ## States and fates -/

/-- No runtime spawns and no control policy. -/
structure Setup.Plain (setup : Setup V Key) : Prop where
  apart : GatesApart setup.plan
  expansions : setup.plan.expansions = []
  control : setup.ctx.control = false

/-- The warning of a node. -/
def Setup.warningOf (setup : Setup V Key) (answer : Answer V) (n : Nat) : Option StageWarning :=
  match setup.fates answer n, setup.plan.nodes[n]? with
  | some (.warned reason), some node =>
    some { idx := setup.order.idxOf n, stage := node.stage.name, reason := reason }
  | _, _ => none

/-- The input of a node. -/
def Setup.inputOf (setup : Setup V Key) (answer : Answer V) (n : Nat) : Outcome PlanError V :=
  gatherInput setup.runtime setup.plan.edges (inputsFor setup.plan (setup.fates answer) n) n

structure Agrees (setup : Setup V Key) (answer : Answer V) (s : Coordinator V Key) : Prop where
  graph : s.nodes = setup.plan.nodes ∧ s.edges = setup.plan.edges ∧ s.order = setup.order
  pending : s.pendingSpawns = []
  done : ∀ n v, (n, v) ∈ s.outcomes → setup.fates answer n = some (.done v)
  lost : ∀ n ∈ s.started, n ∈ s.pruned → ∃ w ∈ s.warnings, setup.warningOf answer n = some w
  warned : ∀ w ∈ s.warnings, ∃ n, setup.warningOf answer n = some w
  fed : ∀ task ∈ s.join, Admitted setup.plan setup.runtime (setup.fates answer) task.head ∧
    setup.inputOf answer task.head = .ok task.input
  seeds : ∀ n, n ∉ s.started → n ∉ s.pruned → s.outputs n = setup.plan.initial n

theorem agrees_start (setup : Setup V Key) (answer : Answer V) :
    Agrees setup answer setup.start where
  graph := ⟨rfl, rfl, rfl⟩
  pending := rfl
  done := by simp [Setup.start]
  lost := by simp [Setup.start]
  warned := by simp [Setup.start]
  fed := by simp [Setup.start]
  seeds := fun _ _ _ => rfl

section Agrees

variable {setup : Setup V Key} {answer : Answer V} {s : Coordinator V Key} {n : Nat}

theorem Agrees.value (h : Agrees setup answer s) (hn : n ∈ s.completed) :
    ∃ v, (n, v) ∈ s.outcomes ∧ valueOf (setup.fates answer) n = some v := by
  obtain ⟨⟨m, v⟩, hmem, rfl⟩ := List.mem_map.mp hn
  exact ⟨v, hmem, valueOf_eq_some.mpr (h.done m v hmem)⟩

theorem Setup.edge_ne (setup : Setup V Key) {p : Nat} (h : ⟨p, n⟩ ∈ setup.plan.edges) : p ≠ n := by
  rintro rfl
  have hordered := topoOrder_eq_ok setup.ordered
  have hmem : p ∈ setup.order := (hordered.mem p).mpr (setup.plan.inRange _ h).1
  have hlt := Topological.idxOf_lt hordered.nodup hordered.topological
    (mem_arcsOf.mpr (Or.inl h)) hmem
  exact absurd hlt (lt_irrefl _)

/-- A ready node is admitted. -/
theorem Agrees.admitted (hs : Settled setup s) (h : Agrees setup answer s) (hready : n ∈ s.ready) :
    Admitted setup.plan setup.runtime (setup.fates answer) n := by
  have hopen := hs.sound.waiting_open n (Or.inl hready)
  refine ⟨fun p hp => ?_, fun g hg ht => ?_⟩
  · have hedge : ⟨p, n⟩ ∈ s.edges := h.graph.2.1 ▸ mem_predecessors.mp hp
    obtain ⟨v, -, hv⟩ := h.value (hopen.1 p hedge)
    rw [hv]
    rfl
  · obtain ⟨v, hv, hdecision⟩ :=
      hs.values.passed g hg (ht ▸ hopen.2 g.condition ⟨g, hg, rfl, ht⟩)
    rw [valueOf_eq_some.mpr (h.done _ _ hv)]
    exact hdecision

/-- A ready node reads what the fates say. -/
theorem Agrees.gather (hs : Settled setup s) (h : Agrees setup answer s) (hready : n ∈ s.ready) :
    gatherInput setup.runtime s.edges s.outputs n = setup.inputOf answer n := by
  have hopen := hs.sound.waiting_open n (Or.inl hready)
  unfold Setup.inputOf
  rw [h.graph.2.1]
  refine gatherInput_congr setup.runtime (fun p hp => ?_) fun _ => ?_
  · have hedge := mem_predecessors.mp hp
    have hedge' : ⟨p, n⟩ ∈ s.edges := h.graph.2.1 ▸ hedge
    obtain ⟨v, hmem, hv⟩ := h.value (hopen.1 p hedge')
    unfold inputsFor
    rw [Function.update_of_ne (setup.edge_ne hedge), hv]
    exact hs.values.done p v hmem
  · unfold inputsFor
    rw [Function.update_self]
    exact h.seeds n (hs.sound.waiting_new n (Or.inl hready))
      (hs.sound.waiting_kept n (Or.inl hready))

end Agrees

/-! ## The members of a task -/

section Members

variable {setup : Setup V Key} {answer : Answer V} {input : V}

/-- The fate of a node that gave this answer. -/
def Setup.AnsweredBy (setup : Setup V Key) (answer : Answer V) (n : Nat)
    (result : Except String V) : Prop :=
  ∃ node, setup.plan.nodes[n]? = some node ∧ setup.fates answer n =
    some (answered setup.plan setup.runtime setup.ctx.strictAdvisory n node.stage result)

variable {n : Nat} {v : V}

theorem Setup.answeredBy (setup : Setup V Key)
    (hadmitted : Admitted setup.plan setup.runtime (setup.fates answer) n)
    (hinput : setup.inputOf answer n = .ok input) (hn : n < setup.plan.nodes.length) :
    setup.AnsweredBy answer n (answer n input) := by
  have hnode : setup.plan.nodes[n]? = some setup.plan.nodes[n] := List.getElem?_eq_getElem hn
  exact ⟨_, hnode, setup.fates_answered hadmitted hnode hinput⟩

/-- The next member of a chain reads the output of the one before it. -/
theorem Setup.linked_next (hplain : setup.plan.conditionGates = []) {p : Nat}
    (hlink : Linked setup.plan p n) (hv : valueOf (setup.fates answer) p = some v) :
    Admitted setup.plan setup.runtime (setup.fates answer) n ∧ setup.inputOf answer n = .ok v := by
  refine ⟨⟨fun q hq => ?_, fun g hg => ?_⟩, ?_⟩
  · rw [hlink.pred, List.mem_singleton] at hq
    rw [hq, hv]
    rfl
  · rw [hplain] at hg
    exact absurd hg List.not_mem_nil
  · have hread : inputsFor setup.plan (setup.fates answer) n p = some v := by
      unfold inputsFor
      rw [Function.update_of_ne (setup.edge_ne hlink.edge), hv]
    unfold Setup.inputOf gatherInput
    rw [hlink.pred]
    show fetchOutput _ n p = .ok v
    unfold fetchOutput
    rw [hread]
    rfl

/-- A selector has to decide. -/
def Setup.Undecided (setup : Setup V Key) (outcome : Nat × V) : Prop :=
  gatesOf setup.plan.conditionGates outcome.1 ≠ [] ∧ setup.runtime.decision outcome.2 = none

theorem Setup.answered_decided (h : ¬ setup.Undecided (n, v)) (strict : Bool) (stage : Stage) :
    answered setup.plan setup.runtime strict n stage (.ok v) = .done v :=
  if_neg h

theorem Setup.not_undecided (hplain : setup.plan.conditionGates = []) (outcome : Nat × V) :
    ¬ setup.Undecided outcome := by
  unfold Setup.Undecided
  rw [hplain]
  exact fun h => h.1 rfl

/-- The members have the fates that this run of them gives. -/
def Setup.MembersEnd (setup : Setup V Key) (answer : Answer V) (members : List Nat) :
    Except (Nat × String) (List V) → Prop
  | .ok outputs => outputs.length = members.length ∧
      ∀ o ∈ members.zip outputs, setup.AnsweredBy answer o.1 (.ok o.2)
  | .error (m, reason) => m ∈ members ∧ setup.AnsweredBy answer m (.error reason)

/-- The first member answered, and the others are run on its output. -/
theorem Setup.membersEnd_cons {members : List Nat}
    (hby : setup.AnsweredBy answer n (answer n input)) (hrest : ∀ v, answer n input = .ok v →
      setup.MembersEnd answer members (runMembers answer v members)) :
    setup.MembersEnd answer (n :: members) (runMembers answer input (n :: members)) := by
  cases hanswer : answer n input with
  | error reason =>
    rw [hanswer] at hby
    rw [runMembers_error hanswer]
    exact ⟨List.mem_cons_self, hby⟩
  | ok v =>
    rw [hanswer] at hby
    rw [runMembers_ok hanswer]
    have hend := hrest v hanswer
    cases hrun : runMembers answer v members with
    | error failure =>
      rw [hrun] at hend
      exact ⟨List.mem_cons_of_mem _ hend.1, hend.2⟩
    | ok outputs =>
      rw [hrun] at hend
      exact ⟨congrArg (· + 1) hend.1, List.forall_mem_cons.mpr ⟨hby, hend.2⟩⟩

theorem Setup.membersEnd_run (setup : Setup V Key) (members : List Nat)
    (hadmitted : Admitted setup.plan setup.runtime (setup.fates answer) n)
    (hinput : setup.inputOf answer n = .ok input) (hlt : n < setup.plan.nodes.length)
    (hchain : (n :: members).IsChain (Linked setup.plan))
    (hplain : members ≠ [] → setup.plan.conditionGates = []) :
    setup.MembersEnd answer (n :: members) (runMembers answer input (n :: members)) := by
  have hby := setup.answeredBy hadmitted hinput hlt
  induction members generalizing n input with
  | nil => exact setup.membersEnd_cons hby fun v _ => ⟨rfl, by simp⟩
  | cons m members ih =>
    obtain ⟨hlink, hrest⟩ := List.isChain_cons_cons.mp hchain
    have hgates := hplain (List.cons_ne_nil m members)
    refine setup.membersEnd_cons hby fun v hanswer => ?_
    obtain ⟨node, -, hdone⟩ := hby
    rw [hanswer, setup.answered_decided (setup.not_undecided hgates _)] at hdone
    obtain ⟨hadmitted', hinput'⟩ := setup.linked_next hgates hlink (valueOf_eq_some.mpr hdone)
    have hlt' := (setup.plan.inRange _ hlink.edge).2
    exact ih hadmitted' hinput' hlt' hrest (fun _ => hgates)
      (setup.answeredBy hadmitted' hinput' hlt')

end Members

/-! ## Errors -/

section Errors

variable {setup : Setup V Key} {s : Coordinator V Key}

theorem foldl_error {α : Type} {f : Coordinator V Key → α → Coordinator V Key}
    (hf : ∀ s a, (f s a).firstError = s.firstError) (l : List α) (s : Coordinator V Key) :
    (l.foldl f s).firstError = s.firstError := by
  induction l generalizing s with
  | nil => rfl
  | cons a l ih => rw [List.foldl_cons, ih, hf]

theorem Setup.resolveGates_error (hok : s.firstError = none) (n : Nat) (v : V) :
    (setup.resolveGates s n v).firstError = none ↔ ¬ setup.Undecided (n, v) := by
  unfold Setup.resolveGates Setup.Undecided
  split
  · rename_i hnil
    exact iff_of_true hok fun hund => hund.1 hnil
  · rename_i hne
    split
    · rename_i value hvalue
      rw [foldl_error fun s g => by unfold Coordinator.resolveGate; split <;> rfl]
      exact iff_of_true hok fun hund => Option.some_ne_none _ (hvalue.symm.trans hund.2)
    · rename_i hnone
      exact iff_of_false (Option.some_ne_none _) (not_not_intro ⟨hne, hnone⟩)

variable [DecidableEq Key]

theorem Setup.complete_error (hexp : setup.plan.expansions = []) (hok : s.firstError = none)
    (o : Nat × V) : (setup.complete s o).firstError = none ↔ ¬ setup.Undecided o := by
  have hfree : ((s.record o.1 o.2).freeKey o.1 fun _ => true).firstError = none := by
    rw [Coordinator.freeKey_error]
    exact hok
  have hunless : ∀ {s : Coordinator V Key} {f : Coordinator V Key → Coordinator V Key},
      s.firstError = none → s.unlessFailed f = f s := by
    intro s f hnone
    unfold Coordinator.unlessFailed
    rw [hnone]
    rfl
  have hlower : (setup.lowerAll ((s.record o.1 o.2).freeKey o.1 fun _ => true) o.1).firstError =
      none :=
    (foldl_error (f := setup.lower) (fun _ _ => rfl) _ _).trans hfree
  unfold Setup.complete
  rw [hunless hfree, hunless hlower, hexp]
  have hlast : ∀ s : Coordinator V Key,
      (s.unlessFailed (setup.queueExpansions o.1 o.2 [])).firstError = s.firstError := by
    intro s
    unfold Coordinator.unlessFailed
    split <;> rfl
  rw [hlast]
  exact setup.resolveGates_error hlower o.1 o.2

theorem foldl_complete_clean (hexp : setup.plan.expansions = []) (outcomes : List (Nat × V))
    (hok : s.firstError = none) :
    (outcomes.foldl setup.complete s).firstError = none ↔ ∀ o ∈ outcomes, ¬ setup.Undecided o := by
  induction outcomes generalizing s with
  | nil => exact ⟨fun _ => by simp, fun _ => hok⟩
  | cons o outcomes ih =>
    rw [List.foldl_cons, List.forall_mem_cons]
    by_cases hfirst : (setup.complete s o).firstError = none
    · rw [ih hfirst, iff_and_self]
      exact fun _ => (setup.complete_error hexp hok o).mp hfirst
    · constructor
      · exact fun hend => absurd (foldl_complete_error setup outcomes _ hend) hfirst
      · exact fun hall => absurd ((setup.complete_error hexp hok o).mpr hall.1) hfirst

end Errors

/-! ## One move -/

section Moves

variable [DecidableEq Key] {setup : Setup V Key} {answer : Answer V} {s s' : Coordinator V Key}

/-- Some node fails the plan. -/
def Setup.Fails (setup : Setup V Key) (answer : Answer V) : Prop :=
  ∃ n, setup.fates answer n = some .fatal

/-- What holds in every state of a run. -/
structure Faithful (setup : Setup V Key) (answer : Answer V) (s : Coordinator V Key) : Prop where
  agrees : s.firstError = none → Agrees setup answer s
  failed : s.firstError ≠ none → setup.Fails answer

theorem Agrees.dispatch (hgates : GatesApart setup.plan) (hs : Settled setup s)
    (h : Agrees setup answer s) (hok : s.firstError = none) {node : Nat} (hready : node ∈ s.ready) :
    Faithful setup answer (setup.dispatch s node) := by
  have hkept : node ∉ s.pruned := hs.sound.waiting_kept node (Or.inl hready)
  have hlt : node < setup.plan.nodes.length := by
    have hmem := hs.sound.waiting_mem node (Or.inl hready)
    rwa [← h.graph.1]
  have hadmitted := h.admitted hs hready
  unfold Setup.dispatch
  rw [if_neg hkept]
  unfold Setup.admit
  rw [h.gather hs hready, h.graph.1, List.getElem?_eq_getElem hlt]
  cases hinput : setup.inputOf answer node with
  | error fault =>
    refine ⟨fun hnone => absurd hnone (Option.some_ne_none _), fun _ => ⟨node, ?_⟩⟩
    exact setup.fates_stuck ((setup.mem_order node).mpr hlt) hadmitted hinput
  | ok input =>
    dsimp only [expect]
    split
    · -- deferred behind the task with its key
      exact ⟨fun _ => { h with }, fun hne => absurd hok hne⟩
    · refine ⟨fun _ => { h with lost := ?_, fed := ?_, seeds := ?_ }, fun hne => absurd hok hne⟩
      · intro n hn hp
        rcases List.mem_append.mp hn with hn | hn
        · exact h.lost n hn hp
        · exact absurd hp (hs.group_kept hgates (Or.inl hready) n hn)
      · exact List.forall_mem_append.mpr ⟨h.fed, List.forall_mem_singleton.mpr ⟨hadmitted, hinput⟩⟩
      · exact fun n hn hp => h.seeds n (fun hst => hn (List.mem_append_left _ hst)) hp

omit [DecidableEq Key] in
/-- A task was removed. -/
theorem Agrees.without (h : Agrees setup answer s) (index : Nat) :
    Agrees setup answer (s.without index) :=
  { h with fed := fun task htask => h.fed task (List.mem_of_mem_eraseIdx htask) }

variable {index : Nat} {task : Task V Key}

omit [DecidableEq Key] in
theorem Settled.members_started (hs : Settled setup s) (hget : s.join[index]? = some task) :
    ∀ n ∈ task.members, n ∈ s.started := fun n hn =>
  ((hs.busy.mem n).mp (List.mem_flatMap.mpr ⟨task, List.mem_of_getElem? hget, hn⟩)).1

omit [DecidableEq Key] in
/-- A task ended, with the outputs of its members or with warnings about them. -/
theorem Agrees.ended (hs : Settled setup s) (h : Agrees setup answer s)
    (hget : s.join[index]? = some task) {q : Prop} {added : List (Nat × V)}
    (hkeeps : Coordinator.Keeps q added (s.without index) s') (hq : q) (hs' : Settled setup s')
    (hadded : ∀ o ∈ added, o.1 ∈ task.members ∧ setup.fates answer o.1 = some (.done o.2))
    (warnings : List StageWarning)
    (hlost : ∀ n ∈ task.members, n ∈ s'.pruned → ∃ w ∈ warnings, setup.warningOf answer n = some w)
    (hwarned : ∀ w ∈ warnings, ∃ n, setup.warningOf answer n = some w) :
    Agrees setup answer { s' with warnings := s'.warnings ++ warnings } := by
  obtain ⟨hstarted, hjoin⟩ := hkeeps.tasks
  obtain ⟨hnodes, hedges, horder⟩ := hkeeps.graph
  refine ⟨⟨hnodes.trans h.graph.1, hedges.trans h.graph.2.1, horder.trans h.graph.2.2⟩,
    (hkeeps.pending hq).trans h.pending, fun n v hv => ?_, fun n hn hp => ?_, fun w hw => ?_,
    fun t ht => (h.without index).fed t (hjoin ▸ ht), fun n hn hp => ?_⟩
  · rcases List.mem_append.mp (hkeeps.outcomes ▸ hv) with hv | hv
    · exact h.done n v hv
    · exact (hadded _ hv).2
  · have hn : n ∈ s.started := hstarted ▸ hn
    by_cases hold : n ∈ s.pruned
    · obtain ⟨w, hw, hwarn⟩ := h.lost n hn hold
      exact ⟨w, List.mem_append_left _ (hkeeps.warnings ▸ hw), hwarn⟩
    -- it was running, and the tasks that still run keep their members
    have hc : n ∉ s.completed := fun hc => hs'.sound.completed_kept n (by
      show n ∈ s'.outcomes.map Prod.fst
      rw [hkeeps.outcomes, List.map_append]
      exact List.mem_append_left _ hc) hp
    have hperm : s.running.Perm (task.members ++ (s.without index).running) :=
      (perm_without hget).flatMap_right Task.members
    rcases List.mem_append.mp (hperm.mem_iff.mp ((hs.busy.mem n).mpr ⟨hn, hc, hold⟩)) with hm | hrun
    · obtain ⟨w, hw, hwarn⟩ := hlost n hm hp
      exact ⟨w, List.mem_append_right _ hw, hwarn⟩
    · have hrun' : n ∈ s'.running := by
        unfold Coordinator.running at hrun ⊢
        rwa [hjoin]
      exact absurd hp ((hs'.busy.mem n).mp hrun').2.2
  · rcases List.mem_append.mp hw with hw | hw
    · exact h.warned w (hkeeps.warnings ▸ hw)
    · exact hwarned w hw
  · have hn : n ∉ s.started := hstarted ▸ hn
    refine (hkeeps.outputs n hp fun hm => ?_).trans
      (h.seeds n hn fun hold => hp (hkeeps.pruned hold))
    obtain ⟨o, ho, rfl⟩ := List.mem_map.mp hm
    exact hn (hs.members_started hget _ (hadded o ho).1)

theorem Agrees.finished (hplain : setup.Plain) (hs : Settled setup s) (h : Agrees setup answer s)
    (hok : s.firstError = none) (hget : s.join[index]? = some task) {outputs : List V}
    (hmembers : setup.MembersEnd answer task.members (.ok outputs)) :
    Faithful setup answer ((task.members.zip outputs).foldl setup.complete (s.without index)) := by
  obtain ⟨hlen, hfates⟩ := hmembers
  have hclean := foldl_complete_clean hplain.expansions (task.members.zip outputs)
    (s := s.without index) hok
  constructor
  · intro hok'
    have hs' := hs.finished hplain.apart hget hlen hok'
    have hkeeps := Coordinator.Keeps.completeAll setup (s.without index) (task.members.zip outputs)
    have hended := h.ended hs hget hkeeps hplain.expansions hs' (fun o ho => ?_) []
      (fun n hn hp => absurd hp (hs'.sound.completed_kept n ?_)) (by simp)
    · simpa using hended
    · obtain ⟨node, -, hfate⟩ := hfates o ho
      exact ⟨(List.of_mem_zip ho).1, by rw [hfate, setup.answered_decided (hclean.mp hok' o ho)]⟩
    · show n ∈ List.map Prod.fst _
      rw [hkeeps.outcomes, List.map_append, List.map_fst_zip hlen.ge]
      exact List.mem_append_right _ hn
  · intro hne
    by_contra hno
    refine hne (hclean.mpr fun o ho hund => hno ?_)
    obtain ⟨node, -, hfate⟩ := hfates o ho
    exact ⟨o.1, hfate.trans (congrArg some (if_pos hund))⟩

omit [DecidableEq Key] in
/-- Only the first member of a task can be advisory. -/
theorem Setup.tail_not_advisory (setup : Setup V Key) {head n : Nat} {node : PlanNode}
    (hn : n ∈ head :: setup.tailOf head) (hne : n ≠ head)
    (hnode : setup.plan.nodes[n]? = some node) : node.stage.isAdvisory = false := by
  obtain ⟨p, -, g, hg, hin⟩ := setup.group_linked setup.start hn hne
  obtain ⟨node', hnode', hnot⟩ :=
    candidate_node (linked_of_neighbours (setup.grouped.chain g hg) hin).right
  cases hnode.symm.trans hnode'
  exact hnot

/-- An advisory stage failed: its node is given up with a warning. -/
theorem Agrees.abandoned (hplain : setup.Plain) (hs : Settled setup s) (h : Agrees setup answer s)
    (hget : s.join[index]? = some task) {node : PlanNode}
    (hnode : setup.plan.nodes[task.head]? = some node) (hadvisory : node.stage.isAdvisory = true)
    {reason : String} (hfate : setup.fates answer task.head = some (.warned reason)) :
    Agrees setup answer ((setup.abandon (s.without index) task.head).warn
      { idx := s.order.idxOf task.head, stage := node.stage.name, reason := reason }) := by
  have hstage : s.stageOf task.head = some node.stage := by
    unfold Coordinator.stageOf
    rw [h.graph.1, hnode]
    rfl
  have hlink := hs.advisory_unlinked hstage hadvisory
  have hwarning : setup.warningOf answer task.head =
      some { idx := s.order.idxOf task.head, stage := node.stage.name, reason := reason } := by
    unfold Setup.warningOf
    rw [hfate, hnode, h.graph.2.2]
  refine h.ended hs hget (Coordinator.Keeps.abandon (q := True) setup (s.without index) task.head)
    trivial (hs.abandoned hplain.apart hget hlink) (by simp) _ (fun n hn _ => ?_)
    (List.forall_mem_singleton.mpr ⟨_, hwarning⟩)
  unfold Task.members at hn
  rw [hs.tails task (List.mem_of_getElem? hget), setup.tailOf_eq_nil s hlink] at hn
  exact ⟨_, List.mem_singleton_self _, List.mem_singleton.mp hn ▸ hwarning⟩

theorem Agrees.failedStage (hplain : setup.Plain) (hs : Settled setup s) (h : Agrees setup answer s)
    (hok : s.firstError = none) (hget : s.join[index]? = some task) {n : Nat} {reason : String}
    (hmembers : setup.MembersEnd answer task.members (.error (n, reason))) :
    Faithful setup answer (setup.failStage (s.without index) task.head n reason) := by
  obtain ⟨hmem, node, hnode, hfate⟩ := hmembers
  have hstage : (s.without index).stageOf n = some node.stage := by
    show s.nodes[n]?.map PlanNode.stage = _
    rw [h.graph.1, hnode]
    rfl
  have hmem' : n ∈ task.head :: setup.tailOf task.head := by
    unfold Task.members at hmem
    rwa [hs.tails task (List.mem_of_getElem? hget)] at hmem
  unfold Setup.failStage
  rw [hstage]
  dsimp only
  split
  · rename_i hcond
    obtain ⟨rfl, hadvisory, hstrict⟩ := hcond
    rw [setup.abandon_warn]
    have hwarned : setup.fates answer task.head = some (.warned reason) := by
      rw [hfate]
      exact congrArg some (if_pos ⟨hadvisory, hstrict⟩)
    refine ⟨fun _ => h.abandoned hplain hs hget hnode hadvisory hwarned, fun hne => ?_⟩
    exact absurd ((setup.abandon_error (s.without index) task.head).trans hok) hne
  · rename_i hcond
    refine ⟨fun hnone => absurd hnone (Option.some_ne_none _), fun _ => ⟨n, ?_⟩⟩
    have hnot : ¬ (node.stage.isAdvisory = true ∧ setup.ctx.strictAdvisory = false) := by
      rintro ⟨hadvisory, hstrict⟩
      by_cases hhead : n = task.head
      · exact hcond ⟨hhead, hadvisory, hstrict⟩
      · rw [setup.tail_not_advisory hmem' hhead hnode] at hadvisory
        exact absurd hadvisory Bool.false_ne_true
    rw [hfate]
    exact congrArg some (if_neg hnot)

omit [DecidableEq Key] in
/-- The members of a running task have the fates that running it gives. -/
theorem Agrees.membersEnd (hs : Settled setup s) (h : Agrees setup answer s)
    (hget : s.join[index]? = some task) :
    setup.MembersEnd answer task.members (runMembers answer task.input task.members) := by
  have htask := List.mem_of_getElem? hget
  obtain ⟨hadmitted, hinput⟩ := h.fed task htask
  have hlt : task.head < setup.plan.nodes.length := by
    rw [← h.graph.1]
    exact hs.sound.started_mem _ (hs.members_started hget _ List.mem_cons_self)
  have htail := hs.tails task htask
  unfold Task.members
  rw [htail]
  rcases setup.tailOf_spec task.head with hg | ⟨hnil, -⟩
  · exact setup.membersEnd_run _ hadmitted hinput hlt (setup.grouped.chain _ hg) fun _ =>
      (setup.grouped.plain (List.ne_nil_of_mem hg)).2
  · rw [hnil]
    exact setup.membersEnd_run [] hadmitted hinput hlt (List.isChain_singleton _) fun hne =>
      absurd rfl hne

theorem Agrees.step (hplain : setup.Plain)
    (hs : Settled setup s) (h : Agrees setup answer s) (hok : s.firstError = none) {move : Move V}
    (hgiven : Given answer s move) (hstep : setup.step s move = some s') :
    Faithful setup answer s' := by
  cases Setup.moves_of_step hstep with
  | drain hok =>
    have hsame : setup.drain s = s := by
      unfold Setup.drain
      rw [h.pending]
      show { s with pendingSpawns := [] } = s
      rw [← h.pending]
    rw [hsame]
    exact ⟨fun _ => h, fun hne => absurd hok hne⟩
  | dispatch node hok hready => exact h.dispatch hplain.apart hs hok hready
  | finish index task result hget hpossible =>
    have hend := h.membersEnd hs hget
    rcases hgiven task hget with ⟨hne, -⟩ | rfl
    · exact absurd hok hne
    cases hrun : runMembers answer task.input task.members with
    | ok outputs =>
      rw [hrun] at hend
      exact h.finished hplain hs hok hget hend
    | error failure =>
      rw [hrun] at hend
      exact h.failedStage hplain hs hok hget hend
  | suggest subplan hcontrol => exact absurd (hplain.control.symm.trans hcontrol) (by decide)

theorem Reachable.faithful (hplain : setup.Plain)
    (h : Reachable setup (Given answer) s) : Faithful setup answer s := by
  induction h with
  | start => exact ⟨fun _ => agrees_start setup answer, fun hne => absurd rfl hne⟩
  | @step s s' move hreach hgiven hstep ih =>
    by_cases hok : s.firstError = none
    · exact (ih.agrees hok).step hplain (hreach.settled hplain.apart hok) hok hgiven hstep
    · have hkept : s'.firstError ≠ none := fun hok' =>
        hok (Settled.step hplain.apart (hreach.settled hplain.apart) hstep hok').1
      exact ⟨fun hok' => absurd hok' hkept, fun _ => ih.failed hok⟩

end Moves

end Blut.Framework
