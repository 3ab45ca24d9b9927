/-
  Runs in which every stage succeeds.

  When every node answers, the outputs of a plan without gates solve the equations of its nodes
  (`Setup.solved`), and each executor starts every node once and ends with the solution
  (`Setup.Executes.spec`).
-/
import Blut.Framework.Executors
import Blut.Framework.Components

namespace Blut.Framework

open Blut.Lib

variable {V Key : Type}

/-! ## The equations of a plan -/

variable {outputs : Nat → Option V}

/-- How the inputs of a node reach its stage. -/
def packed (tuple : List V → V) (unit : V) : List V → V
  | [] => unit
  | [single] => single
  | many => tuple many

theorem gatherInput_packed (runtime : Runtime V Key) {edges : List PlanEdge} {value : Nat → V}
    {unit : V} {n : Nat} (hpreds : ∀ p ∈ predecessors edges n, outputs p = some (value p))
    (hroot : predecessors edges n = [] → outputs n = some unit) :
    gatherInput runtime edges outputs n =
      .ok (packed runtime.tuple unit ((predecessors edges n).map value)) := by
  have hfetch : ∀ p ∈ predecessors edges n, fetchOutput outputs n p = .ok (value p) := by
    intro p hp
    unfold fetchOutput
    rw [hpreds p hp]
    rfl
  unfold gatherInput
  split
  · rename_i hnil
    rw [hroot hnil, hnil]
    rfl
  · rename_i single hsingle
    rw [hfetch single (by simp [hsingle]), hsingle]
    rfl
  · rename_i hnone hone
    rw [mapM_eq_map hfetch]
    show Except.ok _ = Except.ok _
    cases hpred : predecessors edges n with
    | nil => exact absurd hpred hnone
    | cons first rest =>
      cases rest with
      | nil => exact absurd hpred (hone first)
      | cons second rest => rfl

section Solution

variable (setup : Setup V Key) {answer : Answer V} {f : Nat → V → V} {unit : V}
  (hgates : setup.plan.conditionGates = [])
  (hroots : ∀ n < setup.plan.nodes.length, predecessors setup.plan.edges n = [] →
    setup.plan.initial n = some unit)
  (hanswer : ∀ n < setup.plan.nodes.length, ∀ input, answer n input = .ok (f n input))
include hgates hroots hanswer

/-- A node whose inputs are there completes. -/
theorem Setup.value_of_preds {n : Nat} (hn : n < setup.plan.nodes.length) (value : Nat → V)
    (hpreds : ∀ p ∈ predecessors setup.plan.edges n,
      valueOf (setup.fates answer) p = some (value p)) :
    valueOf (setup.fates answer) n = some (f n (packed setup.runtime.tuple unit
      ((predecessors setup.plan.edges n).map value))) := by
  have hadmitted : Admitted setup.plan setup.runtime (setup.fates answer) n := by
    refine ⟨fun p hp => ?_, fun g hg => ?_⟩
    · rw [hpreds p hp]
      rfl
    · rw [hgates] at hg
      exact absurd hg List.not_mem_nil
  have hinput : gatherInput setup.runtime setup.plan.edges
      (inputsFor setup.plan (setup.fates answer) n) n =
        .ok (packed setup.runtime.tuple unit ((predecessors setup.plan.edges n).map value)) := by
    refine gatherInput_packed setup.runtime (fun p hp => ?_) fun hroot => ?_
    · unfold inputsFor
      rw [Function.update_of_ne (setup.edge_ne (mem_predecessors.mp hp))]
      exact hpreds p hp
    · unfold inputsFor
      rw [Function.update_self]
      exact hroots n hn hroot
  have hfate := setup.fates_answered hadmitted (List.getElem?_eq_getElem hn) hinput
  rw [hanswer n hn, setup.answered_decided (setup.not_undecided hgates (n, _))] at hfate
  exact valueOf_eq_some.mpr hfate

/-- The outputs solve the equations of the nodes. -/
theorem Setup.solved :
    ∃ value : Nat → V,
      (∀ n < setup.plan.nodes.length, valueOf (setup.fates answer) n = some (value n)) ∧
      ∀ n < setup.plan.nodes.length, value n = f n (packed setup.runtime.tuple unit
        ((predecessors setup.plan.edges n).map value)) := by
  let value := fun n => (valueOf (setup.fates answer) n).getD unit
  have hvalue : ∀ n, n < setup.plan.nodes.length →
      valueOf (setup.fates answer) n = some (value n) := by
    intro n
    induction n using setup.wellFounded_edges.induction with
    | h n ih =>
      intro hn
      have hsome := setup.value_of_preds hgates hroots hanswer hn value fun p hp =>
        ih p (mem_predecessors.mp hp) (setup.plan.inRange _ (mem_predecessors.mp hp)).1
      show _ = some ((valueOf (setup.fates answer) n).getD unit)
      rw [hsome]
      rfl
  refine ⟨value, hvalue, fun n hn => ?_⟩
  have hsome := setup.value_of_preds hgates hroots hanswer hn value fun p hp =>
    hvalue p (setup.plan.inRange _ (mem_predecessors.mp hp)).1
  exact Option.some.inj ((hvalue n hn).symm.trans hsome)

end Solution

/-! ## The executors -/

variable [DecidableEq Key] {answer : Answer V} {setup : Setup V Key}

/-- The moves of a run with these answers in which the control policy, if there is one, suggests
    nothing. -/
def Undisturbed (answer : Answer V) (s : Coordinator V Key) (move : Move V) : Prop :=
  Given answer s move ∧ ∀ subplan, move ≠ .suggest subplan

variable {s : Coordinator V Key}

omit [DecidableEq Key] in
theorem Answer.undisturbed_moveOf {choice : Choice} {move : Move V}
    (h : answer.moveOf s choice = some move) : Undisturbed answer s move := by
  refine ⟨Answer.given_moveOf h, fun subplan heq => ?_⟩
  subst heq
  cases choice with
  | take node => cases h
  | await index =>
    obtain ⟨task, -, heq⟩ := Option.map_eq_some_iff.mp h
    cases heq

/-- A run of the prepared plan to its end: the nodes that were started, in order, and outputs. -/
inductive Setup.Executes (setup : Setup V Key) (answer : Answer V) :
    PreparedExecutorMode → List Nat → (Nat → Option V) → Prop where
  | inOrder {st : InOrder V} : setup.runSequential answer = .ok st →
      Executes setup answer .sequential st.executed st.outputs
  | loop {s : Coordinator V Key} : Reachable setup (Undisturbed answer) s → s.Done →
      Executes setup answer .parallel s.started s.outputs
  | chain {members : List Nat} {st : InOrder V} : setup.plan.fullLinearFusionOrder = some members →
      runNodes setup.plan setup.runtime answer false 0 members (InOrder.start setup.plan) = .ok st →
      Executes setup answer .parallel st.executed st.outputs

/-- The same plan without the control policy. -/
def Setup.withoutControl (setup : Setup V Key) : Setup V Key :=
  { setup with
    ctx := { setup.ctx with control := false }
    uncontrolled := fun _ => rfl }

omit [DecidableEq Key] in
theorem Setup.queueExpansions_withoutControl (setup : Setup V Key) (node : Nat) (output : V)
    (expansions : List MapExpansion) (s : Coordinator V Key) :
    setup.withoutControl.queueExpansions node output expansions s =
      setup.queueExpansions node output expansions s := by
  induction expansions generalizing s with
  | nil => rfl
  | cons expansion rest ih =>
    simp only [Setup.queueExpansions, ih]
    rfl

omit [DecidableEq Key] in
theorem Setup.drainLoop_withoutControl (setup : Setup V Key) (deltas : List (SpawnDelta V))
    (s : Coordinator V Key) :
    setup.withoutControl.drainLoop deltas s = setup.drainLoop deltas s := by
  induction deltas generalizing s with
  | nil => rfl
  | cons delta rest ih =>
    simp only [Setup.drainLoop, ih]
    rfl

theorem Setup.complete_withoutControl (setup : Setup V Key) :
    setup.withoutControl.complete = setup.complete := by
  funext s outcome
  unfold Setup.complete
  have hqueue : setup.withoutControl.queueExpansions outcome.1 outcome.2
      setup.withoutControl.plan.expansions = setup.queueExpansions outcome.1 outcome.2
        setup.plan.expansions := by
    funext s
    exact setup.queueExpansions_withoutControl outcome.1 outcome.2 _ s
  rw [hqueue]
  rfl

theorem Setup.process_withoutControl (setup : Setup V Key) (s : Coordinator V Key)
    (task : Task V Key) (result : TaskResult V) :
    setup.withoutControl.process s task result = setup.process s task result := by
  cases result with
  | finished outputs =>
    unfold Setup.process
    rw [setup.complete_withoutControl]
  | killed => rfl
  | stage node source => rfl
  | cancelled => rfl
  | other error => rfl

/-- A policy that neither kills nor suggests makes no difference. -/
theorem Setup.step_withoutControl {s' : Coordinator V Key} {move : Move V}
    (h : Undisturbed answer s move) (hstep : setup.step s move = some s') :
    setup.withoutControl.step s move = some s' := by
  cases move with
  | drain =>
    simp only [Setup.step, Setup.drain, setup.drainLoop_withoutControl] at hstep ⊢
    exact hstep
  | dispatch node => exact hstep
  | suggest subplan => exact absurd rfl (h.2 subplan)
  | finish index result =>
    cases hget : s.join[index]? with
    | none =>
      simp only [Setup.step, hget] at hstep
      cases hstep
    | some task =>
      have hpossible : setup.withoutControl.possible task result ↔ setup.possible task result := by
        rcases h.1 task hget with ⟨-, rfl⟩ | rfl
        · exact Iff.rfl
        · cases runMembers answer task.input task.members <;> exact Iff.rfl
      simp only [Setup.step, hget] at hstep ⊢
      simp only [hpossible, setup.process_withoutControl]
      exact hstep

theorem Reachable.withoutControl (h : Reachable setup (Undisturbed answer) s) :
    Reachable setup.withoutControl (Given answer) s := by
  induction h with
  | start => exact .start
  | step _ hmove hstep ih => exact ih.step hmove.1 (Setup.step_withoutControl hmove hstep)

omit [DecidableEq Key] in
/-- A loop over the order ends with every node completed. -/
theorem Setup.LoopEnd.eq_ok {st : InOrder V} (h : setup.LoopEnd answer setup.order (.ok st))
    (hall : ∀ n < setup.plan.nodes.length, (valueOf (setup.fates answer) n).isSome = true) :
    st = setup.ranUpTo answer setup.order := by
  generalize hresult : (Except.ok st : Outcome PlanError (InOrder V)) = result at h
  cases h with
  | completed _ => exact Except.ok.inj hresult
  | failed fault _ _ _ => cases hresult
  | stopped _ _ hnode hfate =>
    have hsome := hall _ (List.getElem?_eq_some_iff.mp hnode).1
    rw [valueOf_eq hfate] at hsome
    exact absurd hsome Bool.false_ne_true

/-- When every node has a value it is started once and ends with it. -/
theorem Setup.Executes.spec {mode : PreparedExecutorMode} {executed : List Nat}
    (h : setup.Executes answer mode executed outputs) (hgates : setup.plan.conditionGates = [])
    (hexp : setup.plan.expansions = [])
    (hall : ∀ n < setup.plan.nodes.length, (valueOf (setup.fates answer) n).isSome = true) :
    executed.Perm (List.range setup.plan.nodes.length) ∧
      ∀ n < setup.plan.nodes.length, outputs n = valueOf (setup.fates answer) n := by
  have hran : ∀ n < setup.plan.nodes.length,
      (setup.ranUpTo answer setup.order).outputs n = valueOf (setup.fates answer) n :=
    fun n hn => if_pos ((setup.mem_order n).mpr hn)
  cases h with
  | inOrder hrun =>
    have hend := setup.sequential_end answer hgates
    rw [hrun] at hend
    rw [hend.eq_ok hall]
    exact ⟨setup.order_perm, hran⟩
  | chain hmembers hrun =>
    obtain ⟨-, -, -, hend⟩ := setup.linear_end answer hmembers
    rw [hrun] at hend
    rw [hend.eq_ok hall]
    exact ⟨setup.order_perm, hran⟩
  | @loop s hreach hdone =>
    have hplain : setup.withoutControl.Plain := ⟨.of_none hgates, hexp, rfl⟩
    have hreach' := hreach.withoutControl
    have hfaithful := hreach'.faithful hplain
    have hok : s.firstError = none := by
      by_contra hne
      exact setup.not_fails_of_values (fun n hn => hall n ((setup.mem_order n).mp hn))
        (hfaithful.failed hne)
    have hs := hreach'.settled hplain.apart hok
    have haccounted := hs.accounted hplain.apart hdone hok
    have hagrees := hfaithful.agrees hok
    have hvalue := fun n (hn : n < setup.plan.nodes.length) =>
      hagrees.value_eq hplain.apart hs haccounted ((setup.mem_order n).mpr hn)
    refine ⟨?_, fun n hn => (hvalue n hn).1⟩
    rw [List.perm_ext_iff_of_nodup (hreach'.started_nodup hplain.apart) List.nodup_range]
    intro n
    rw [List.mem_range]
    constructor
    · intro hn
      have hmem : n < s.nodes.length := hs.sound.started_mem n hn
      rwa [hagrees.graph.1] at hmem
    · intro hn
      exact hs.sound.completed_started n ((hvalue n hn).2.mpr (hall n hn))

end Blut.Framework
