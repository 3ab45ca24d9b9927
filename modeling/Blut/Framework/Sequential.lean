/-
  Running the nodes one after the other (`SequentialExecutor`, `execute_fused_linear_plan`).

  Both take the nodes in their order, build the task of each from the outputs so far and run it.
  The sequential executor stops with a warning at the first advisory failure, the fused chain has
  no advisory answer and treats every failure as fatal. `runNodes_end` says how the loop ends in
  terms of the fates: at the first node of the order that does not complete.
-/
import Blut.Framework.Results

namespace Blut.Framework

open Blut.Lib

variable {V Key : Type}

/-! ## The loop -/

structure InOrder (V : Type) where
  outputs : Nat → Option V
  executed : List Nat
  warnings : List StageWarning

def InOrder.start (plan : CompiledPlan V) : InOrder V where
  outputs := plan.initial
  executed := []
  warnings := []

def InOrder.record (st : InOrder V) (n : Nat) (output : V) : InOrder V :=
  { st with
    outputs := Function.update st.outputs n (some output)
    executed := st.executed ++ [n] }

def InOrder.warn (st : InOrder V) (warning : StageWarning) : InOrder V :=
  { st with warnings := st.warnings ++ [warning] }

/-- `lenient`: an advisory failure stops the loop with a warning. -/
def runNodes (plan : CompiledPlan V) (runtime : Runtime V Key) (answer : Answer V)
    (lenient : Bool) : Nat → List Nat → InOrder V → Outcome PlanError (InOrder V)
  | _, [], st => .ok st
  | idx, n :: rest, st => do
    let node ← expect plan.nodes[n]?
    let input ← gatherInput runtime plan.edges st.outputs n
    match answer n input with
    | .ok output => runNodes plan runtime answer lenient (idx + 1) rest (st.record n output)
    | .error reason =>
      if lenient = true ∧ node.stage.isAdvisory = true then
        return st.warn { idx := idx, stage := node.stage.name, reason := reason }
      else throw (.err (.stageFailed idx node.stage.name reason))

/-- `final_output` with its node. -/
def InOrder.finalOutput (st : InOrder V) (order : List Nat) : Option (Nat × V) :=
  let slot := fun id => (st.outputs id).map fun artifact => (id, artifact)
  if st.warnings.isEmpty then order.getLast?.bind slot else order.reverse.findSome? slot

def InOrder.observed (st : InOrder V) (order : List Nat) : Observed V where
  executed := st.executed.toFinset
  warnings := st.warnings.toFinset
  finalOutput := (st.finalOutput order).map Prod.snd

/-- `SequentialExecutor`: the end of its loop. -/
def Setup.runSequential (setup : Setup V Key) (answer : Answer V) :
    Outcome PlanError (InOrder V) :=
  runNodes setup.plan setup.runtime answer (!setup.ctx.strictAdvisory) 0 setup.order
    (InOrder.start setup.plan)

def Setup.sequentialResult (setup : Setup V Key) (answer : Answer V) :
    Outcome PlanError (Observed V) := do
  let st ← setup.runSequential answer
  return st.observed setup.order

/-- `execute_fused_linear_plan`; nothing is pruned. -/
def Setup.linearResult (setup : Setup V Key) (answer : Answer V)
    (members : List Nat) : Outcome PlanError (Report V) := do
  let st ← runNodes setup.plan setup.runtime answer false 0 members (InOrder.start setup.plan)
  return {
    executed := st.executed.toFinset
    warnings := ∅
    finalOutput := members.getLast?.bind st.outputs
    pruned := ∅
    outputs := fun n => if n ∈ st.executed then st.outputs n else none }

/-! ## The loop and the fates -/

section Loop

variable {setup : Setup V Key} {answer : Answer V}
  {lenient : Bool}

/-- The state of the loop when these nodes have completed. -/
def Setup.ranUpTo (setup : Setup V Key) (answer : Answer V) (before : List Nat) : InOrder V where
  outputs := fun n => if n ∈ before then valueOf (setup.fates answer) n else setup.plan.initial n
  executed := before
  warnings := []

variable {before : List Nat}

theorem Setup.ranUpTo_record (setup : Setup V Key) {n : Nat} {v : V}
    (hv : valueOf (setup.fates answer) n = some v) :
    (setup.ranUpTo answer before).record n v = setup.ranUpTo answer (before ++ [n]) := by
  unfold Setup.ranUpTo InOrder.record
  congr 1
  funext m
  by_cases hm : m = n
  · subst hm
    simp [hv]
  · rw [Function.update_of_ne hm]
    simp [hm]

/-- Every node of the order comes after the nodes it reads. -/
def InOrder.Closed (plan : CompiledPlan V) (order : List Nat) : Prop :=
  ∀ before n after, order = before ++ n :: after → n ∉ before ∧
    ∀ p ∈ predecessors plan.edges n, p ∈ before

/-- A node whose predecessors have completed is admitted and reads what the fates say. -/
theorem Setup.ranUpTo_gather (hplain : setup.plan.conditionGates = []) {n : Nat}
    (hdone : ∀ m ∈ before, (valueOf (setup.fates answer) m).isSome = true) (hn : n ∉ before)
    (hpreds : ∀ p ∈ predecessors setup.plan.edges n, p ∈ before) :
    Admitted setup.plan setup.runtime (setup.fates answer) n ∧
      gatherInput setup.runtime setup.plan.edges (setup.ranUpTo answer before).outputs n =
        setup.inputOf answer n := by
  refine ⟨⟨fun p hp => hdone p (hpreds p hp), fun g hg => ?_⟩, ?_⟩
  · rw [hplain] at hg
    exact absurd hg List.not_mem_nil
  · refine gatherInput_congr setup.runtime (fun p hp => ?_) fun _ => ?_
    · unfold inputsFor
      rw [Function.update_of_ne (setup.edge_ne (mem_predecessors.mp hp))]
      exact if_pos (hpreds p hp)
    · unfold inputsFor
      rw [Function.update_self]
      exact if_neg hn

/-- How the loop can end: every node completed, or the first that did not was fatal, or it was
    advisory. -/
inductive Setup.LoopEnd (setup : Setup V Key) (answer : Answer V) (order : List Nat) :
    Outcome PlanError (InOrder V) → Prop where
  | completed : (∀ n ∈ order, (valueOf (setup.fates answer) n).isSome = true) →
      LoopEnd setup answer order (.ok (setup.ranUpTo answer order))
  | failed {before after : List Nat} {f : Nat} (fault : Fault PlanError) :
      order = before ++ f :: after →
      (∀ n ∈ before, (valueOf (setup.fates answer) n).isSome = true) →
      setup.fates answer f = some .fatal → LoopEnd setup answer order (.error fault)
  | stopped {before after : List Nat} {f : Nat} {node : PlanNode} {reason : String} :
      order = before ++ f :: after →
      (∀ n ∈ before, (valueOf (setup.fates answer) n).isSome = true) →
      setup.plan.nodes[f]? = some node → setup.fates answer f = some (.warned reason) →
      LoopEnd setup answer order (.ok ((setup.ranUpTo answer before).warn
        { idx := before.length, stage := node.stage.name, reason := reason }))

/-- An advisory failure stops the loop just when it is a warning. -/
def Setup.Lenient (setup : Setup V Key) (lenient : Bool) (order : List Nat) : Prop :=
  ∀ n ∈ order, ∀ node, setup.plan.nodes[n]? = some node →
    (lenient = true ∧ node.stage.isAdvisory = true ↔
      node.stage.isAdvisory = true ∧ setup.ctx.strictAdvisory = false)

/-- From any point where everything before has completed. -/
theorem Setup.runNodes_end (setup : Setup V Key) (hplain : setup.plan.conditionGates = [])
    {order : List Nat} (hclosed : InOrder.Closed setup.plan order)
    (hlt : ∀ n ∈ order, n < setup.plan.nodes.length) (hlenient : setup.Lenient lenient order)
    (rest : List Nat) (hsplit : order = before ++ rest)
    (hdone : ∀ n ∈ before, (valueOf (setup.fates answer) n).isSome = true) :
    setup.LoopEnd answer order (runNodes setup.plan setup.runtime answer lenient before.length rest
      (setup.ranUpTo answer before)) := by
  induction rest generalizing before with
  | nil =>
    rw [List.append_nil] at hsplit
    subst hsplit
    exact .completed hdone
  | cons n rest ih =>
    have hmem : n ∈ order := by
      rw [hsplit]
      simp
    obtain ⟨hnew, hpreds⟩ := hclosed before n rest hsplit
    obtain ⟨hadmitted, hgather⟩ := setup.ranUpTo_gather hplain hdone hnew hpreds
    have hnode : setup.plan.nodes[n]? = some (setup.plan.nodes.get ⟨n, hlt n hmem⟩) :=
      List.getElem?_eq_getElem (hlt n hmem)
    unfold runNodes
    rw [hgather, hnode]
    show setup.LoopEnd answer order (setup.inputOf answer n >>= _)
    cases hinput : setup.inputOf answer n with
    | error fault =>
      have hfatal := setup.fates_stuck ((setup.mem_order n).mpr (hlt n hmem)) hadmitted hinput
      exact .failed fault hsplit hdone hfatal
    | ok input =>
      have hby := setup.answeredBy hadmitted hinput (hlt n hmem)
      obtain ⟨node, hnode', hfate⟩ := hby
      cases hnode.symm.trans hnode'
      show setup.LoopEnd answer order
          (match answer n input with | .ok output => _ | .error reason => _)
      cases hanswer : answer n input with
      | ok output =>
        rw [hanswer, setup.answered_decided (setup.not_undecided hplain _)] at hfate
        have hvalue := valueOf_eq_some.mpr hfate
        have hnext := @ih (before ++ [n]) (by simpa using hsplit)
          (List.forall_mem_append.mpr ⟨hdone, List.forall_mem_singleton.mpr (by rw [hvalue]; rfl)⟩)
        rwa [List.length_append, ← setup.ranUpTo_record hvalue] at hnext
      | error reason =>
        rw [hanswer] at hfate
        have hiff := hlenient n hmem _ hnode
        dsimp only
        split
        · rename_i hcond
          have hwarned := hfate.trans (congrArg some (if_pos (hiff.mp hcond)))
          exact .stopped hsplit hdone hnode hwarned
        · rename_i hcond
          have hfatal := hfate.trans (congrArg some (if_neg fun h => hcond (hiff.mpr h)))
          exact .failed _ hsplit hdone hfatal

theorem Setup.closed_order (setup : Setup V Key) : InOrder.Closed setup.plan setup.order := by
  have hordered := topoOrder_eq_ok setup.ordered
  intro before n after hsplit
  refine ⟨fun hn => ?_, fun p hp => ?_⟩
  · have hnd := hordered.nodup
    rw [hsplit] at hnd
    exact (List.nodup_append.mp hnd).2.2 n hn n List.mem_cons_self rfl
  · exact hordered.topological before n after hsplit p
      (mem_arcsOf.mpr (Or.inl (mem_predecessors.mp hp)))

theorem Setup.sequential_end (setup : Setup V Key) (answer : Answer V)
    (hplain : setup.plan.conditionGates = []) :
    setup.LoopEnd answer setup.order (setup.runSequential answer) := by
  have hlenient : setup.Lenient (!setup.ctx.strictAdvisory) setup.order := by
    intro n _ node _
    rw [Bool.not_eq_true', and_comm]
  exact setup.runNodes_end hplain setup.closed_order (fun n hn => (setup.mem_order n).mp hn)
    hlenient setup.order (List.nil_append _).symm (by simp)

end Loop

/-! ## When every node completes -/

section Complete

variable {setup : Setup V Key} {answer : Answer V}

theorem Setup.not_fails_of_values (setup : Setup V Key)
    (hall : ∀ n ∈ setup.order, (valueOf (setup.fates answer) n).isSome = true) :
    ¬ setup.Fails answer := by
  rintro ⟨n, hfatal⟩
  have hsome := hall n (setup.mem_of_fates hfatal)
  rw [valueOf_eq hfatal] at hsome
  exact absurd hsome Bool.false_ne_true

theorem Setup.warnings_of_values (setup : Setup V Key) {order : List Nat}
    (hall : ∀ n ∈ order, (valueOf (setup.fates answer) n).isSome = true) :
    order.filterMap (setup.warningOf answer) = [] := by
  rw [List.filterMap_eq_nil_iff]
  intro n hn
  by_contra hne
  obtain ⟨w, hw⟩ := Option.ne_none_iff_exists'.mp hne
  have hsome := hall n hn
  rw [(setup.value_of_warning hw).2] at hsome
  exact absurd hsome Bool.false_ne_true

theorem Setup.conditionalTerminal_plain (hplain : setup.plan.conditionGates = []) :
    setup.conditionalTerminal = none := by
  unfold Setup.conditionalTerminal
  rw [hplain]
  rfl

theorem Setup.denoted_of_values (setup : Setup V Key) (hplain : setup.plan.conditionGates = [])
    (hall : ∀ n ∈ setup.order, (valueOf (setup.fates answer) n).isSome = true) :
    ({ executed := setup.order.toFinset
       warnings := ∅
       finalOutput := setup.order.getLast?.bind (setup.ranUpTo answer setup.order).outputs
       pruned := ∅
       outputs := fun n => if n ∈ setup.order then (setup.ranUpTo answer setup.order).outputs n
         else none } : Report V) = setup.denoted answer := by
  have hvalues : ∀ n ∈ setup.order,
      (setup.ranUpTo answer setup.order).outputs n = valueOf (setup.fates answer) n := fun n hn =>
    if_pos hn
  have houtputs : (fun n => if n ∈ setup.order then (setup.ranUpTo answer setup.order).outputs n
      else none) = valueOf (setup.fates answer) := by
    funext n
    split
    · rename_i hn
      exact hvalues n hn
    · rename_i hn
      exact (setup.value_of_not_mem answer hn).symm
  have hexecuted : setup.order.toFinset.filter
      (fun n => (valueOf (setup.fates answer) n).isSome = true) = setup.order.toFinset := by
    rw [Finset.filter_eq_self]
    exact fun n hn => hall n (List.mem_toFinset.mp hn)
  have hpruned : setup.order.toFinset.filter
      (fun n => (valueOf (setup.fates answer) n).isNone = true) = ∅ := by
    rw [Finset.filter_eq_empty_iff]
    intro n hn hnone
    have hsome := hall n (List.mem_toFinset.mp hn)
    rw [Option.isNone_iff_eq_none.mp hnone] at hsome
    exact absurd hsome Bool.false_ne_true
  have hfinal : setup.order.getLast?.bind (setup.ranUpTo answer setup.order).outputs =
      (setup.chosenOutput true setup.order (valueOf (setup.fates answer))).map Prod.snd := by
    unfold Setup.chosenOutput
    rw [setup.conditionalTerminal_plain hplain]
    cases hlast : setup.order.getLast? with
    | none => rfl
    | some last =>
      show (setup.ranUpTo answer setup.order).outputs last = _
      rw [hvalues last (List.mem_of_getLast? hlast)]
      simp
  unfold Setup.denoted
  rw [houtputs, hfinal, setup.warnings_of_values hall, hexecuted, hpruned]
  rfl

end Complete

/-! ## The fused chain -/

section Linear

variable {setup : Setup V Key} {answer : Answer V}

variable {members : List Nat}

theorem Setup.order_perm (setup : Setup V Key) :
    setup.order.Perm (List.range setup.plan.nodes.length) := by
  rw [List.perm_ext_iff_of_nodup (topoOrder_eq_ok setup.ordered).nodup List.nodup_range]
  intro n
  rw [setup.mem_order, List.mem_range]

/-- A plan that is one chain has one order. -/
theorem Setup.fullLinear_eq_order (setup : Setup V Key)
    (h : setup.plan.fullLinearFusionOrder = some members) :
    members = setup.order ∧ members.IsChain (Linked setup.plan) ∧ 2 ≤ members.length := by
  have hordered := topoOrder_eq_ok setup.ordered
  have hchains := chains_findFusedSubchains setup.plan
  unfold CompiledPlan.fullLinearFusionOrder at h
  split at h
  · rename_i found hfound
    split at h
    · rename_i hall
      cases h
      rw [hfound] at hchains
      have hchain := hchains.chain members List.mem_cons_self
      have hnd : members.Nodup := by simpa using hchains.apart
      have hlong := hchains.long members List.mem_cons_self
      have hlength : members.length = setup.plan.nodes.length := by
        rw [Bool.and_eq_true] at hall
        exact of_decide_eq_true hall.1
      have hsub : members ⊆ setup.order := by
        intro n hn
        rw [hordered.mem]
        exact lt_of_chain hchain hlong hn
      have hperm : members.Perm setup.order := by
        refine (List.subperm_of_subset hnd hsub).perm_of_length_le ?_
        rw [setup.order_perm.length_eq, List.length_range, hlength]
      refine ⟨?_, hchain, hlong⟩
      refine Topological.eq_of_chain hordered.nodup hordered.topological hperm ?_
      exact hchain.imp fun a b hab => mem_arcsOf.mpr (Or.inl hab.edge)
    · cases h
  · cases h

/-- How the chain ends; it has no advisory stage. -/
theorem Setup.linear_end (setup : Setup V Key) (answer : Answer V)
    (h : setup.plan.fullLinearFusionOrder = some members) :
    members = setup.order ∧ setup.plan.conditionGates = [] ∧
      (∀ n reason, setup.fates answer n ≠ some (.warned reason)) ∧
      setup.LoopEnd answer setup.order (runNodes setup.plan setup.runtime answer false 0 members
        (InOrder.start setup.plan)) := by
  obtain ⟨rfl, hchain, hlong⟩ := setup.fullLinear_eq_order h
  have hplain : setup.plan.conditionGates = [] := by
    refine (findFusedSubchains_plain fun hnil => ?_).2
    unfold CompiledPlan.fullLinearFusionOrder at h
    rw [hnil] at h
    cases h
  have hadvisory : ∀ n ∈ setup.order, ∀ node, setup.plan.nodes[n]? = some node →
      node.stage.isAdvisory = false := by
    intro n hn node hnode
    obtain ⟨node', hnode', hnot⟩ := candidate_node (candidate_of_chain hchain hlong hn)
    cases hnode.symm.trans hnode'
    exact hnot
  have hlenient : setup.Lenient false setup.order := by
    intro n hn node hnode
    rw [hadvisory n hn node hnode]
    simp
  refine ⟨rfl, hplain, fun n reason hwarned => ?_, setup.runNodes_end hplain setup.closed_order
    (fun n hn => (setup.mem_order n).mp hn) hlenient setup.order (List.nil_append _).symm (by simp)⟩
  obtain ⟨node, hnode, hadv, -, -⟩ := setup.fates_warned hwarned
  rw [hadvisory n (setup.mem_of_fates hwarned) node hnode] at hadv
  exact absurd hadv Bool.false_ne_true

/-- The chain completes with what the fates denote, or a node of it is fatal. -/
theorem Setup.linear_eq (setup : Setup V Key) (answer : Answer V)
    (h : setup.plan.fullLinearFusionOrder = some members) :
    (setup.Fails answer ∧ ∃ fault, setup.linearResult answer members = .error fault) ∨
      (¬ setup.Fails answer ∧ setup.linearResult answer members = .ok (setup.denoted answer)) := by
  obtain ⟨rfl, hplain, hwarned, hend⟩ := setup.linear_end answer h
  unfold Setup.linearResult
  generalize runNodes setup.plan setup.runtime answer false 0 setup.order
    (InOrder.start setup.plan) = result at hend
  cases hend with
  | completed hall =>
    exact Or.inr ⟨setup.not_fails_of_values hall,
      congrArg Except.ok (setup.denoted_of_values hplain hall)⟩
  | failed fault hsplit hdone hfatal => exact Or.inl ⟨⟨_, hfatal⟩, fault, rfl⟩
  | stopped hsplit hdone hnode hfate => exact absurd hfate (hwarned _ _)

end Linear

end Blut.Framework
