/-
  The sequential executor against the parallel one.

  The sequential executor stops at the first advisory failure, the parallel one gives up only what
  is behind it. So on a plan of which the optimizer drops no node they agree when everything after
  the failure in the order is behind it, and the failed node has no seed that the search for a
  result could find (`executors_agree_iff`).
-/
import Blut.Lib.Lists
import Blut.Framework.DeadCode
import Blut.Framework.Equivalence

namespace Blut.Framework

open Blut.Lib

variable {V Key : Type}

/-! ## Behind a node that did not complete -/

section Behind

variable {setup : Setup V Key} {answer : Answer V}

def CompiledPlan.DataPath (plan : CompiledPlan V) : Nat → Nat → Prop :=
  Relation.ReflTransGen fun a b => (⟨a, b⟩ : PlanEdge) ∈ plan.edges

theorem CompiledPlan.dataPath_lt (plan : CompiledPlan V) {a b : Nat} (ha : a < plan.nodes.length)
    (h : plan.DataPath a b) : b < plan.nodes.length := by
  rcases Relation.ReflTransGen.cases_tail h with heq | ⟨p, -, hedge⟩
  · rw [heq]
    exact ha
  · exact (plan.inRange _ hedge).2

/-- What is behind a node without an output is skipped. -/
theorem Setup.skipped_behind {f n : Nat} (hf : valueOf (setup.fates answer) f = none)
    (hpath : setup.plan.DataPath f n) : n = f ∨ setup.fates answer n = some .skipped := by
  induction hpath with
  | refl => exact Or.inl rfl
  | @tail b c hfb hbc ih =>
    have hnone : valueOf (setup.fates answer) b = none := by
      rcases ih with rfl | hskip
      · exact hf
      · exact valueOf_eq hskip
    have hc : c ∈ setup.order := (setup.mem_order c).mpr (setup.plan.inRange _ hbc).2
    refine Or.inr (setup.fates_skipped hc fun hadmitted => ?_)
    have hsome := hadmitted.1 b (mem_predecessors.mpr hbc)
    rw [hnone] at hsome
    exact absurd hsome Bool.false_ne_true

theorem Setup.wellFounded_edges (setup : Setup V Key) :
    WellFounded fun a b => (⟨a, b⟩ : PlanEdge) ∈ setup.plan.edges := by
  have hordered := topoOrder_eq_ok setup.ordered
  have hwf := wellFounded_of_topological hordered.nodup hordered.topological
    (fun e he => (hordered.mem e.2).mpr (arcs_inRange setup.plan he).2)
  exact Subrelation.wf (fun {a b} hab => mem_arcsOf.mpr (Or.inl hab)) hwf

/-- When every node after the first that did not complete is skipped, they are all behind it. -/
theorem Setup.behind_of_skipped (hplain : setup.plan.conditionGates = []) {before after : List Nat}
    {f : Nat} (hsplit : setup.order = before ++ f :: after)
    (hdone : ∀ n ∈ before, (valueOf (setup.fates answer) n).isSome = true)
    (hskip : ∀ n ∈ after, setup.fates answer n = some .skipped) :
    ∀ n ∈ after, setup.plan.DataPath f n := by
  intro n
  induction n using setup.wellFounded_edges.induction with
  | h n ih =>
    intro hn
    -- a skipped node without a gate misses an input
    obtain ⟨p, hp, hnone⟩ : ∃ p ∈ predecessors setup.plan.edges n,
        ¬ (valueOf (setup.fates answer) p).isSome = true := by
      by_contra hall
      refine setup.not_admitted (hskip n hn) ⟨fun p hp => ?_, fun g hg => ?_⟩
      · by_contra hno
        exact hall ⟨p, hp, hno⟩
      · rw [hplain] at hg
        exact absurd hg List.not_mem_nil
    have hedge := mem_predecessors.mp hp
    have hmem : p ∈ setup.order := (setup.mem_order p).mpr (setup.plan.inRange _ hedge).1
    rw [hsplit, List.mem_append, List.mem_cons] at hmem
    rcases hmem with hp | rfl | hp
    · exact absurd (hdone p hp) hnone
    · exact Relation.ReflTransGen.single hedge
    · exact (ih p hedge hp).tail hedge

end Behind

/-! ## Where the sequential executor stops -/

variable {before' after' : List Nat} {f' : Nat}

/-- The first node of the order that does not complete, when it leaves a warning. -/
structure Setup.Stop (setup : Setup V Key) (answer : Answer V) (before : List Nat) (f : Nat)
    (after : List Nat) (reason : String) : Prop where
  split : setup.order = before ++ f :: after
  done : ∀ n ∈ before, (valueOf (setup.fates answer) n).isSome = true
  warned : setup.fates answer f = some (.warned reason)

section Stop

variable {setup : Setup V Key} {answer : Answer V} {before after : List Nat} {f : Nat}
  {reason : String}

variable {n : Nat}

theorem not_some_of_none (h : valueOf (setup.fates answer) n = none) :
    ¬ (valueOf (setup.fates answer) n).isSome = true := by
  rw [h]
  exact Bool.false_ne_true

/-- Everything after the stop is behind it, and the search for a result cannot find a seed of the
    node that failed, other than the artifact it would find anyway. -/
def Setup.StopsClean (setup : Setup V Key) (answer : Answer V) : Prop :=
  ∀ before f after reason, setup.Stop answer before f after reason →
    (∀ n ∈ after, setup.plan.DataPath f n) ∧
      (predecessors setup.plan.edges f ≠ [] ∨
        setup.plan.initial f = before.getLast?.bind (valueOf (setup.fates answer)))

namespace Setup.Stop

section

variable (h : setup.Stop answer before f after reason)
include h

theorem not_some : ¬ (valueOf (setup.fates answer) f).isSome = true :=
  not_some_of_none (valueOf_eq h.warned)

theorem unique {reason' : String} (h' : setup.Stop answer before' f' after' reason') :
    before = before' ∧ f = f' ∧ after = after' :=
  split_unique (h.split.symm.trans h'.split) h.done h.not_some h'.done h'.not_some

theorem clean_iff : setup.StopsClean answer ↔ (∀ n ∈ after, setup.plan.DataPath f n) ∧
      (predecessors setup.plan.edges f ≠ [] ∨
        setup.plan.initial f = before.getLast?.bind (valueOf (setup.fates answer))) := by
  constructor
  · exact fun hclean => hclean before f after reason h
  · intro hthis before' f' after' reason' h'
    obtain ⟨rfl, rfl, rfl⟩ := h.unique h'
    exact hthis

theorem nodup : f ∉ before ∧ f ∉ after ∧ ∀ n ∈ after, n ∉ before := by
  have hnd := (topoOrder_eq_ok setup.ordered).nodup
  rw [h.split] at hnd
  obtain ⟨-, hcons, hdis⟩ := List.nodup_append.mp hnd
  exact ⟨fun hf => hdis f hf f List.mem_cons_self rfl, (List.nodup_cons.mp hcons).1,
    fun n hn hb => hdis n hb n (List.mem_cons_of_mem f hn) rfl⟩

theorem idxOf : setup.order.idxOf f = before.length := by
  rw [h.split, List.idxOf_append_of_notMem h.nodup.1, List.idxOf_cons_self, Nat.add_zero]

theorem skipped (hbehind : ∀ n ∈ after, setup.plan.DataPath f n) :
    ∀ n ∈ after, setup.fates answer n = some .skipped := by
  intro n hn
  refine (setup.skipped_behind (valueOf_eq h.warned) (hbehind n hn)).resolve_left ?_
  rintro rfl
  exact h.nodup.2.1 hn

theorem not_fails
    (hskip : ∀ n ∈ after, setup.fates answer n = some .skipped) : ¬ setup.Fails answer := by
  rintro ⟨n, hfatal⟩
  have hn := setup.mem_of_fates hfatal
  rw [h.split, List.mem_append, List.mem_cons] at hn
  rcases hn with hb | rfl | ha
  · exact not_some_of_none (valueOf_eq hfatal) (h.done n hb)
  · rw [h.warned] at hfatal
    cases hfatal
  · rw [hskip n ha] at hfatal
    cases hfatal

/-- A root that ran had a seed. -/
theorem seed
    (hroot : predecessors setup.plan.edges f = []) : ∃ seed, setup.plan.initial f = some seed := by
  obtain ⟨-, -, -, -, input, hinput⟩ := setup.fates_warned h.warned
  unfold gatherInput at hinput
  rw [hroot] at hinput
  dsimp only at hinput
  unfold inputsFor at hinput
  rw [Function.update_self] at hinput
  cases hseed : setup.plan.initial f with
  | none =>
    rw [hseed] at hinput
    cases hinput
  | some seed => exact ⟨seed, rfl⟩

/-- What the sequential executor finds. -/
theorem sequential_final
    (hafter : ∀ n ∈ after, setup.plan.initial n = none) (warning : StageWarning) :
    (((setup.ranUpTo answer before).warn warning).finalOutput setup.order).map Prod.snd =
      (setup.plan.initial f).or (before.getLast?.bind (valueOf (setup.fates answer))) := by
  have hbefore : ∀ n ∈ before, (setup.ranUpTo answer before).outputs n =
      valueOf (setup.fates answer) n := fun n hn => if_pos hn
  have hout : ∀ n, n ∉ before → (setup.ranUpTo answer before).outputs n = setup.plan.initial n :=
    fun n hn => if_neg hn
  show (setup.order.reverse.findSome? fun id => ((setup.ranUpTo answer before).outputs id).map
    fun artifact => (id, artifact)).map Prod.snd = _
  rw [findSome_slot, h.split, findSome_reverse_split, hout f h.nodup.1, findSome_reverse_all]
  · cases hlast : before.getLast? with
    | none => rfl
    | some last =>
      show Option.or _ ((setup.ranUpTo answer before).outputs last) = _
      rw [hbefore last (List.mem_of_getLast? hlast)]
      rfl
  · intro n hn
    rw [hbefore n hn]
    exact h.done n hn
  · intro n hn
    rw [hout n (h.nodup.2.2 n hn)]
    exact hafter n hn

variable {node : PlanNode}

/-- What the failed node leaves. -/
theorem warningOf_eq (hnode : setup.plan.nodes[f]? = some node) : setup.warningOf answer f =
      some { idx := before.length, stage := node.stage.name, reason := reason } := by
  unfold Setup.warningOf
  rw [h.warned, hnode, h.idxOf]

/-- What the parallel executor returns when everything after the stop is skipped. -/
theorem denoted_eq
    (hplain : setup.plan.conditionGates = []) (hnode : setup.plan.nodes[f]? = some node)
    (hskip : ∀ n ∈ after, setup.fates answer n = some .skipped) :
    (setup.denoted answer).toObserved = {
      executed := before.toFinset
      warnings := [{ idx := before.length, stage := node.stage.name, reason := reason }].toFinset
      finalOutput := before.getLast?.bind (valueOf (setup.fates answer)) } := by
  have hnone : ∀ n ∈ after, valueOf (setup.fates answer) n = none := fun n hn =>
    valueOf_eq (hskip n hn)
  have hexecuted : (setup.order.toFinset.filter fun n =>
      (valueOf (setup.fates answer) n).isSome = true) = before.toFinset := by
    ext n
    rw [Finset.mem_filter, List.mem_toFinset, List.mem_toFinset, h.split, List.mem_append,
      List.mem_cons]
    constructor
    · rintro ⟨hb | rfl | ha, hsome⟩
      · exact hb
      · exact absurd hsome h.not_some
      · exact absurd hsome (not_some_of_none (hnone n ha))
    · exact fun hb => ⟨Or.inl hb, h.done n hb⟩
  have hwarnings : setup.order.filterMap (setup.warningOf answer) =
      [{ idx := before.length, stage := node.stage.name, reason := reason }] := by
    have hafter : after.filterMap (setup.warningOf answer) = [] := by
      rw [List.filterMap_eq_nil_iff]
      intro n hn
      unfold Setup.warningOf
      rw [hskip n hn]
    rw [h.split, List.filterMap_append, setup.warnings_of_values h.done, List.nil_append,
      List.filterMap_cons, h.warningOf_eq hnode, hafter]
  have hfinal : (setup.chosenOutput false setup.order (valueOf (setup.fates answer))).map Prod.snd =
      before.getLast?.bind (valueOf (setup.fates answer)) := by
    unfold Setup.chosenOutput
    rw [setup.conditionalTerminal_plain hplain]
    show (setup.order.reverse.findSome? _).map Prod.snd = _
    rw [findSome_slot, h.split, findSome_reverse_split hnone, findSome_reverse_all h.done,
      valueOf_eq h.warned]
    rfl
  unfold Setup.denoted
  rw [hwarnings, hexecuted]
  exact congrArg (Observed.mk _ _) hfinal

/-- When the executed nodes and the warnings are those of the sequential executor, everything after
    the stop was skipped. -/
theorem skipped_of_eq (hfails : ¬ setup.Fails answer)
    (hexecuted : (setup.denoted answer).executed = before.toFinset)
    (hwarnings : (setup.denoted answer).warnings =
      [{ idx := before.length, stage := node.stage.name, reason := reason }].toFinset) :
    ∀ n ∈ after, setup.fates answer n = some .skipped := by
  intro n hn
  have hmem : n ∈ setup.order := by
    rw [h.split]
    simp [hn]
  obtain ⟨fate, hfate⟩ : ∃ fate, setup.fates answer n = some fate :=
    ⟨_, setup.fates_eq answer hmem⟩
  cases fate with
  | done v =>
    have hdone : n ∈ (setup.denoted answer).executed := by
      refine Finset.mem_filter.mpr ⟨List.mem_toFinset.mpr hmem, ?_⟩
      rw [valueOf_eq_some.mpr hfate]
      rfl
    rw [hexecuted, List.mem_toFinset] at hdone
    exact absurd hdone (h.nodup.2.2 n hn)
  | skipped => exact hfate
  | warned reason' =>
    obtain ⟨node', hnode', -⟩ := setup.fates_warned hfate
    have hwarn : setup.warningOf answer n =
        some { idx := setup.order.idxOf n, stage := node'.stage.name, reason := reason' } := by
      unfold Setup.warningOf
      rw [hfate, hnode']
    have hin : _ ∈ (setup.denoted answer).warnings :=
      List.mem_toFinset.mpr (List.mem_filterMap.mpr ⟨n, hmem, hwarn⟩)
    rw [hwarnings, List.mem_toFinset, List.mem_singleton] at hin
    have hidx : setup.order.idxOf n = setup.order.idxOf f :=
      (StageWarning.mk.inj hin).1.trans h.idxOf.symm
    have hsame : n = f := (List.idxOf_inj hmem).mp hidx
    rw [hsame] at hn
    exact absurd hn h.nodup.2.1
  | fatal => exact absurd ⟨n, hfate⟩ hfails

end

end Setup.Stop

end Stop

/-! ## The two executors -/

/-- Both failed, or both returned and show the same. -/
def SameResult (sequential : Outcome PlanError (Observed V))
    (parallel : Outcome PlanError (Report V)) : Prop :=
  (∃ fault fault', sequential = .error fault ∧ parallel = .error fault') ∨
    ∃ report, sequential = .ok report.toObserved ∧ parallel = .ok report

section Compare

variable {setup : Setup V Key} {answer : Answer V}
  {parallel : Outcome PlanError (Report V)} {reason : String}

theorem Setup.no_stop_of_done
    (hall : ∀ n ∈ setup.order, (valueOf (setup.fates answer) n).isSome = true)
    {before after : List Nat} {f : Nat} : ¬ setup.Stop answer before f after reason := fun h =>
  h.not_some (hall f (by rw [h.split]; simp))

theorem Setup.no_stop_of_fatal {before after : List Nat} {f : Nat}
    (hsplit : setup.order = before ++ f :: after)
    (hdone : ∀ n ∈ before, (valueOf (setup.fates answer) n).isSome = true)
    (hfatal : setup.fates answer f = some .fatal) :
    ¬ setup.Stop answer before' f' after' reason := by
  intro h
  obtain ⟨-, rfl, -⟩ := split_unique (hsplit.symm.trans h.split) hdone
    (not_some_of_none (valueOf_eq hfatal)) h.done h.not_some
  cases hfatal.symm.trans h.warned

/-- At a stop the executors agree when it is clean. -/
theorem Setup.Stop.same_iff {before after : List Nat} {f : Nat} {node : PlanNode}
    (h : setup.Stop answer before f after reason)
    (hgates : setup.plan.conditionGates = []) (hnode : setup.plan.nodes[f]? = some node)
    (hpar : setup.Denotes answer parallel) :
    SameResult (.ok (((setup.ranUpTo answer before).warn
      { idx := before.length, stage := node.stage.name, reason := reason }).observed setup.order))
        parallel ↔ setup.StopsClean answer := by
  rw [h.clean_iff]
  have hseed : ∀ n, predecessors setup.plan.edges n ≠ [] → setup.plan.initial n = none := by
    intro n hn
    by_contra hne
    obtain ⟨seed, hseed⟩ := Option.ne_none_iff_exists'.mp hne
    exact hn (setup.plan.seeded n seed hseed).2
  have hpred : ∀ n ∈ after, setup.plan.DataPath f n → setup.plan.initial n = none := by
    intro n hn hpath
    refine hseed n fun hnil => ?_
    rcases Relation.ReflTransGen.cases_tail hpath with heq | ⟨p, -, hedge⟩
    · exact h.nodup.2.1 (heq ▸ hn)
    · have hmem := mem_predecessors.mpr hedge
      rw [hnil] at hmem
      exact absurd hmem List.not_mem_nil
  constructor
  · rintro (⟨fault, -, herror, -⟩ | ⟨report, hok, hreport⟩)
    · cases herror
    · rcases hpar with ⟨-, fault, herror⟩ | ⟨hfails, hdenoted⟩
      · rw [herror] at hreport
        cases hreport
      · cases hreport.symm.trans hdenoted
        have hobserved := Except.ok.inj hok
        have hskip := h.skipped_of_eq hfails (congrArg Observed.executed hobserved).symm
          (congrArg Observed.warnings hobserved).symm
        have hbehind := setup.behind_of_skipped hgates h.split h.done hskip
        refine ⟨hbehind, or_iff_not_imp_left.mpr fun hroot => ?_⟩
        obtain ⟨seed, hfound⟩ := h.seed (not_not.mp hroot)
        have hfinal := congrArg Observed.finalOutput hobserved
        rw [h.denoted_eq hgates hnode hskip] at hfinal
        have hsame :=
          (h.sequential_final (fun n hn => hpred n hn (hbehind n hn)) _).symm.trans hfinal
        rw [hfound, Option.some_or] at hsame
        rw [hfound]
        exact hsame
  · rintro ⟨hbehind, hroot⟩
    have hskip := h.skipped hbehind
    rcases hpar with ⟨hfails, -⟩ | ⟨-, hdenoted⟩
    · exact absurd hfails (h.not_fails hskip)
    · refine Or.inr ⟨_, congrArg Except.ok ?_, hdenoted⟩
      rw [h.denoted_eq hgates hnode hskip]
      refine congrArg (Observed.mk _ _)
        ((h.sequential_final (fun n hn => hpred n hn (hbehind n hn)) _).trans ?_)
      rcases hroot with hpreds | hseeded
      · rw [hseed f hpreds, Option.none_or]
      · rw [hseeded, Option.or_self]

/-- What the stages mean is what the sequential executor returns just when it stops clean. -/
theorem Setup.Denotes.same_iff (hpar : setup.Denotes answer parallel)
    (hgates : setup.plan.conditionGates = []) :
    SameResult (setup.sequentialResult answer) parallel ↔ setup.StopsClean answer := by
  have hend := setup.sequential_end answer hgates
  unfold Setup.sequentialResult
  generalize setup.runSequential answer = sequential at hend
  cases hend with
  | completed hall =>
    refine iff_of_true (Or.inr ⟨setup.denoted answer, congrArg Except.ok ?_, ?_⟩)
      fun _ _ _ _ h => absurd h (setup.no_stop_of_done hall)
    · rw [← setup.denoted_of_values hgates hall]
      refine congrArg (Observed.mk _ _) ?_
      show (setup.order.getLast?.bind _).map Prod.snd = _
      cases setup.order.getLast? with
      | none => rfl
      | some last =>
        show (Option.map _ _).map _ = _
        rw [Option.map_map]
        exact Option.map_id'
    · exact (hpar.resolve_left fun hf => setup.not_fails_of_values hall hf.1).2
  | failed fault hsplit hdone hfatal =>
    obtain ⟨-, fault', herror⟩ := hpar.resolve_right fun hf => hf.1 ⟨_, hfatal⟩
    exact iff_of_true (Or.inl ⟨fault, fault', rfl, herror⟩)
      fun _ _ _ _ h => absurd h (setup.no_stop_of_fatal hsplit hdone hfatal)
  | stopped hsplit hdone hnode hwarned =>
    exact Setup.Stop.same_iff ⟨hsplit, hdone, hwarned⟩ hgates hnode hpar

/-- The two executors are given one plan, and each runs what it prepares from it. -/
structure PreparedFrom (deadCode : Bool) (plan : CompiledPlan V)
    (sequential parallel : Setup V Key) : Prop where
  built : sequential.plan = preparePlan .sequential deadCode plan
  optimized : parallel.plan = preparePlan .parallel deadCode plan
  runtime : sequential.runtime = parallel.runtime
  strict : sequential.ctx.strictAdvisory = parallel.ctx.strictAdvisory

theorem PreparedFrom.refl {deadCode : Bool} (setup : Setup V Key)
    (hkept : ∀ id < setup.plan.nodes.length, id ∈ origins .parallel deadCode setup.plan) :
    PreparedFrom deadCode setup.plan setup setup :=
  ⟨(preparePlan_sequential deadCode _).symm, (preparePlan_of_origins hkept).symm, rfl, rfl⟩

/-- Where the optimizer drops no node the executors agree on a plan just when the sequential one
    stops clean. -/
theorem executors_agree_iff [DecidableEq Key] {deadCode : Bool} {plan : CompiledPlan V}
    {sequential parallel : Setup V Key} (h : PreparedFrom deadCode plan sequential parallel)
    (hgates : plan.conditionGates = []) (hexp : plan.expansions = [])
    (hcontrol : parallel.ctx.control = false)
    (hkept : ∀ id < plan.nodes.length, id ∈ origins .parallel deadCode plan)
    {result : Outcome PlanError (Report V)} (hresult : parallel.ParallelReturns answer result) :
    SameResult (sequential.sequentialResult answer) result ↔ sequential.StopsClean answer := by
  have hsequential := h.built.trans (preparePlan_sequential deadCode plan)
  have hparallel := h.optimized.trans (preparePlan_of_origins hkept)
  have hsame : SameProgram parallel sequential :=
    ⟨hparallel.trans hsequential.symm, h.runtime.symm, h.strict.symm⟩
  have hplain : parallel.Plain := by
    refine ⟨.of_none ?_, ?_, hcontrol⟩
    · rw [hparallel]
      exact hgates
    · rw [hparallel]
      exact hexp
  have hdenotes : sequential.Denotes answer result := by
    unfold Setup.Denotes Setup.Fails
    rw [← hsame.denoted fun _ _ => rfl, ← hsame.fates fun _ _ => rfl]
    exact hresult.eq hplain
  exact hdenotes.same_iff (by rw [hsequential]; exact hgates)

end Compare

/-! ## Two plans with an advisory stage -/

def gateNode : PlanNode where
  stage := { (sampleNode "gate" "rows" "report").stage with isAdvisory := true }
  canonArgs := ""
  memoryGib := 0
  partition := none

/-- A stage and the gate behind it. -/
def trainPlan : CompiledPlan Nat where
  nodes := [sampleNode "load" "unit" "rows", gateNode]
  edges := [⟨0, 1⟩]
  initial := fun id => if id = 0 then some 0 else none
  expansions := []
  conditionGates := []
  inRange := by decide
  gated := by decide
  seeded := by
    intro id v h
    split_ifs at h with hid
    subst hid
    decide

/-- The two side by side. -/
def forkPlan : CompiledPlan Nat where
  nodes := [gateNode, sampleNode "load" "unit" "rows"]
  edges := []
  initial := fun id => if id < 2 then some 0 else none
  expansions := []
  conditionGates := []
  inRange := by decide
  gated := by decide
  seeded := by
    intro id v h
    split_ifs at h with hid
    exact ⟨hid, rfl⟩

def pairSetup (plan : CompiledPlan Nat) (ordered : plan.topoOrder = .ok [0, 1]) :
    Setup Nat (String × Nat) where
  plan := plan
  ctx := sampleSetup.ctx
  runtime := sampleSetup.runtime
  order := [0, 1]
  groups := []
  ordered := ordered
  grouped := grouped_nil _
  uncontrolled := sampleSetup_uncontrolled

def trainSetup : Setup Nat (String × Nat) := pairSetup trainPlan (by decide +kernel)

def forkSetup : Setup Nat (String × Nat) := pairSetup forkPlan (by decide +kernel)

/-- The gate fails. -/
def gateFails (gate : Nat) : Answer Nat := fun n _ => if n = gate then .error "refused" else .ok 5

theorem trainSetup_play : (trainSetup.play (gateFails 1) [.take 0, .await 0, .take 1, .await 0]
    trainSetup.start).isSome = true := by
  decide +kernel

theorem forkSetup_play : (forkSetup.play (gateFails 0) [.take 0, .take 1, .await 0, .await 0]
    forkSetup.start).isSome = true := by
  decide +kernel

theorem trainPlan_kept : ∀ id < trainPlan.nodes.length, id ∈ origins .parallel true trainPlan := by
  decide +kernel

theorem forkPlan_kept : ∀ id < forkPlan.nodes.length, id ∈ origins .parallel true forkPlan := by
  decide +kernel

theorem executors_agree_iff_train : PreparedFrom true trainPlan trainSetup trainSetup ∧
    ∃ s, Reachable trainSetup (Given (gateFails 1)) s ∧ s.Done ∧ s.completed = [0] ∧
      (SameResult (trainSetup.sequentialResult (gateFails 1)) (trainSetup.result s) ↔
        trainSetup.StopsClean (gateFails 1)) := by
  have hreach := Reachable.start.play (Option.some_get trainSetup_play).symm
  have hdone : ((trainSetup.play (gateFails 1) [.take 0, .await 0, .take 1, .await 0]
      trainSetup.start).get trainSetup_play).Done :=
    ⟨by decide +kernel, Or.inr ⟨by decide +kernel, by decide +kernel⟩⟩
  have hprepared := PreparedFrom.refl trainSetup trainPlan_kept
  exact ⟨hprepared, _, hreach, hdone, by decide +kernel,
    executors_agree_iff hprepared rfl rfl rfl trainPlan_kept (.loop hreach hdone)⟩

/-- The gate stops the sequential executor before a node that has nothing to do with it. -/
theorem executors_differ : PreparedFrom true forkPlan forkSetup forkSetup ∧
    ∃ s, Reachable forkSetup (Given (gateFails 0)) s ∧ s.Done ∧
      ¬ SameResult (forkSetup.sequentialResult (gateFails 0)) (forkSetup.result s) := by
  have hreach := Reachable.start.play (Option.some_get forkSetup_play).symm
  have hdone : ((forkSetup.play (gateFails 0) [.take 0, .take 1, .await 0, .await 0]
      forkSetup.start).get forkSetup_play).Done :=
    ⟨by decide +kernel, Or.inr ⟨by decide +kernel, by decide +kernel⟩⟩
  refine ⟨PreparedFrom.refl forkSetup forkPlan_kept, _, hreach, hdone, ?_⟩
  have hsequential : (forkSetup.sequentialResult (gateFails 0)).toOption.map Observed.executed =
      some ∅ := by
    decide +kernel
  have hparallel :
      (forkSetup.result ((forkSetup.play (gateFails 0) [.take 0, .take 1, .await 0, .await 0]
      forkSetup.start).get forkSetup_play)).toOption.map (fun report => report.executed) =
        some {1} := by
    decide +kernel
  rintro (⟨fault, fault', hfault, -⟩ | ⟨report, hok, hok'⟩)
  · rw [hfault] at hsequential
    cases hsequential
  · rw [hok] at hsequential
    rw [hok'] at hparallel
    have hempty : report.executed = ∅ := Option.some.inj hsequential
    have hone : report.executed = {1} := Option.some.inj hparallel
    rw [hempty] at hone
    exact absurd hone (by decide)

end Blut.Framework
