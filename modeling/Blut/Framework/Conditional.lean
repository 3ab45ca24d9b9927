/-
  Conditional plans mean if-then.

  For a specification with a gate that compiles, the last node of the order is the one terminal,
  and it lies in the branch of the gate. When all stages succeed, a decision against the branch
  skips exactly the branch, and the other decision runs the plan as if there were no gate. Dead
  code elimination does not touch such a plan.
-/
import Blut.Framework.FinalOutput
import Blut.Framework.Runs

namespace Blut.Framework

open Blut.Lib

variable {V Key : Type}

/-! ## Accepted gates -/

variable {n terminal : Nat} {gate : CompiledConditionGate} {edges : List PlanEdge}

/-- What the checks of a gate establish. -/
structure Accepted (edges : List PlanEdge) (n : Nat) (gate : CompiledConditionGate)
    (terminal : Nat) : Prop where
  inRange : gate.condition < n ∧ gate.target < n
  terminals : terminalsOf edges n gate.condition = [terminal]
  gated : terminal ∈ branchOf edges n gate.target

theorem mem_branchOf {target : Nat} (hedges : edgesInRange edges n) (htarget : target < n)
    (id : Nat) : id ∈ branchOf edges n target ↔
      Relation.ReflTransGen (fun a b => (⟨a, b⟩ : PlanEdge) ∈ edges) target id := by
  have hnext : ∀ x ∈ Finset.range n, ∀ y ∈ successors edges x, y ∈ Finset.range n := fun x _ y hy =>
    Finset.mem_range.mpr (hedges _ (mem_successors.mp hy)).2
  have hmem : id ∈ branchOf edges n target ↔ id ∈ (∅ : Finset Nat) ∨
      ∃ s ∈ [target], Reaches (successors edges) s id :=
    mem_reach_iff hnext (by simpa using htarget) (by simp)
  have hpaths : Reaches (successors edges) target id ↔
      Relation.ReflTransGen (fun a b => (⟨a, b⟩ : PlanEdge) ∈ edges) target id := by
    constructor
    · exact Relation.ReflTransGen.mono (fun a b h => mem_successors.mp h) _ _
    · exact Relation.ReflTransGen.mono (fun a b h => mem_successors.mpr h) _ _
  rw [hmem, ← hpaths]
  simp

/-- A gate that passed its checks. -/
theorem PlanSpec.checkGate_eq_ok {spec : PlanSpec} {nodes : List PlanNode}
    (h : spec.checkGate nodes gate = .ok ()) :
    spec.expansions = [] ∧ ∃ terminal, Accepted spec.edges nodes.length gate terminal := by
  simp only [PlanSpec.checkGate, bind_eq_ok, reject_eq_ok] at h
  obtain ⟨_, -, _, hexp, _, hrange, _, -, selector, -, _, -, _, -, _, -, _, -, _, -,
    hterminals⟩ := h
  refine ⟨by simpa using hexp, ?_⟩
  simp only [Bool.or_eq_false_iff, decide_eq_false_iff_not, not_le] at hrange
  simp only [Bool.or_eq_false_iff, decide_eq_false_iff_not, not_not, Bool.not_eq_false']
    at hterminals
  obtain ⟨hlength, hgated⟩ := hterminals
  obtain ⟨terminal, hterminal⟩ := List.length_eq_one_iff.mp hlength
  rw [hterminal] at hgated
  exact ⟨terminal, hrange, hterminal, by simpa using hgated⟩

/-- A node other than the selector and the terminal has a data successor. -/
theorem Accepted.successor (h : Accepted edges n gate terminal) {id : Nat} (hid : id < n)
    (hcondition : id ≠ gate.condition) (hterminal : id ≠ terminal) : successors edges id ≠ [] := by
  intro hnil
  have hmem : id ∈ terminalsOf edges n gate.condition := by
    unfold terminalsOf
    refine List.mem_filter.mpr ⟨List.mem_range.mpr hid, ?_⟩
    simp [hcondition, hnil]
  rw [h.terminals] at hmem
  exact hterminal (List.mem_singleton.mp hmem)

theorem Accepted.terminal_spec (h : Accepted edges n gate terminal) :
    terminal < n ∧ terminal ≠ gate.condition ∧ successors edges terminal = [] := by
  have hmem : terminal ∈ terminalsOf edges n gate.condition := by
    rw [h.terminals]
    exact List.mem_singleton_self terminal
  obtain ⟨hlt, hcond⟩ := List.mem_filter.mp hmem
  simp only [ne_eq, Bool.and_eq_true, decide_eq_true_eq, List.isEmpty_iff] at hcond
  exact ⟨List.mem_range.mp hlt, hcond⟩

/-- The last node of an order is the terminal. -/
theorem Accepted.last {order : List Nat} (h : Accepted edges n gate terminal)
    (hedges : edgesInRange edges n) (horder : Ordered edges [gate] n order) :
    order.getLast? = some terminal := by
  have hpos : order ≠ [] := by
    have hmem := (horder.mem terminal).mpr h.terminal_spec.1
    exact List.ne_nil_of_mem hmem
  obtain ⟨last, hlast⟩ := Option.ne_none_iff_exists'.mp (mt List.getLast?_eq_none_iff.mp hpos)
  have hmem := (horder.mem last).mp (List.mem_of_getLast? hlast)
  have hout : ∀ b < n, (last, b) ∉ arcsOf edges [gate] := fun b hb =>
    Topological.last_sink horder.nodup horder.topological hlast ((horder.mem b).mpr hb)
  have hcondition : last ≠ gate.condition := by
    rintro rfl
    exact hout gate.target h.inRange.2
      (mem_arcsOf.mpr (Or.inr ⟨gate, List.mem_singleton_self _, rfl, rfl⟩))
  have hterminal : last = terminal := by
    by_contra hne
    obtain ⟨b, hb⟩ := List.exists_mem_of_ne_nil _ (h.successor hmem hcondition hne)
    have hedge := mem_successors.mp hb
    exact hout b (hedges _ hedge).2 (mem_arcsOf.mpr (Or.inl hedge))
  rw [hlast, hterminal]

/-! ## Plain dataflow -/

/-- The value of a node over data edges alone. -/
def dataRule (plan : CompiledPlan V) (runtime : Runtime V Key) (answer : Answer V) (n : Nat)
    (env : Nat → Option (Option V)) : Option V :=
  match gatherInput runtime plan.edges
    (Function.update (fun p => (env p).join) n (plan.initial n)) n with
  | .ok input => (answer n input).toOption
  | .error _ => none

def Setup.dataflow (setup : Setup V Key) (answer : Answer V) (n : Nat) : Option V :=
  (evalAlong (dataRule setup.plan setup.runtime answer) setup.order n).join

theorem reads_dataRule (plan : CompiledPlan V) (runtime : Runtime V Key) (answer : Answer V) :
    Reads (dataRule plan runtime answer) plan.arcs := by
  intro n env env' h
  unfold dataRule
  rw [gatherInput_update runtime fun p hp => by
    rw [h p (mem_arcsOf.mpr (Or.inl (mem_predecessors.mp hp)))]]

theorem dataRule_ok {plan : CompiledPlan V} {runtime : Runtime V Key} {answer : Answer V}
    {env : Nat → Option (Option V)} {input v : V} (hinput : gatherInput runtime plan.edges
      (Function.update (fun p => (env p).join) n (plan.initial n)) n = .ok input)
    (hv : answer n input = .ok v) : dataRule plan runtime answer n env = some v := by
  unfold dataRule
  rw [hinput]
  dsimp only
  rw [hv]
  rfl

/-- The values solve the rule. -/
theorem Setup.dataflow_eq (setup : Setup V Key) (answer : Answer V) {input v : V}
    (hn : n ∈ setup.order) (hinput : gatherInput setup.runtime setup.plan.edges
      (Function.update (setup.dataflow answer) n (setup.plan.initial n)) n = .ok input)
    (hv : answer n input = .ok v) : setup.dataflow answer n = some v := by
  have hordered := topoOrder_eq_ok setup.ordered
  have hfix := evalAlong_fix hordered.nodup hordered.topological
    (reads_dataRule setup.plan setup.runtime answer) hn
  have hrule := dataRule_ok hinput hv
  unfold Setup.dataflow
  rw [hfix, Option.join_some]
  exact hrule

/-- A node whose inputs are there has an input. -/
theorem gatherInput_total (runtime : Runtime V Key) {outputs : Nat → Option V}
    (hpreds : ∀ p ∈ predecessors edges n, (outputs p).isSome = true)
    (hroot : predecessors edges n = [] → (outputs n).isSome = true) :
    ∃ input, gatherInput runtime edges outputs n = .ok input := by
  have hfetch : ∀ p ∈ predecessors edges n, ∃ v, fetchOutput outputs n p = .ok v := by
    intro p hp
    obtain ⟨v, hv⟩ := Option.isSome_iff_exists.mp (hpreds p hp)
    refine ⟨v, ?_⟩
    unfold fetchOutput
    rw [hv]
    rfl
  unfold gatherInput
  split
  · rename_i hnil
    obtain ⟨v, hv⟩ := Option.isSome_iff_exists.mp (hroot hnil)
    exact ⟨v, by rw [hv]; rfl⟩
  · rename_i single hsingle
    exact hfetch single (by simp [hsingle])
  · obtain ⟨children, hchildren⟩ := mapM_total hfetch
    exact ⟨runtime.tuple children, by rw [hchildren]; rfl⟩

/-! ## Plans with a gate -/

variable {setup : Setup V Key}

/-- A plan with one accepted gate. -/
structure Setup.Conditional (setup : Setup V Key) (gate : CompiledConditionGate) (terminal : Nat) :
    Prop where
  gates : setup.plan.conditionGates = [gate]
  accepted : Accepted setup.plan.edges setup.plan.nodes.length gate terminal
  seeds : ∀ id < setup.plan.nodes.length, predecessors setup.plan.edges id = [] →
    (setup.plan.initial id).isSome = true
  expansions : setup.plan.expansions = []

/-- A specification with a gate compiles to one. -/
theorem PlanSpec.compile_conditional {spec : PlanSpec} {unit : V} {registry : StageRegistry}
    (h : spec.compile unit registry = .ok setup.plan)
    (hgate : spec.conditionGates.head? = some gate) :
    ∃ terminal, setup.Conditional gate terminal := by
  obtain ⟨nodes, gates, -, hcompiled, hnodes, hedges, hplan, hinitial, hexp⟩ :=
    PlanSpec.compile_eq_ok h
  rcases PlanSpec.compileConditionGates_eq_ok hcompiled with ⟨hnil, -⟩ | ⟨gate', hhead, rfl, hcheck⟩
  · rw [hnil] at hgate
    cases hgate
  · rw [hgate] at hhead
    cases hhead
    obtain ⟨hnone, terminal, haccepted⟩ := PlanSpec.checkGate_eq_ok hcheck
    refine ⟨terminal, hplan, ?_, fun id hid hroot => ?_, ?_⟩
    · rw [hedges, hnodes, length_overrideNodes]
      exact haccepted
    · rw [hinitial]
      unfold rootSeeds
      rw [hedges] at hroot
      rw [if_pos ⟨hid, hroot⟩]
      rfl
    · rw [← List.length_eq_zero_iff, mapM_ok_length hexp, hnone]
      rfl

/-- All stages succeed, and the selector decides. -/
structure Setup.Succeeds (setup : Setup V Key) (answer : Answer V) (gate : CompiledConditionGate) :
    Prop where
  ok : ∀ n input, ∃ v, answer n input = .ok v
  decides : ∀ input v, answer gate.condition input = .ok v → ∃ b, setup.runtime.decision v = some b

/-- The node completes with its dataflow value. -/
def Setup.Flows (setup : Setup V Key) (answer : Answer V) (n : Nat) : Prop :=
  valueOf (setup.fates answer) n = setup.dataflow answer n ∧ (setup.dataflow answer n).isSome = true

section Meaning

variable {answer : Answer V}

variable (h : setup.Conditional gate terminal)
include h

theorem Setup.Conditional.gate_mem : gate ∈ setup.plan.conditionGates := by
  rw [h.gates]
  exact List.mem_singleton_self gate

theorem Setup.Conditional.apart : GatesApart setup.plan := by
  refine .of_one setup.ordered ?_
  rw [h.gates]
  exact le_refl 1

variable (hok : setup.Succeeds answer gate)
include hok

/-- An admitted node completes with its dataflow value, when its inputs did. -/
theorem Setup.Conditional.value_eq (hn : n ∈ setup.order) (hgate : n = gate.target →
      (valueOf (setup.fates answer) gate.condition).bind setup.runtime.decision = some gate.when)
    (hpreds : ∀ p ∈ predecessors setup.plan.edges n, setup.Flows answer p) :
    setup.Flows answer n := by
  have hlt := (setup.mem_order n).mp hn
  have hadmitted : Admitted setup.plan setup.runtime (setup.fates answer) n := by
    refine ⟨fun p hp => ?_, fun g hg ht => ?_⟩
    · rw [(hpreds p hp).1]
      exact (hpreds p hp).2
    · rw [h.gates, List.mem_singleton] at hg
      rw [hg] at ht ⊢
      exact hgate ht.symm
  have hsame : setup.inputOf answer n = gatherInput setup.runtime setup.plan.edges
      (Function.update (setup.dataflow answer) n (setup.plan.initial n)) n :=
    gatherInput_update setup.runtime fun p hp => (hpreds p hp).1
  obtain ⟨input, hinput⟩ : ∃ input, setup.inputOf answer n = .ok input := by
    refine gatherInput_total setup.runtime (fun p hp => ?_) fun hroot => ?_
    · unfold inputsFor
      rw [Function.update_of_ne (setup.edge_ne (mem_predecessors.mp hp))]
      exact hadmitted.1 p hp
    · unfold inputsFor
      rw [Function.update_self]
      exact h.seeds n hlt hroot
  obtain ⟨v, hv⟩ := hok.ok n input
  obtain ⟨node, -, hfate⟩ := setup.answeredBy hadmitted hinput hlt
  have hdecided : ¬ setup.Undecided (n, v) := by
    rintro ⟨hselector, hnone⟩
    obtain ⟨g, hg⟩ := List.exists_mem_of_ne_nil _ hselector
    obtain ⟨hg, hcond⟩ := mem_gatesOf.mp hg
    rw [h.gates, List.mem_singleton] at hg
    dsimp only at hcond hnone
    rw [hg] at hcond
    obtain ⟨b, hb⟩ := hok.decides input v (hcond ▸ hv)
    rw [hnone] at hb
    cases hb
  rw [hv, setup.answered_decided hdecided] at hfate
  have hdata := setup.dataflow_eq answer hn (hsame.symm.trans hinput) hv
  unfold Setup.Flows
  rw [valueOf_eq_some.mpr hfate, hdata]
  exact ⟨rfl, rfl⟩

/-- Outside the branch every node completes. -/
theorem Setup.Conditional.outside (n : Nat) (hn : n < setup.plan.nodes.length)
    (hout : n ∉ branchOf setup.plan.edges setup.plan.nodes.length gate.target) :
    setup.Flows answer n := by
  have hbranch := mem_branchOf setup.plan.inRange h.accepted.inRange.2
  induction n using setup.wellFounded_edges.induction with
  | h n ih =>
    refine h.value_eq hok ((setup.mem_order n).mpr hn) (fun ht => ?_) fun p hp => ?_
    · exact absurd ((hbranch n).mpr (ht ▸ Relation.ReflTransGen.refl)) hout
    · have hedge := mem_predecessors.mp hp
      refine ih p hedge (setup.plan.inRange _ hedge).1 fun hin => hout ?_
      exact (hbranch n).mpr (((hbranch p).mp hin).tail hedge)

omit hok in
theorem Setup.Conditional.condition_outside :
    gate.condition ∉ branchOf setup.plan.edges setup.plan.nodes.length gate.target := by
  intro hin
  have hpath := (mem_branchOf setup.plan.inRange h.accepted.inRange.2 gate.condition).mp hin
  exact h.apart.apart gate h.gate_mem gate h.gate_mem hpath

theorem Setup.Conditional.selector : setup.Flows answer gate.condition :=
  h.outside hok gate.condition h.accepted.inRange.1 h.condition_outside

theorem Setup.Conditional.decided :
    ∃ value, (setup.dataflow answer gate.condition).bind setup.runtime.decision = some value := by
  obtain ⟨heq, hsome⟩ := h.selector hok
  obtain ⟨v, hv⟩ := Option.isSome_iff_exists.mp hsome
  obtain ⟨input, hanswer⟩ := setup.fates_done (valueOf_eq_some.mp (heq.trans hv))
  obtain ⟨b, hb⟩ := hok.decides input v hanswer
  rw [hv]
  exact ⟨b, hb⟩

/-- When the selector lets the branch run, every node completes. -/
theorem Setup.Conditional.runs
    (hwhen : (setup.dataflow answer gate.condition).bind setup.runtime.decision = some gate.when)
    (n : Nat) (hn : n < setup.plan.nodes.length) : setup.Flows answer n := by
  induction n using setup.wellFounded_edges.induction with
  | h n ih =>
    refine h.value_eq hok ((setup.mem_order n).mpr hn) (fun _ => ?_) fun p hp => ?_
    · rw [(h.selector hok).1]
      exact hwhen
    · have hedge := mem_predecessors.mp hp
      exact ih p hedge (setup.plan.inRange _ hedge).1

/-- When it does not, the branch is skipped. -/
theorem Setup.Conditional.skips
    (hwhen : (setup.dataflow answer gate.condition).bind setup.runtime.decision ≠ some gate.when)
    (hn : n ∈ branchOf setup.plan.edges setup.plan.nodes.length gate.target) :
    setup.fates answer n = some .skipped := by
  have htarget : setup.fates answer gate.target = some .skipped := by
    refine setup.fates_skipped ((setup.mem_order _).mpr h.accepted.inRange.2) fun hadmitted => ?_
    have hpass := hadmitted.2 gate h.gate_mem rfl
    rw [(h.selector hok).1] at hpass
    exact hwhen hpass
  have hpath := (mem_branchOf setup.plan.inRange h.accepted.inRange.2 n).mp hn
  rcases setup.skipped_behind (valueOf_eq htarget) hpath with rfl | hskip
  · exact htarget
  · exact hskip

/-- Every node completes or is skipped. -/
theorem Setup.Conditional.fate (hn : n < setup.plan.nodes.length) :
    setup.fates answer n = some .skipped ∨ ∃ v, setup.fates answer n = some (.done v) := by
  have hdone : setup.Flows answer n → ∃ v, setup.fates answer n = some (.done v) := by
    rintro ⟨heq, hsome⟩
    obtain ⟨v, hv⟩ := Option.isSome_iff_exists.mp hsome
    exact ⟨v, valueOf_eq_some.mp (heq.trans hv)⟩
  by_cases hwhen : (setup.dataflow answer gate.condition).bind setup.runtime.decision =
    some gate.when
  · exact Or.inr (hdone (h.runs hok hwhen n hn))
  · by_cases hin : n ∈ branchOf setup.plan.edges setup.plan.nodes.length gate.target
    · exact Or.inl (h.skips hok hwhen hin)
    · exact Or.inr (hdone (h.outside hok n hn hin))

theorem Setup.Conditional.not_fails : ¬ setup.Fails answer := by
  rintro ⟨n, hfatal⟩
  rcases h.fate hok ((setup.mem_order n).mp (setup.mem_of_fates hfatal)) with hskip | ⟨v, hdone⟩
  · cases hskip.symm.trans hfatal
  · cases hdone.symm.trans hfatal

theorem Setup.Conditional.no_warnings : setup.order.filterMap (setup.warningOf answer) = [] := by
  rw [List.filterMap_eq_nil_iff]
  intro n hn
  unfold Setup.warningOf
  rcases h.fate hok ((setup.mem_order n).mp hn) with hskip | ⟨v, hdone⟩
  · rw [hskip]
  · rw [hdone]

/-- The result is the value of the terminal. -/
theorem Setup.Conditional.denoted_final :
    (setup.denoted answer).finalOutput = valueOf (setup.fates answer) terminal := by
  have hordered := topoOrder_eq_ok setup.ordered
  rw [h.gates] at hordered
  have hterminal : setup.conditionalTerminal = some terminal := by
    unfold Setup.conditionalTerminal
    rw [h.gates]
    exact h.accepted.last setup.plan.inRange hordered
  unfold Setup.denoted
  rw [h.no_warnings hok]
  show (setup.chosenOutput true setup.order (valueOf (setup.fates answer))).map Prod.snd = _
  unfold Setup.chosenOutput
  rw [hterminal]
  show (Option.map _ _).map _ = _
  rw [Option.map_map]
  exact Option.map_id'

omit hok in
/-- No node of a conditional plan is dead. -/
theorem Setup.Conditional.live :
    setup.plan.eliminateDeadCode = setup.plan := by
  have hgate : (gate.condition, gate.target) ∈ setup.plan.arcs :=
    mem_arcsOf.mpr (Or.inr ⟨gate, h.gate_mem, rfl, rfl⟩)
  refine eliminateDeadCode_eq_self setup.ordered fun id hid hinto hfrom => ?_
  have hin : ∀ p, (p, id) ∉ setup.plan.arcs := fun p harc =>
    List.not_mem_nil (hinto ▸ mem_arcsInto.mpr harc)
  have hout : ∀ b, (id, b) ∉ setup.plan.arcs := fun b harc =>
    List.not_mem_nil (hfrom ▸ mem_arcsFrom.mpr harc)
  by_cases hcondition : id = gate.condition
  · exact hout gate.target (hcondition ▸ hgate)
  · by_cases hterminal : id = terminal
    · -- the terminal is the target or behind it
      have hpath :=
        (mem_branchOf setup.plan.inRange h.accepted.inRange.2 terminal).mp h.accepted.gated
      rcases Relation.ReflTransGen.cases_tail hpath with heq | ⟨p, -, hedge⟩
      · exact hin gate.condition (by rw [hterminal, heq]; exact hgate)
      · exact hin p (mem_arcsOf.mpr (Or.inl (hterminal ▸ hedge)))
    · obtain ⟨b, hb⟩ := List.exists_mem_of_ne_nil _ (h.accepted.successor hid hcondition hterminal)
      exact hout b (mem_arcsOf.mpr (Or.inl (mem_successors.mp hb)))

end Meaning

/-! ## Runs -/

/-- What a result says of the state it was made from. -/
theorem Setup.result_eq_ok {s : Coordinator V Key} {report : Report V}
    (h : setup.result s = .ok report) :
    s.firstError = none ∧ report.executed = s.completed.toFinset ∧
      report.pruned = s.pruned ∧ report.finalOutput = (setup.finalOutput s).map Prod.snd := by
  unfold Setup.result at h
  cases hok : s.firstError with
  | some fault =>
    rw [hok] at h
    cases h
  | none =>
    rw [hok] at h
    cases h
    exact ⟨rfl, rfl, rfl, rfl⟩

/-- A conditional plan runs its branch when its selector says so, and otherwise everything but
    the branch. -/
theorem conditional_means_if_then [DecidableEq Key] {spec : PlanSpec} {unit : V}
    {registry : StageRegistry} {setup : Setup V Key} {answer : Answer V} {s : Coordinator V Key}
    {gate : CompiledConditionGate} (hcompile : spec.compile unit registry = .ok setup.plan)
    (hgate : spec.conditionGates.head? = some gate) (hok : setup.Succeeds answer gate)
    (h : Reachable setup (Undisturbed answer) s) (hdone : s.Done) :
    s.firstError = none ∧ setup.plan.eliminateDeadCode = setup.plan ∧
    ∃ terminal value, setup.order.getLast? = some terminal ∧
      setup.plan.DataPath gate.target terminal ∧
      (∀ n < setup.plan.nodes.length, n ≠ gate.condition →
        (successors setup.plan.edges n = [] ↔ n = terminal)) ∧
      (setup.dataflow answer gate.condition).bind setup.runtime.decision = some value ∧
      (value ≠ gate.when →
        (∀ n, n ∈ s.pruned ↔ setup.plan.DataPath gate.target n) ∧
        (∀ n, n ∈ s.completed ↔ n < setup.plan.nodes.length ∧ ¬ setup.plan.DataPath gate.target n) ∧
        setup.finalOutput s = none) ∧
      (value = gate.when → s.pruned = ∅ ∧
        (∀ n, n ∈ s.completed ↔ n < setup.plan.nodes.length) ∧
        (setup.finalOutput s).map Prod.snd = setup.dataflow answer terminal) := by
  obtain ⟨terminal, hcond⟩ := PlanSpec.compile_conditional hcompile hgate
  have hordered := topoOrder_eq_ok setup.ordered
  rw [hcond.gates] at hordered
  have hbranch := mem_branchOf setup.plan.inRange hcond.accepted.inRange.2
  have hresult : setup.result s = .ok (setup.denoted answer) := by
    have hplain : setup.withoutControl.Plain := ⟨hcond.apart, hcond.expansions, rfl⟩
    rcases h.withoutControl.result_eq hplain hdone with ⟨hfails, -⟩ | ⟨-, hresult⟩
    · exact absurd hfails (hcond.not_fails hok)
    · exact hresult
  obtain ⟨hclean, hexecuted, hpruned, hfinal⟩ := Setup.result_eq_ok hresult
  have hcompleted : ∀ n, n ∈ s.completed ↔
      n < setup.plan.nodes.length ∧ (valueOf (setup.fates answer) n).isSome = true := by
    intro n
    rw [← List.mem_toFinset, ← hexecuted, ← setup.mem_order, ← List.mem_toFinset]
    exact Finset.mem_filter
  have hskipped : ∀ n, n ∈ s.pruned ↔
      n < setup.plan.nodes.length ∧ ¬ (valueOf (setup.fates answer) n).isSome = true := by
    intro n
    rw [← hpruned, ← setup.mem_order, ← List.mem_toFinset]
    exact Finset.mem_filter.trans (and_congr_right fun _ => by simp)
  obtain ⟨value, hvalue⟩ := hcond.decided hok
  refine ⟨hclean, hcond.live, terminal, value, ?_, ?_, ?_, hvalue, fun hne => ?_, fun heq => ?_⟩
  · exact hcond.accepted.last setup.plan.inRange hordered
  · exact (hbranch terminal).mp hcond.accepted.gated
  · intro n hn hcondition
    constructor
    · intro hnil
      by_contra hterminal
      exact hcond.accepted.successor hn hcondition hterminal hnil
    · rintro rfl
      exact hcond.accepted.terminal_spec.2.2
  · -- the branch is skipped and nothing else is
    have hwhen : (setup.dataflow answer gate.condition).bind setup.runtime.decision ≠
        some gate.when := by
      rw [hvalue]
      exact mt Option.some_inj.mp hne
    have hskip : ∀ n, setup.plan.DataPath gate.target n → valueOf (setup.fates answer) n = none :=
      fun n hn => valueOf_eq (hcond.skips hok hwhen ((hbranch n).mpr hn))
    have hrun : ∀ n < setup.plan.nodes.length,
        (valueOf (setup.fates answer) n).isSome = true ↔ ¬ setup.plan.DataPath gate.target n := by
      refine fun n hn => ⟨fun hsome hin => ?_, fun hout => ?_⟩
      · rw [hskip n hin] at hsome
        cases hsome
      · obtain ⟨heq, hsome⟩ := hcond.outside hok n hn (mt (hbranch n).mp hout)
        rw [heq]
        exact hsome
    refine ⟨fun n => ?_, fun n => (hcompleted n).trans (and_congr_right (hrun n)), ?_⟩
    · rw [hskipped n, and_congr_right fun hn => not_congr (hrun n hn), not_not]
      exact and_iff_right_of_imp (setup.plan.dataPath_lt hcond.accepted.inRange.2)
    · rw [hcond.denoted_final hok, hskip terminal ((hbranch terminal).mp hcond.accepted.gated)]
        at hfinal
      exact Option.map_eq_none_iff.mp hfinal.symm
  · have hrun := hcond.runs hok (hvalue.trans (congrArg some heq))
    have hsome : ∀ n < setup.plan.nodes.length, (valueOf (setup.fates answer) n).isSome = true := by
      intro n hn
      rw [(hrun n hn).1]
      exact (hrun n hn).2
    refine ⟨Finset.eq_empty_of_forall_notMem fun n hn => ?_,
      fun n => (hcompleted n).trans (and_iff_left_of_imp (hsome n)), ?_⟩
    · obtain ⟨hlt, hnone⟩ := (hskipped n).mp hn
      exact hnone (hsome n hlt)
    · rw [← hfinal, hcond.denoted_final hok]
      exact (hrun terminal hcond.accepted.terminal_spec.1).1

/-- A selector and its branch, on the output of one root. -/
def choiceRegistry : StageRegistry := fun name =>
  [sampleNode "load" unitKind "rows", sampleNode "choose" "rows" decisionKind,
    sampleNode "train" "rows" "model"].findSome? fun node =>
      if node.stage.name = name then
        some { stage := node.stage, speculationSafe := true, outputElementKind := none
               memoryGibFor := fun _ => 0 }
      else none

def choiceSpec : PlanSpec where
  name := "choice"
  nodes := ["load", "choose", "train"].map fun stage => { stage := stage, args := "" }
  edges := [⟨0, 1⟩, ⟨0, 2⟩]
  expansions := []
  conditionGates := [⟨1, 2, true⟩]

theorem choiceSpec_compiles :
    (Outcome.value (choiceSpec.compile 0 choiceRegistry)).isSome = true := by
  decide +kernel

def choicePlan : CompiledPlan Nat :=
  (Outcome.value (choiceSpec.compile 0 choiceRegistry)).get choiceSpec_compiles

def choiceSetup : Setup Nat (String × Nat) where
  plan := choicePlan
  ctx := sampleSetup.ctx
  runtime := sampleSetup.runtime
  order := [0, 1, 2]
  groups := []
  ordered := by decide +kernel
  grouped := grouped_nil _
  uncontrolled := sampleSetup_uncontrolled

theorem choice_play : (choiceSetup.play (fun _ input => .ok input)
    [.take 0, .await 0, .take 1, .await 0] choiceSetup.start).isSome = true := by
  decide +kernel

/-- Every stage hands on the graph input, which reads as a refusal. -/
theorem conditional_means_if_then_choice :
    ∃ s, Reachable choiceSetup (Undisturbed fun _ input => .ok input) s ∧ s.pruned = {2} ∧
      s.firstError = none ∧ choicePlan.eliminateDeadCode = choicePlan := by
  have hplay := Reachable.start.played (fun _ _ _ => Answer.undisturbed_moveOf)
    (Option.some_get choice_play).symm
  have hok : choiceSetup.Succeeds (fun _ input => .ok input) ⟨1, 2, true⟩ := by
    refine ⟨fun _ input => ⟨input, rfl⟩, fun _ v _ => ?_⟩
    unfold choiceSetup sampleSetup
    dsimp only
    split_ifs
    · exact ⟨true, rfl⟩
    · exact ⟨false, rfl⟩
  have hcompiled : choiceSpec.compile 0 choiceRegistry = .ok choiceSetup.plan :=
    value_eq_some.mp (Option.some_get choiceSpec_compiles).symm
  have hmeans := conditional_means_if_then hcompiled rfl hok hplay
    ⟨by decide +kernel, Or.inr ⟨by decide +kernel, by decide +kernel⟩⟩
  exact ⟨_, hplay, by decide +kernel, hmeans.1, hmeans.2.1⟩

end Blut.Framework
