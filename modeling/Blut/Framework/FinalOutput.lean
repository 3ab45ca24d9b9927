/-
  Where the final output comes from.

  Seeds and outputs share one map. The coordinator removes the seed of a node it prunes, so that
  what it returns was computed in the run. The sequential executor leaves the seeds of the nodes it
  never reached, and returns one of them when an advisory failure stops it before a root, or at one.
-/
import Blut.Framework.PlanSpec
import Blut.Framework.Executors

namespace Blut.Framework

open Blut.Lib

variable {V Key : Type}

/-! ## Plans as they are built -/

variable {part : CompiledPlan V} {order : List Nat}

/-- A plan of one of the three constructors. `unit` is the graph input. -/
inductive Built (unit : V) : CompiledPlan V → Prop where
  | graph {nodes : List PlanNode} {edges : List PlanEdge} {plan : CompiledPlan V} :
      fromErasedGraph unit nodes edges = .ok plan → Built unit plan
  | spec {spec : PlanSpec} {registry : StageRegistry} {plan : CompiledPlan V} :
      spec.compile unit registry = .ok plan → Built unit plan
  | components {parts : List (CompiledPlan V)} :
      (∀ part ∈ parts, Built unit part) → Built unit (fromComponents parts).1

/-- Gates have targets of their own, and a target reaches no selector but its own. -/
structure GatesIsolated (plan : CompiledPlan V) : Prop where
  distinct : (plan.conditionGates.map CompiledConditionGate.target).Nodup
  isolated : ∀ g ∈ plan.conditionGates, ∀ g' ∈ plan.conditionGates,
    plan.DataPath g.target g'.condition → g = g'

variable {plan : CompiledPlan V}

/-- With an order a target does not reach its own selector either. -/
theorem GatesIsolated.apart (h : GatesIsolated plan) (horder : plan.topoOrder = .ok order) :
    GatesApart plan := by
  refine ⟨h.distinct, fun g hg g' hg' hpath => ?_⟩
  have hsame := h.isolated g hg g' hg' hpath
  subst hsame
  exact (topoOrder_eq_ok horder).gate_apart plan.inRange plan.gated hg hpath

theorem GatesIsolated.of_one (hone : plan.conditionGates.length ≤ 1) : GatesIsolated plan := by
  rcases hgates : plan.conditionGates with _ | ⟨gate, _ | ⟨gate', rest⟩⟩
  · exact ⟨by simp [hgates], by simp [hgates]⟩
  · exact ⟨by simp [hgates], by simp [hgates]⟩
  · rw [hgates] at hone
    simp at hone

/-- A path of two graphs side by side stays in one of them. -/
theorem DataPath.append {a b : Nat} (h : (plan.append part).DataPath a b) :
    (a < plan.nodes.length → b < plan.nodes.length ∧ plan.DataPath a b) ∧
      ∀ a', a = a' + plan.nodes.length → ∃ b', b = b' + plan.nodes.length ∧
        part.DataPath a' b' := by
  induction h with
  | refl =>
    exact ⟨fun ha => ⟨ha, Relation.ReflTransGen.refl⟩, fun a' ha =>
      ⟨a', ha, Relation.ReflTransGen.refl⟩⟩
  | @tail b c _ hbc ih =>
    have hedge := mem_append_shift.mp hbc
    constructor
    · intro ha
      obtain ⟨hb, hpath⟩ := ih.1 ha
      rcases hedge with he | ⟨b', c', -, hb', -⟩
      · exact ⟨(plan.inRange _ he).2, hpath.tail he⟩
      · omega
    · intro a' ha
      obtain ⟨b', hb, hpath⟩ := ih.2 a' ha
      rcases hedge with he | ⟨b'', c', he, hb', hc'⟩
      · have hlt := (plan.inRange _ he).1
        dsimp only at hlt
        omega
      · have hsame : b'' = b' := by omega
        subst hsame
        exact ⟨c', hc', hpath.tail he⟩

theorem GatesIsolated.append (h : GatesIsolated plan) (h' : GatesIsolated part) :
    GatesIsolated (plan.append part) := by
  have hcases : ∀ g ∈ (plan.append part).conditionGates, g ∈ plan.conditionGates ∨
      ∃ g' ∈ part.conditionGates, g'.shift plan.nodes.length = g := fun g hg =>
    (List.mem_append.mp hg).imp_right List.mem_map.mp
  refine ⟨?_, fun g hg g' hg' hpath => ?_⟩
  · show ((plan.conditionGates ++ part.conditionGates.map
      (CompiledConditionGate.shift plan.nodes.length)).map CompiledConditionGate.target).Nodup
    rw [List.map_append, List.map_map]
    refine List.nodup_append'.mpr ⟨h.distinct, ?_, fun t ht ht' => ?_⟩
    · have hmap := h'.distinct.map (add_left_injective plan.nodes.length)
      rwa [List.map_map] at hmap
    · obtain ⟨g, hg, rfl⟩ := List.mem_map.mp ht
      obtain ⟨g', -, ht'⟩ := List.mem_map.mp ht'
      have hlt := (plan.gated g hg).2
      have hge : g'.target + plan.nodes.length = g.target := ht'
      omega
  · obtain ⟨hleft, hright⟩ := DataPath.append hpath
    rcases hcases g hg with hg | ⟨g₁, hg₁, rfl⟩
    · obtain ⟨hlt, hpath⟩ := hleft (plan.gated g hg).2
      rcases hcases g' hg' with hg' | ⟨g₂, -, rfl⟩
      · exact h.isolated g hg g' hg' hpath
      · have hge : g₂.condition + plan.nodes.length < plan.nodes.length := hlt
        omega
    · obtain ⟨b, hb, hpart⟩ := hright g₁.target rfl
      rcases hcases g' hg' with hg' | ⟨g₂, hg₂, rfl⟩
      · have hlt := (plan.gated g' hg').1
        omega
      · have hcond : g₂.condition = b := by
          have heq : g₂.condition + plan.nodes.length = b + plan.nodes.length := hb
          omega
        rw [h'.isolated g₁ hg₁ g₂ hg₂ (hcond ▸ hpart)]

theorem newId_inj {a b : Nat} (ha : a ∈ plan.kept) (h : plan.newId a = plan.newId b) : a = b :=
  (List.idxOf_inj ha).mp h

/-- A path that is left was one before. -/
theorem DataPath.of_pruneDead {a b : Nat} (ha : a ∈ plan.kept)
    (h : plan.pruneDead.DataPath (plan.newId a) b) :
    ∃ b' ∈ plan.kept, b = plan.newId b' ∧ plan.DataPath a b' := by
  induction h with
  | refl => exact ⟨a, ha, rfl, Relation.ReflTransGen.refl⟩
  | @tail b c _ hbc ih =>
    obtain ⟨b', hb', rfl, hpath⟩ := ih
    obtain ⟨e, he, heq⟩ := List.mem_map.mp hbc
    obtain ⟨hedge, hkept⟩ := List.mem_filter.mp he
    obtain ⟨hsrc, hdst⟩ := PlanEdge.mk.inj heq
    obtain rfl := newId_inj (of_decide_eq_true hkept).1 hsrc
    exact ⟨e.dst, (of_decide_eq_true hkept).2, hdst.symm, hpath.tail hedge⟩

theorem GatesIsolated.pruneDead (h : GatesIsolated plan) : GatesIsolated plan.pruneDead := by
  have hkept : ∀ g ∈ plan.conditionGates.filter
      (fun g => g.condition ∈ plan.kept ∧ g.target ∈ plan.kept),
        g ∈ plan.conditionGates ∧ g.condition ∈ plan.kept ∧ g.target ∈ plan.kept := fun g hg =>
    ⟨(List.mem_filter.mp hg).1, of_decide_eq_true (List.mem_filter.mp hg).2⟩
  refine ⟨?_, fun g hg g' hg' hpath => ?_⟩
  · show (List.map CompiledConditionGate.target (List.map _ _)).Nodup
    rw [List.map_map]
    refine List.Nodup.map_on (fun g hg g' hg' heq => ?_) (h.distinct.of_map.filter _)
    exact List.inj_on_of_nodup_map h.distinct (hkept g hg).1 (hkept g' hg').1
      (newId_inj (hkept g hg).2.2 heq)
  · obtain ⟨g₁, hg₁, rfl⟩ := List.mem_map.mp hg
    obtain ⟨g₂, hg₂, rfl⟩ := List.mem_map.mp hg'
    obtain ⟨b, hb, heq, hold⟩ := DataPath.of_pruneDead (hkept g₁ hg₁).2.2 hpath
    obtain rfl := newId_inj (hkept g₂ hg₂).2.1 heq
    rw [h.isolated g₁ (hkept g₁ hg₁).1 g₂ (hkept g₂ hg₂).1 hold]

/-- What the gates need is still there after the preparation. -/
theorem GatesIsolated.prepare (h : GatesIsolated plan) (mode : PreparedExecutorMode)
    (deadCode : Bool) : GatesIsolated (preparePlan mode deadCode plan) := by
  unfold preparePlan CompiledPlan.eliminateDeadCode
  split_ifs
  · exact h
  · exact h.pruneDead
  · exact h

theorem gatesIsolated_components {parts : List (CompiledPlan V)}
    (h : ∀ part ∈ parts, GatesIsolated part) : GatesIsolated (fromComponents parts).1 := by
  induction parts using List.reverseRecOn with
  | nil => exact .of_one (Nat.zero_le 1)
  | append_singleton parts part ih =>
    rw [List.forall_mem_append, List.forall_mem_singleton] at h
    rw [fromComponents_concat]
    exact (ih h.1).append h.2

/-- A compiled specification has at most one gate. -/
theorem PlanSpec.compile_one {spec : PlanSpec} {unit : V} {registry : StageRegistry}
    (h : spec.compile unit registry = .ok plan) : plan.conditionGates.length ≤ 1 := by
  obtain ⟨nodes, gates, -, hgates, -, -, hplan, -⟩ := PlanSpec.compile_eq_ok h
  rw [hplan]
  rcases PlanSpec.compileConditionGates_eq_ok hgates with ⟨-, rfl⟩ | ⟨gate, -, rfl, -⟩
  · exact Nat.zero_le 1
  · exact le_refl 1

theorem Built.isolated {unit : V} (h : Built unit plan) : GatesIsolated plan := by
  induction h with
  | graph hplan =>
    obtain ⟨hin, rfl, -⟩ := fromErasedGraph_eq_ok hplan
    exact .of_one (Nat.zero_le 1)
  | spec hplan => exact .of_one (PlanSpec.compile_one hplan)
  | components _ ih => exact gatesIsolated_components ih

/-! ## The coordinator -/

section Coordinator

variable {setup : Setup V Key} {s : Coordinator V Key} {n : Nat} {outputs : Nat → Option V} {v : V}

theorem slot_eq_some {id : Nat} :
    (outputs id).map (fun artifact => (id, artifact)) = some (n, v) ↔
      id = n ∧ outputs id = some v := by
  simp [Option.map_eq_some_iff, and_comm]

theorem Setup.chosenOutput_mem {clean : Bool}
    (hterminal : ∀ terminal, setup.conditionalTerminal = some terminal → terminal ∈ order)
    (h : setup.chosenOutput clean order outputs = some (n, v)) :
    n ∈ order ∧ outputs n = some v := by
  unfold Setup.chosenOutput at h
  dsimp only at h
  split at h
  · rename_i terminal hcond
    obtain ⟨rfl, hout⟩ := slot_eq_some.mp h
    exact ⟨hterminal _ hcond, hout⟩
  · obtain ⟨last, hlast, h⟩ := Option.bind_eq_some_iff.mp h
    obtain ⟨rfl, hout⟩ := slot_eq_some.mp h
    exact ⟨List.mem_of_getLast? hlast, hout⟩
  · obtain ⟨id, hid, h⟩ := List.exists_of_findSome?_eq_some h
    obtain ⟨rfl, hout⟩ := slot_eq_some.mp h
    exact ⟨List.mem_reverse.mp (List.mem_filter.mp hid).1, hout⟩
  · obtain ⟨id, hid, h⟩ := List.exists_of_findSome?_eq_some h
    obtain ⟨rfl, hout⟩ := slot_eq_some.mp h
    exact ⟨List.mem_reverse.mp hid, hout⟩

/-- The final output stands under a node of the order. -/
theorem Setup.finalOutput_mem (hs : Settled setup s) (h : setup.finalOutput s = some (n, v)) :
    n ∈ s.order ∧ s.outputs n = some v := by
  rw [setup.finalOutput_eq] at h
  refine setup.chosenOutput_mem (fun terminal hterminal => ?_) h
  unfold Setup.conditionalTerminal at hterminal
  split at hterminal
  · cases hterminal
  · rw [hs.layout.ordered.mem]
    have hlt := (setup.mem_order terminal).mp (List.mem_of_getLast? hterminal)
    exact lt_of_lt_of_le hlt hs.layout.length_le

/-- At the end of a run it is the outcome of a node. -/
theorem Settled.finalOutput_outcome (hs : Settled setup s) (hall : Accounted s)
    (h : setup.finalOutput s = some (n, v)) : (n, v) ∈ s.outcomes := by
  obtain ⟨hn, hout⟩ := Setup.finalOutput_mem hs h
  rcases (hall.all n).mp hn with hc | hp
  · obtain ⟨⟨m, w⟩, hmem, rfl⟩ := List.mem_map.mp hc
    have hw := hs.values.done m w hmem
    rw [hout] at hw
    cases hw
    exact hmem
  · rw [hs.values.lost n hp] at hout
    cases hout

end Coordinator

/-! ## The sequential executor -/

section Sequential

variable {setup : Setup V Key} {answer : Answer V} {before : List Nat}

/-- Where an advisory failure stops the sequential executor, no seed is left at it or after it. -/
def Setup.NoSeedLeft (setup : Setup V Key) (answer : Answer V) : Prop :=
  ∀ before f after reason, setup.Stop answer before f after reason →
    ∀ n ∈ f :: after, setup.plan.initial n = none

/-- A final output is what its node answered in this run. -/
def Setup.SequentialSound (setup : Setup V Key) (answer : Answer V) : Prop :=
  ∀ st n v, setup.runSequential answer = .ok st → st.finalOutput setup.order = some (n, v) →
    n ∈ st.executed ∧ ∃ input, answer n input = .ok v

variable {n : Nat} {v : V}

theorem InOrder.finalOutput_mem {st : InOrder V} (hgates : setup.plan.conditionGates = [])
    (h : st.finalOutput setup.order = some (n, v)) : n ∈ setup.order ∧ st.outputs n = some v := by
  have hterminal := setup.conditionalTerminal_plain hgates
  have hchosen : st.finalOutput setup.order =
      setup.chosenOutput st.warnings.isEmpty setup.order st.outputs := by
    unfold InOrder.finalOutput Setup.chosenOutput
    rw [hterminal]
    cases st.warnings.isEmpty <;> rfl
  exact setup.chosenOutput_mem (by simp [hterminal]) (hchosen.symm.trans h)

/-- The output of a node that ran is what it answered. -/
theorem Setup.ranUpTo_answer (hn : n ∈ before)
    (hout : (setup.ranUpTo answer before).outputs n = some v) :
    ∃ input, answer n input = .ok v := by
  have hvalue : (setup.ranUpTo answer before).outputs n = valueOf (setup.fates answer) n :=
    if_pos hn
  rw [hvalue] at hout
  exact setup.fates_done (valueOf_eq_some.mp hout)

/-- The search of the sequential executor finds a seed that is left. -/
theorem Setup.Stop.finds_seed {after : List Nat} {f : Nat} {reason : String}
    (h : setup.Stop answer before f after reason) (hn : n ∈ f :: after) {seed : V}
    (hseed : setup.plan.initial n = some seed) (warning : StageWarning) : ∃ m v, m ∉ before ∧
      ((setup.ranUpTo answer before).warn warning).finalOutput setup.order = some (m, v) := by
  have hnot : ∀ m ∈ f :: after, m ∉ before := List.forall_mem_cons.mpr ⟨h.nodup.1, h.nodup.2.2⟩
  have hfind : ((f :: after).reverse.findSome? fun id =>
      ((setup.ranUpTo answer before).outputs id).map fun artifact => (id, artifact)).isSome =
        true := by
    rw [List.findSome?_isSome_iff]
    refine ⟨n, List.mem_reverse.mpr hn, ?_⟩
    have hout : (setup.ranUpTo answer before).outputs n = setup.plan.initial n :=
      if_neg (hnot n hn)
    rw [hout, hseed]
    rfl
  obtain ⟨⟨m, v⟩, hfound⟩ := Option.isSome_iff_exists.mp hfind
  obtain ⟨id, hid, hslot⟩ := List.exists_of_findSome?_eq_some hfound
  obtain ⟨rfl, -⟩ := slot_eq_some.mp hslot
  refine ⟨id, v, hnot id (List.mem_reverse.mp hid), ?_⟩
  show (setup.order.reverse.findSome? fun id => ((setup.ranUpTo answer before).outputs id).map
    fun artifact => (id, artifact)) = _
  rw [h.split, List.reverse_append, List.findSome?_append, hfound, Option.some_or]

theorem Setup.sequentialSound_iff (hgates : setup.plan.conditionGates = []) :
    setup.SequentialSound answer ↔ setup.NoSeedLeft answer := by
  have hend := setup.sequential_end answer hgates
  unfold Setup.SequentialSound
  generalize setup.runSequential answer = sequential at hend
  cases hend with
  | completed hall =>
    refine iff_of_true (fun st n v hst hfinal => ?_) fun _ _ _ _ h =>
      absurd h (setup.no_stop_of_done hall)
    cases hst
    obtain ⟨hn, hout⟩ := InOrder.finalOutput_mem hgates hfinal
    exact ⟨hn, Setup.ranUpTo_answer hn hout⟩
  | failed fault hsplit hdone hfatal =>
    exact iff_of_true (fun st n v hst => by cases hst) fun _ _ _ _ h =>
      absurd h (setup.no_stop_of_fatal hsplit hdone hfatal)
  | @stopped before after f node reason hsplit hdone hnode hwarned =>
    have hstop : setup.Stop answer before f after reason := ⟨hsplit, hdone, hwarned⟩
    constructor
    · intro hsound before' f' after' reason' h' n hn
      obtain ⟨rfl, rfl, rfl⟩ := hstop.unique h'
      by_contra hne
      obtain ⟨seed, hseed⟩ := Option.ne_none_iff_exists'.mp hne
      obtain ⟨m, v, hm, hfinal⟩ := hstop.finds_seed hn hseed
        { idx := before.length, stage := node.stage.name, reason := reason }
      exact hm (hsound _ m v rfl hfinal).1
    · intro hnone st n v hst hfinal
      cases hst
      obtain ⟨hn, hout⟩ := InOrder.finalOutput_mem hgates hfinal
      by_cases hb : n ∈ before
      · exact ⟨hb, Setup.ranUpTo_answer hb hout⟩
      · have hseed : (setup.ranUpTo answer before).outputs n = setup.plan.initial n := if_neg hb
        have hrest : n ∈ f :: after := by
          rw [hsplit] at hn
          exact (List.mem_append.mp hn).resolve_left hb
        cases hout.symm.trans (hseed.trans (hnone before f after reason hstop n hrest))

/-- The fused chain has run every node it returns from. -/
theorem Setup.linear_sound {members : List Nat} {st : InOrder V}
    (hmembers : setup.plan.fullLinearFusionOrder = some members)
    (hrun : runNodes setup.plan setup.runtime answer false 0 members (InOrder.start setup.plan) =
      .ok st)
    (hlast : members.getLast? = some n) (hout : st.outputs n = some v) :
    n ∈ st.executed ∧ ∃ input, answer n input = .ok v := by
  obtain ⟨rfl, -, hwarned, hend⟩ := setup.linear_end answer hmembers
  have hn : n ∈ setup.order := List.mem_of_getLast? hlast
  rw [hrun] at hend
  cases hend with
  | completed hall => exact ⟨hn, Setup.ranUpTo_answer hn hout⟩
  | stopped hsplit hdone hnode hfate => exact absurd hfate (hwarned _ _)

end Sequential

/-! ## Both executors -/

/-- On a plan as it was prepared the parallel executor returns the output of a node that completed
    in the run. The sequential one does so just when an advisory failure leaves no seed behind. -/
theorem final_output_of_completed [DecidableEq Key] {setup : Setup V Key} {unit : V}
    (hbuilt : Built unit plan) {mode : PreparedExecutorMode} {deadCode : Bool}
    (hplan : setup.plan = preparePlan mode deadCode plan) :
    (∀ (allowed : Coordinator V Key → Move V → Prop) s, Reachable setup allowed s → s.Done →
      s.firstError = none → ∀ n v, setup.finalOutput s = some (n, v) → (n, v) ∈ s.outcomes) ∧
    (∀ (answer : Answer V) members st, setup.plan.fullLinearFusionOrder = some members →
      runNodes setup.plan setup.runtime answer false 0 members (InOrder.start setup.plan) = .ok st →
      ∀ n v, members.getLast? = some n → st.outputs n = some v →
        n ∈ st.executed ∧ ∃ input, answer n input = .ok v) ∧
    (setup.plan.conditionGates = [] → ∀ answer,
      (setup.SequentialSound answer ↔ setup.NoSeedLeft answer)) := by
  have hisolated : GatesIsolated setup.plan := by
    rw [hplan]
    exact hbuilt.isolated.prepare mode deadCode
  have hapart := hisolated.apart setup.ordered
  refine ⟨fun allowed s hreach hdone hok n v hfinal => ?_,
    fun answer members st hmembers hrun n v hlast hout =>
      Setup.linear_sound hmembers hrun hlast hout,
    fun hgates answer => Setup.sequentialSound_iff hgates⟩
  have hs := hreach.settled hapart hok
  exact hs.finalOutput_outcome (hs.accounted hapart hdone hok) hfinal

/-- One advisory stage on the graph input. -/
def soloNode : PlanNode where
  stage := { (sampleNode "gate" unitKind "report").stage with isAdvisory := true }
  canonArgs := ""
  memoryGib := 0
  partition := none

def soloPlan : CompiledPlan Nat := erasedPlan 7 [soloNode] [] (by decide)

theorem built_soloPlan : Built 7 soloPlan := by
  have hok : fromErasedGraph 7 [soloNode] [] = .ok soloPlan := rfl
  exact .graph hok

def soloSetup : Setup Nat (String × Nat) where
  plan := soloPlan
  ctx := sampleSetup.ctx
  runtime := sampleSetup.runtime
  order := [0]
  groups := []
  ordered := by decide +kernel
  grouped := grouped_nil _
  uncontrolled := sampleSetup_uncontrolled

theorem final_output_of_completed_solo : soloSetup.SequentialSound (fun _ _ => .error "refused") ↔
    soloSetup.NoSeedLeft fun _ _ => .error "refused" :=
  (final_output_of_completed built_soloPlan (preparePlan_sequential true soloPlan).symm).2.2 rfl _

/-- The stage fails, and its own input is returned. -/
theorem final_output_is_the_seed : Built 7 soloSetup.plan ∧
    ∃ st, soloSetup.runSequential (fun _ _ => .error "refused") = .ok st ∧
      st.executed = [] ∧ st.finalOutput soloSetup.order = some (0, 7) := by
  refine ⟨built_soloPlan, _, rfl, rfl, ?_⟩
  decide +kernel

end Blut.Framework
