/-
  The result of a run of the coordinator.

  At the end of a run without an error the completed nodes are those with an output among the
  fates, the pruned ones all the others, and the result is the one the fates denote
  (`Reachable.result_eq`). A run ends with an error when some node is fatal, and only then.
-/
import Blut.Framework.Confluence

namespace Blut.Framework

open Blut.Lib

variable {V Key : Type}

/-! ## Reports -/

/-- What a run shows of itself. -/
structure Observed (V : Type) where
  executed : Finset Nat
  warnings : Finset StageWarning
  finalOutput : Option V

/-- What is compared of two runs of the coordinator: also the nodes it pruned, and the output of
    every completed node. -/
structure Report (V : Type) extends Observed V where
  pruned : Finset Nat
  outputs : Nat → Option V

/-- The choice of `final_output`. -/
def Setup.chosenOutput (setup : Setup V Key) (clean : Bool) (order : List Nat)
    (outputs : Nat → Option V) : Option (Nat × V) :=
  let slot := fun id => (outputs id).map fun artifact => (id, artifact)
  match clean, setup.conditionalTerminal with
  | true, some terminal => slot terminal
  | true, none => order.getLast?.bind slot
  | false, some terminal =>
    (order.reverse.filter fun id => id ∈ setup.outputCandidates terminal).findSome? slot
  | false, none => order.reverse.findSome? slot

theorem Setup.finalOutput_eq (setup : Setup V Key) (s : Coordinator V Key) :
    setup.finalOutput s = setup.chosenOutput s.warnings.isEmpty s.order s.outputs := by
  unfold Setup.finalOutput Setup.chosenOutput
  cases s.warnings <;> cases setup.conditionalTerminal <;> rfl

/-- Only the outputs of the order matter. -/
theorem Setup.chosenOutput_congr (setup : Setup V Key) (clean : Bool)
    {outputs outputs' : Nat → Option V} (h : ∀ n ∈ setup.order, outputs n = outputs' n) :
    setup.chosenOutput clean setup.order outputs =
      setup.chosenOutput clean setup.order outputs' := by
  have hslot : ∀ n ∈ setup.order, (outputs n).map (fun artifact => (n, artifact)) =
      (outputs' n).map fun artifact => (n, artifact) := by
    intro n hn
    rw [h n hn]
  have hfind : ∀ l : List Nat, (∀ n ∈ l, n ∈ setup.order) →
      l.findSome? (fun id => (outputs id).map fun artifact => (id, artifact)) =
        l.findSome? fun id => (outputs' id).map fun artifact => (id, artifact) := by
    intro l hl
    induction l with
    | nil => rfl
    | cons n l ih =>
      rw [List.findSome?_cons, List.findSome?_cons, hslot n (hl n List.mem_cons_self),
        ih fun m hm => hl m (List.mem_cons_of_mem n hm)]
  unfold Setup.chosenOutput
  cases clean <;> cases hterminal : setup.conditionalTerminal with
  | none =>
    first
      | exact hfind _ fun n hn => List.mem_reverse.mp hn
      | cases hlast : setup.order.getLast? with
        | none => rfl
        | some last => exact hslot last (List.mem_of_getLast? hlast)
  | some terminal =>
    have hmem : terminal ∈ setup.order := by
      unfold Setup.conditionalTerminal at hterminal
      split at hterminal
      · cases hterminal
      · exact List.mem_of_getLast? hterminal
    first
      | exact hfind _ fun n hn => List.mem_reverse.mp (List.mem_filter.mp hn).1
      | exact hslot terminal hmem

/-- What the coordinator returns. -/
def Setup.result (setup : Setup V Key) (s : Coordinator V Key) : Outcome PlanError (Report V) :=
  match s.firstError with
  | some fault => .error fault
  | none => .ok {
      executed := s.completed.toFinset
      warnings := s.warnings.toFinset
      finalOutput := (setup.finalOutput s).map Prod.snd
      pruned := s.pruned
      outputs := fun n => if n ∈ s.completed then s.outputs n else none }

/-- The result the fates denote. -/
def Setup.denoted (setup : Setup V Key) (answer : Answer V) : Report V where
  executed := setup.order.toFinset.filter fun n => (valueOf (setup.fates answer) n).isSome = true
  warnings := (setup.order.filterMap (setup.warningOf answer)).toFinset
  finalOutput := (setup.chosenOutput (setup.order.filterMap (setup.warningOf answer)).isEmpty
    setup.order (valueOf (setup.fates answer))).map Prod.snd
  pruned := setup.order.toFinset.filter fun n => (valueOf (setup.fates answer) n).isNone = true
  outputs := valueOf (setup.fates answer)

/-! ## The end of a run -/

section Ends

variable {setup : Setup V Key} {answer : Answer V} {s : Coordinator V Key}

variable {n : Nat}

theorem Setup.value_of_warning {w : StageWarning} (h : setup.warningOf answer n = some w) :
    setup.fates answer n = some (.warned w.reason) ∧ valueOf (setup.fates answer) n = none := by
  unfold Setup.warningOf at h
  split at h
  · rename_i reason node hfate hnode
    cases h
    exact ⟨hfate, valueOf_eq hfate⟩
  · cases h

theorem Setup.value_of_lost (h : (∃ w ∈ s.warnings, setup.warningOf answer n = some w) ∨
    setup.fates answer n = some .skipped) : valueOf (setup.fates answer) n = none := by
  rcases h with ⟨w, -, hw⟩ | hskip
  · exact (setup.value_of_warning hw).2
  · exact valueOf_eq hskip

section

variable (hgates : GatesApart setup.plan) (hs : Settled setup s) (h : Agrees setup answer s)
include hgates hs h

/-- A pruned node has its warning or is skipped. -/
theorem Agrees.pruned_fate (hn : n ∈ s.pruned) :
    (∃ w ∈ s.warnings, setup.warningOf answer n = some w) ∨
      setup.fates answer n = some .skipped := by
  have hwf := setup.network_wf hgates hs.layout
  induction n using hwf.wellFounded.induction with
  | h n ih =>
    have hmem : n ∈ setup.order := by
      rw [setup.mem_order, ← h.graph.1]
      exact hs.sound.pruned_mem n hn
    have hlost : ∀ m, ((setup.network s).edge m n ∨ (setup.network s).gate m n) → m ∈ s.pruned →
        valueOf (setup.fates answer) m = none := fun m hm hp => setup.value_of_lost (ih m hm hp)
    rcases hs.sound.pruned_cause n hn with hst | ⟨hdec, hoff⟩ | ⟨p, hedge, hp⟩ | ⟨c, hgate, hc⟩
    · exact Or.inl (h.lost n hst hn)
    · -- its selector decided against it
      obtain ⟨c, g, hg, rfl, rfl⟩ := hs.sound.decided_gate n hdec
      obtain ⟨v, b, hv, hb, hne⟩ := hs.values.refused g hg hdec hoff
      refine Or.inr (setup.fates_skipped hmem fun hadmitted => ?_)
      have hwhen := hadmitted.2 g hg rfl
      rw [valueOf_eq_some.mpr (h.done _ _ hv)] at hwhen
      exact hne (Option.some.inj (hb.symm.trans hwhen))
    · refine Or.inr (setup.fates_skipped hmem fun hadmitted => ?_)
      have hedge' : ⟨p, n⟩ ∈ setup.plan.edges := h.graph.2.1 ▸ hedge
      have hsome := hadmitted.1 p (mem_predecessors.mpr hedge')
      rw [hlost p (Or.inl hedge) hp] at hsome
      exact absurd hsome Bool.false_ne_true
    · refine Or.inr (setup.fates_skipped hmem fun hadmitted => ?_)
      obtain ⟨g, hg, rfl, rfl⟩ := hgate
      have hwhen := hadmitted.2 g hg rfl
      rw [hlost g.condition (Or.inr ⟨g, hg, rfl, rfl⟩) hc] at hwhen
      exact absurd hwhen (by simp)

/-- When every node is accounted for, the fates are those of the state. -/
theorem Agrees.value_eq (hall : Accounted s) (hn : n ∈ setup.order) :
    s.outputs n = valueOf (setup.fates answer) n ∧
      (n ∈ s.completed ↔ (valueOf (setup.fates answer) n).isSome = true) := by
  rw [← h.graph.2.2] at hn
  rcases (hall.all n).mp hn with hc | hp
  · obtain ⟨v, hmem, hv⟩ := h.value hc
    rw [hv]
    exact ⟨hs.values.done n v hmem, fun _ => rfl, fun _ => hc⟩
  · rw [setup.value_of_lost (h.pruned_fate hgates hs hp)]
    refine ⟨hs.values.lost n hp, fun hc => absurd hp (hall.apart n hc), fun hsome => ?_⟩
    exact absurd hsome Bool.false_ne_true

theorem Agrees.not_fails (hall : Accounted s) : ¬ setup.Fails answer := by
  rintro ⟨n, hfatal⟩
  rcases (hall.all n).mp (h.graph.2.2 ▸ setup.mem_of_fates hfatal) with hc | hp
  · obtain ⟨v, -, hv⟩ := h.value hc
    rw [valueOf_eq_some.mp hv] at hfatal
    cases hfatal
  · rcases h.pruned_fate hgates hs hp with ⟨w, -, hw⟩ | hskip
    · rw [(setup.value_of_warning hw).1] at hfatal
      cases hfatal
    · rw [hskip] at hfatal
      cases hfatal

theorem Agrees.mem_warnings (hall : Accounted s) (w : StageWarning) :
    w ∈ s.warnings ↔ w ∈ setup.order.filterMap (setup.warningOf answer) := by
  rw [List.mem_filterMap]
  constructor
  · intro hw
    obtain ⟨n, hn⟩ := h.warned w hw
    exact ⟨n, setup.mem_of_fates (setup.value_of_warning hn).1, hn⟩
  · rintro ⟨n, hn, hw⟩
    rw [← h.graph.2.2] at hn
    obtain ⟨hfate, hnone⟩ := setup.value_of_warning hw
    rcases (hall.all n).mp hn with hc | hp
    · obtain ⟨v, -, hv⟩ := h.value hc
      rw [hv] at hnone
      cases hnone
    · rcases h.pruned_fate hgates hs hp with ⟨w', hw', heq⟩ | hskip
      · rw [hw] at heq
        cases heq
        exact hw'
      · rw [hskip] at hfate
        cases hfate

theorem Agrees.result_eq (hall : Accounted s) (hok : s.firstError = none) :
    setup.result s = .ok (setup.denoted answer) := by
  have hvalue := fun n hn => h.value_eq hgates hs hall (n := n) hn
  have hwarnings := h.mem_warnings hgates hs hall
  have horder := h.graph.2.2
  have hcompleted : ∀ n, n ∈ s.completed ↔
      n ∈ setup.order ∧ (valueOf (setup.fates answer) n).isSome = true := by
    intro n
    constructor
    · intro hc
      have hn : n ∈ setup.order := horder ▸ (hall.all n).mpr (Or.inl hc)
      exact ⟨hn, (hvalue n hn).2.mp hc⟩
    · exact fun hn => (hvalue n hn.1).2.mpr hn.2
  have hpruned : ∀ n, n ∈ s.pruned ↔
      n ∈ setup.order ∧ (valueOf (setup.fates answer) n).isNone = true := by
    intro n
    rw [Option.isNone_iff_eq_none, ← Option.not_isSome_iff_eq_none]
    have hmem := hall.all n
    rw [horder] at hmem
    have happart := hall.apart n
    have hcompleted := hcompleted n
    tauto
  have hempty : s.warnings.isEmpty = (setup.order.filterMap (setup.warningOf answer)).isEmpty := by
    rw [Bool.eq_iff_iff, List.isEmpty_iff, List.isEmpty_iff, List.eq_nil_iff_forall_not_mem,
      List.eq_nil_iff_forall_not_mem]
    exact forall_congr' fun w => not_congr (hwarnings w)
  have hfinal : setup.finalOutput s =
      setup.chosenOutput (setup.order.filterMap (setup.warningOf answer)).isEmpty setup.order
        (valueOf (setup.fates answer)) := by
    rw [setup.finalOutput_eq, hempty, horder]
    exact setup.chosenOutput_congr _ fun n hn => (hvalue n hn).1
  have houtputs : (fun n => if n ∈ s.completed then s.outputs n else none) =
      valueOf (setup.fates answer) := by
    funext n
    split
    · rename_i hc
      exact (hvalue n ((hcompleted n).mp hc).1).1
    · rename_i hc
      by_cases hn : n ∈ setup.order
      · have hnone : ¬ (valueOf (setup.fates answer) n).isSome = true := fun hsome =>
          hc ((hcompleted n).mpr ⟨hn, hsome⟩)
        exact (Option.not_isSome_iff_eq_none.mp hnone).symm
      · exact (setup.value_of_not_mem answer hn).symm
  have hexecuted : s.completed.toFinset =
      setup.order.toFinset.filter fun n => (valueOf (setup.fates answer) n).isSome = true := by
    ext n
    rw [List.mem_toFinset, Finset.mem_filter, List.mem_toFinset, hcompleted]
  have hwarned : s.warnings.toFinset =
      (setup.order.filterMap (setup.warningOf answer)).toFinset := by
    ext w
    rw [List.mem_toFinset, List.mem_toFinset, hwarnings]
  have hlost : s.pruned =
      setup.order.toFinset.filter fun n => (valueOf (setup.fates answer) n).isNone = true := by
    ext n
    rw [Finset.mem_filter, List.mem_toFinset, hpruned]
  unfold Setup.result Setup.denoted
  rw [hok, houtputs, hfinal, hexecuted, hwarned, hlost]

end

end Ends

variable [DecidableEq Key]

/-- A run that ended returned an error and some node is fatal, or it returned what the fates
    denote and none is. -/
theorem Reachable.result_eq {setup : Setup V Key} {answer : Answer V} {s : Coordinator V Key}
    (hplain : setup.Plain) (h : Reachable setup (Given answer) s) (hdone : s.Done) :
    (setup.Fails answer ∧ ∃ fault, setup.result s = .error fault) ∨
      (¬ setup.Fails answer ∧ setup.result s = .ok (setup.denoted answer)) := by
  have hfaithful := h.faithful hplain
  by_cases hok : s.firstError = none
  · have hs := h.settled hplain.apart hok
    have hall := hs.accounted hplain.apart hdone hok
    have hagrees := hfaithful.agrees hok
    exact Or.inr ⟨hagrees.not_fails hplain.apart hs hall,
      hagrees.result_eq hplain.apart hs hall hok⟩
  · obtain ⟨fault, hfault⟩ := Option.ne_none_iff_exists'.mp hok
    refine Or.inl ⟨hfaithful.failed hok, fault, ?_⟩
    unfold Setup.result
    rw [hfault]

end Blut.Framework
