/-
  Dead code elimination on merged plans.

  An acyclic plan without expansions stays as it is exactly when it has no arc at all, or when
  every node has one (`eliminateDeadCode_eq_self_iff`): a node without arcs is dropped as soon as
  there is a root that starts something. Both are questions about all components of a merged plan
  at once, so components that each stay as they are on their own may lose nodes together.
-/
import Blut.Framework.DeadCode

namespace Blut.Framework

open Blut.Lib

variable {V : Type}

/-! ## One plan -/

/-- Every node has an arc into it or out of it. -/
def CompiledPlan.Connected (plan : CompiledPlan V) : Prop :=
  ∀ id < plan.nodes.length, plan.arcsInto id ≠ [] ∨ plan.arcsFrom id ≠ []

variable {plan comp : CompiledPlan V}

/-- A node has an arc, in either direction. -/
theorem connected_at_iff {id : Nat} : (plan.arcsInto id ≠ [] ∨ plan.arcsFrom id ≠ []) ↔
    ∃ other, (other, id) ∈ plan.arcs ∨ (id, other) ∈ plan.arcs := by
  simp only [ne_eq, List.eq_nil_iff_forall_not_mem, not_forall, not_not, mem_arcsInto, mem_arcsFrom,
    exists_or]

/-- Against the arcs one comes to a root that starts something. -/
theorem liveRoots_ne_nil (hacyclic : plan.Acyclic) {a b : Nat} (harc : (a, b) ∈ plan.arcs) :
    plan.liveRoots ≠ [] := by
  induction a using hacyclic.induction generalizing b with
  | h a ih =>
    cases hinto : plan.arcsInto a with
    | cons p rest =>
      have hp : (p, a) ∈ plan.arcs := mem_arcsInto.mp (by simp [hinto])
      exact ih p hp hp
    | nil =>
      unfold CompiledPlan.liveRoots
      split
      · exact List.cons_ne_nil _ _
      · refine List.ne_nil_of_mem (a := a) (List.mem_filter.mpr ?_)
        have hfrom : plan.arcsFrom a ≠ [] := List.ne_nil_of_mem (mem_arcsFrom.mpr harc)
        exact ⟨List.mem_range.mpr (arcs_inRange plan harc).1, by simp [hinto, hfrom]⟩

/-- A live node of a plan with several is connected. -/
theorem connected_of_live (hmany : plan.nodes.length ≠ 1) {id : Nat} (h : id ∈ plan.live) :
    plan.arcsInto id ≠ [] ∨ plan.arcsFrom id ≠ [] := by
  rcases reach_path h with hin | ⟨root, hroot, hpath⟩
  · exact absurd hin (Finset.notMem_empty id)
  · rcases Relation.ReflTransGen.cases_tail hpath with heq | ⟨p, -, hstep⟩
    · unfold CompiledPlan.liveRoots at hroot
      rw [if_neg hmany] at hroot
      have hstarts := (List.mem_filter.mp hroot).2
      rw [heq]
      right
      intro hnil
      simp [hnil] at hstarts
    · left
      exact List.ne_nil_of_mem (mem_arcsInto.mpr (mem_arcsFrom.mp hstep))

/-- Exactly the plans without any arc and those in which every node has one stay as they are. -/
theorem eliminateDeadCode_eq_self_iff (hacyclic : plan.Acyclic)
    (hexpansions : plan.expansions = []) :
    plan.eliminateDeadCode = plan ↔ plan.arcs = [] ∨ plan.Connected := by
  constructor
  · intro hsame
    rw [or_iff_not_imp_left]
    intro harcs id hid
    obtain ⟨⟨a, b⟩, harc⟩ := List.exists_mem_of_ne_nil _ harcs
    -- an arc has two ends
    have hmany : plan.nodes.length ≠ 1 := by
      intro hone
      obtain ⟨ha, hb⟩ := arcs_inRange plan harc
      have hloop : a = b := by omega
      subst hloop
      exact hacyclic.irrefl.irrefl a harc
    by_contra hisolated
    have hdead : id ∉ plan.live := fun hlive => hisolated (connected_of_live hmany hlive)
    have hkept : plan.pruneDead.nodes.length < plan.nodes.length := by
      show (plan.kept.filterMap fun id => plan.nodes[id]?).length < _
      rw [plan.length_kept]
      have hlt : plan.kept.length < (List.range plan.nodes.length).length :=
        List.length_filter_lt_length_iff_exists.mpr
          ⟨id, List.mem_range.mpr hid, by simpa using hdead⟩
      rwa [List.length_range] at hlt
    have hcard : plan.live.card ≠ plan.nodes.length := fun hcard =>
      hdead (live_eq_of_card hcard ▸ Finset.mem_range.mpr hid)
    unfold CompiledPlan.eliminateDeadCode at hsame
    rw [if_neg] at hsame
    · rw [hsame] at hkept
      exact lt_irrefl _ hkept
    · rintro (hzero | hexp | hroots | heq)
      · omega
      · exact hexp hexpansions
      · exact liveRoots_ne_nil hacyclic harc hroots
      · exact hcard heq
  · intro h
    unfold CompiledPlan.eliminateDeadCode
    refine if_pos ?_
    rcases h with harcs | hconnected
    · by_cases hone : plan.nodes.length = 1
      · -- a single node is live by itself
        refine Or.inr (Or.inr (Or.inr ?_))
        rw [live_eq_range hacyclic (Or.inl hone), Finset.card_range]
      · refine Or.inr (Or.inr (Or.inl ?_))
        unfold CompiledPlan.liveRoots
        rw [if_neg hone, List.filter_eq_nil_iff]
        intro id _
        have hfrom : plan.arcsFrom id = [] := by
          unfold CompiledPlan.arcsFrom
          rw [harcs]
          rfl
        simp [hfrom]
    · refine Or.inr (Or.inr (Or.inr ?_))
      have hroots : ∀ id < plan.nodes.length, plan.arcsInto id = [] → plan.arcsFrom id ≠ [] :=
        fun id hid hinto => (hconnected id hid).resolve_left (not_not_intro hinto)
      rw [live_eq_range hacyclic (Or.inr hroots), Finset.card_range]

/-! ## Components -/

theorem mem_arcs_append {a b : Nat} : (a, b) ∈ (plan.append comp).arcs ↔ (a, b) ∈ plan.arcs
      ∨ ∃ a' b', (a', b') ∈ comp.arcs ∧ a = a' + plan.nodes.length
        ∧ b = b' + plan.nodes.length := by
  unfold CompiledPlan.arcs
  simp only [mem_arcsOf, CompiledPlan.append, mem_append_shift]
  simp only [List.mem_append, List.mem_map, or_and_right, exists_or, exists_exists_and_eq_and]
  rw [or_or_or_comm]
  refine or_congr_right (or_congr_right ⟨?_, ?_⟩)
  · rintro ⟨g, hg, rfl, rfl⟩
    exact ⟨_, _, ⟨g, hg, rfl, rfl⟩, rfl, rfl⟩
  · rintro ⟨_, _, ⟨g, hg, rfl, rfl⟩, rfl, rfl⟩
    exact ⟨g, hg, rfl, rfl⟩

theorem arcs_append_eq_nil : (plan.append comp).arcs = [] ↔ plan.arcs = [] ∧ comp.arcs = [] := by
  simp only [List.eq_nil_iff_forall_not_mem, Prod.forall, mem_arcs_append]
  constructor
  · intro h
    exact ⟨fun a b hab => h a b (Or.inl hab),
      fun a b hab => h _ _ (Or.inr ⟨a, b, hab, rfl, rfl⟩)⟩
  · rintro ⟨hplan, hcomp⟩ a b (hab | ⟨a', b', hab, rfl, rfl⟩)
    · exact hplan a b hab
    · exact hcomp a' b' hab

/-- Arcs stay within a component. -/
theorem acyclic_append (hplan : plan.Acyclic) (hcomp : comp.Acyclic) :
    (plan.append comp).Acyclic := by
  have hleft : ∀ b < plan.nodes.length, Acc (fun a b => (a, b) ∈ (plan.append comp).arcs) b := by
    intro b
    induction b using hplan.induction with
    | h b ih =>
      intro hb
      refine Acc.intro b fun a hab => ?_
      rcases mem_arcs_append.mp hab with hab | ⟨a', b', -, -, rfl⟩
      · exact ih a hab (arcs_inRange plan hab).1
      · omega
  have hright : ∀ b, Acc (fun a b => (a, b) ∈ (plan.append comp).arcs) (b + plan.nodes.length) := by
    intro b
    induction b using hcomp.induction with
    | h b ih =>
      refine Acc.intro _ fun a hab => ?_
      rcases mem_arcs_append.mp hab with harc | ⟨a', b', harc, rfl, heq⟩
      · have hlt := (arcs_inRange plan harc).2
        omega
      · have hb : b' = b := by omega
        exact ih a' (hb ▸ harc)
  refine ⟨fun b => ?_⟩
  by_cases hb : b < plan.nodes.length
  · exact hleft b hb
  · have hsum : b - plan.nodes.length + plan.nodes.length = b := by omega
    exact hsum ▸ hright (b - plan.nodes.length)

theorem connected_iff : plan.Connected ↔ ∀ id < plan.nodes.length, ∃ other,
      (other, id) ∈ plan.arcs ∨ (id, other) ∈ plan.arcs :=
  forall₂_congr fun _ _ => connected_at_iff

theorem connected_append : (plan.append comp).Connected ↔ plan.Connected ∧ comp.Connected := by
  simp only [connected_iff, mem_arcs_append]
  have hlength : (plan.append comp).nodes.length = plan.nodes.length + comp.nodes.length :=
    List.length_append
  rw [hlength]
  constructor
  · refine fun h => ⟨fun id hid => ?_, fun id hid => ?_⟩
    · obtain ⟨other, (harc | ⟨a, b, -, -, hb⟩) | (harc | ⟨a, b, -, ha, -⟩)⟩ := h id (by omega)
      · exact ⟨other, Or.inl harc⟩
      · omega
      · exact ⟨other, Or.inr harc⟩
      · omega
    · obtain ⟨other, (harc | ⟨a, b, harc, -, hb⟩) | (harc | ⟨a, b, harc, ha, -⟩)⟩ :=
        h (id + plan.nodes.length) (by omega)
      · have hlt := (arcs_inRange plan harc).2
        omega
      · have hid : b = id := by omega
        exact ⟨a, Or.inl (hid ▸ harc)⟩
      · have hlt := (arcs_inRange plan harc).1
        omega
      · have hid : a = id := by omega
        exact ⟨b, Or.inr (hid ▸ harc)⟩
  · rintro ⟨hplan, hcomp⟩ id hid
    by_cases hleft : id < plan.nodes.length
    · obtain ⟨other, harc | harc⟩ := hplan id hleft
      · exact ⟨other, Or.inl (Or.inl harc)⟩
      · exact ⟨other, Or.inr (Or.inl harc)⟩
    · have hsum : id = id - plan.nodes.length + plan.nodes.length := by omega
      obtain ⟨other, harc | harc⟩ := hcomp (id - plan.nodes.length) (by omega)
      · exact ⟨other + plan.nodes.length, Or.inl (Or.inr ⟨other, _, harc, rfl, hsum⟩)⟩
      · exact ⟨other + plan.nodes.length, Or.inr (Or.inr ⟨_, other, harc, hsum, rfl⟩)⟩

/-- What the merged plan is, from what its components are. -/
theorem fromComponents_spec (parts : List (CompiledPlan V))
    (hacyclic : ∀ part ∈ parts, part.Acyclic) :
    (fromComponents parts).1.Acyclic ∧ (fromComponents parts).1.expansions = []
      ∧ ((fromComponents parts).1.arcs = [] ↔ ∀ part ∈ parts, part.arcs = [])
      ∧ ((fromComponents parts).1.Connected ↔ ∀ part ∈ parts, part.Connected) := by
  induction parts using List.reverseRecOn with
  | nil =>
    refine ⟨⟨fun b => Acc.intro b fun a hab => nomatch hab⟩, rfl, ?_, ?_⟩
    · exact ⟨(fun _ _ hpart => nomatch hpart), fun _ => rfl⟩
    · exact ⟨(fun _ _ hpart => nomatch hpart), fun _ _ hid => nomatch hid⟩
  | append_singleton parts part ih =>
    have hparts : ∀ other ∈ parts, other.Acyclic := fun other hother =>
      hacyclic other (List.mem_append_left _ hother)
    obtain ⟨hmerged, -, harcs, hconnected⟩ := ih hparts
    rw [fromComponents_concat]
    refine ⟨acyclic_append hmerged (hacyclic part (by simp)), rfl, ?_, ?_⟩
    · rw [arcs_append_eq_nil, harcs, List.forall_mem_append, List.forall_mem_singleton]
    · rw [connected_append, hconnected, List.forall_mem_append, List.forall_mem_singleton]

/-- Of plans that stay as they are on their own, the merged one does exactly when all or none of
    those with a node have an arc. -/
theorem merged_plan_unchanged_iff {parts : List (CompiledPlan V)}
    (hacyclic : ∀ part ∈ parts, ∃ order, part.topoOrder = .ok order)
    (hexpansions : ∀ part ∈ parts, part.expansions = [])
    (hsame : ∀ part ∈ parts, part.eliminateDeadCode = part) :
    (fromComponents parts).1.eliminateDeadCode = (fromComponents parts).1
      ↔ (∀ part ∈ parts, part.arcs = []) ∨ ∀ part ∈ parts, part.nodes ≠ [] → part.arcs ≠ [] := by
  have hacyclic : ∀ part ∈ parts, part.Acyclic := by
    intro part hpart
    obtain ⟨order, horder⟩ := hacyclic part hpart
    exact CompiledPlan.acyclic_of_topoOrder horder
  obtain ⟨hmerged, hnone, harcs, hconnected⟩ := fromComponents_spec parts hacyclic
  rw [eliminateDeadCode_eq_self_iff hmerged hnone, harcs, hconnected]
  refine or_congr_right (forall₂_congr fun part hpart => ?_)
  have hpart' := (eliminateDeadCode_eq_self_iff (hacyclic part hpart) (hexpansions part hpart)).mp
    (hsame part hpart)
  constructor
  · -- a connected plan with a node has an arc at that node
    intro hconn hnodes hnil
    obtain ⟨other, harc⟩ := connected_iff.mp hconn 0 (List.length_pos_iff.mpr hnodes)
    rw [hnil] at harc
    simp at harc
  · intro harc
    rcases hpart' with hnil | hconn
    · have hempty : part.nodes = [] := by
        by_contra hnodes
        exact harc hnodes hnil
      intro id hid
      rw [hempty] at hid
      cases hid
    · exact hconn

def trialNode : PlanNode where
  stage := ⟨"train", "unit", "unit", false, true, .inProcess, false⟩
  canonArgs := "null"
  memoryGib := 0
  partition := none

/-- A trial of one stage. -/
def soloTrial : CompiledPlan Unit where
  nodes := [trialNode]
  edges := []
  initial := fun _ => none
  expansions := []
  conditionGates := []
  inRange := by simp [edgesInRange]
  gated := by simp [gatesInRange]
  seeded := fun _ _ h => nomatch h

/-- A trial of two. -/
def pairTrial : CompiledPlan Unit where
  nodes := [trialNode, trialNode]
  edges := [⟨0, 1⟩]
  initial := fun _ => none
  expansions := []
  conditionGates := []
  inRange := by simp [edgesInRange]
  gated := by simp [gatesInRange]
  seeded := fun _ _ h => nomatch h

theorem soloTrial_topoOrder : soloTrial.topoOrder = .ok [0] := by decide +kernel

theorem pairTrial_topoOrder : pairTrial.topoOrder = .ok [0, 1] := by decide +kernel

theorem pairTrial_unchanged : pairTrial.eliminateDeadCode = pairTrial := by
  refine eliminateDeadCode_eq_self pairTrial_topoOrder fun id hid hinto => ?_
  have hfirst : ∀ id < 2, pairTrial.arcsInto id = [] → pairTrial.arcsFrom id ≠ [] := by decide
  exact hfirst id hid hinto

theorem merged_plan_unchanged_iff_pairs :
    (fromComponents [pairTrial, pairTrial]).1.eliminateDeadCode
      = (fromComponents [pairTrial, pairTrial]).1 := by
  have hall : ∀ {P : CompiledPlan Unit → Prop}, P pairTrial →
      ∀ part ∈ [pairTrial, pairTrial], P part :=
    fun h => by simpa using h
  exact (merged_plan_unchanged_iff (hall ⟨_, pairTrial_topoOrder⟩) (hall rfl)
    (hall pairTrial_unchanged)).mpr (Or.inr (hall (by decide)))

/-- Beside a trial of two stages, a trial of one is dropped. -/
theorem single_node_component_dropped :
    (∀ part ∈ [soloTrial, pairTrial], (∃ order, part.topoOrder = .ok order)
        ∧ part.expansions = [] ∧ part.eliminateDeadCode = part)
      ∧ (fromComponents [soloTrial, pairTrial]).1.nodes.length = 3
      ∧ (fromComponents [soloTrial, pairTrial]).1.eliminateDeadCode.nodes.length = 2 := by
  refine ⟨fun part hpart => ?_, rfl, by decide +kernel⟩
  simp only [List.mem_cons, List.not_mem_nil, or_false] at hpart
  rcases hpart with rfl | rfl
  · exact ⟨⟨_, soloTrial_topoOrder⟩, rfl, (eliminateDeadCode_eq_self_iff
      (CompiledPlan.acyclic_of_topoOrder soloTrial_topoOrder) rfl).mpr (Or.inl rfl)⟩
  · exact ⟨⟨_, pairTrial_topoOrder⟩, rfl, pairTrial_unchanged⟩

end Blut.Framework
