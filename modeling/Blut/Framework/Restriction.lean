/-
  What the elimination of dead code keeps.

  On an acyclic plan the live nodes are those with an edge or a gate, so every edge and every gate
  stays, with both its ends (`restricts_eliminateDeadCode`). A plan that is the restriction of
  another to a set of nodes with this property computes the same at all of them
  (`Restricts.evaluates`): a node reads what it read before, under new ids.
-/
import Blut.Framework.Runs

namespace Blut.Framework

open Blut.Lib

variable {V Key : Type}

/-- The nodes with an edge or a gate, in order. All nodes, where there is none such, where there is
    one node, or where the plan has expansions. -/
def CompiledPlan.remaining (plan : CompiledPlan V) : List Nat :=
  let incident := (List.range plan.nodes.length).filter fun id =>
    plan.arcs.any fun arc => arc.1 = id || arc.2 = id
  if incident = [] ∨ plan.nodes.length = 1 ∨ plan.expansions ≠ [] then
    List.range plan.nodes.length
  else incident

/-- One plan is the other without the nodes that are not kept, each node under its position among
    the kept ones. -/
structure Restricts (plan small : CompiledPlan V) (kept : List Nat) : Prop where
  sublist : kept.Sublist (List.range plan.nodes.length)
  nodes : ∀ i : Nat, small.nodes[i]? = kept[i]?.bind fun id => plan.nodes[id]?
  edges : small.edges = plan.edges.map fun e => ⟨kept.idxOf e.src, kept.idxOf e.dst⟩
  gates : small.conditionGates = plan.conditionGates.map fun g =>
    ⟨kept.idxOf g.condition, kept.idxOf g.target, g.when⟩
  initial : small.initial = fun id => kept[id]?.bind plan.initial
  expansions : small.expansions = plan.expansions
  closed : ∀ a b, (a, b) ∈ plan.arcs → a ∈ kept ∧ b ∈ kept

variable {plan small : CompiledPlan V} {kept : List Nat} {id : Nat}

/-! ## The nodes that stay -/

theorem incident_eq_kept (hacyclic : plan.Acyclic) (hmany : plan.nodes.length ≠ 1) :
    ((List.range plan.nodes.length).filter fun id =>
      plan.arcs.any fun arc => arc.1 = id || arc.2 = id) = plan.kept := by
  refine List.filter_congr fun id hid => ?_
  have hlive : id ∈ plan.live ↔ ∃ other, (other, id) ∈ plan.arcs ∨ (id, other) ∈ plan.arcs :=
    ⟨fun h => connected_at_iff.mp (connected_of_live hmany h), fun h =>
      live_of_connected hacyclic (List.mem_range.mp hid) (connected_at_iff.mpr h)⟩
  rw [Bool.eq_iff_iff, decide_eq_true_eq, hlive]
  simp [and_or_left, exists_or, or_comm]

/-- The pass leaves the plan, or prunes it to the nodes with an arc. -/
theorem eliminateDeadCode_cases (hacyclic : plan.Acyclic) :
    (plan.eliminateDeadCode = plan ∧ plan.remaining = List.range plan.nodes.length) ∨
      (plan.eliminateDeadCode = plan.pruneDead ∧ plan.remaining = plan.kept ∧
        plan.expansions = [] ∧ plan.nodes.length ≠ 1) := by
  unfold CompiledPlan.eliminateDeadCode CompiledPlan.remaining
  by_cases hone : plan.nodes.length = 1
  · have hcard : plan.live.card = plan.nodes.length := by
      rw [live_eq_range hacyclic (Or.inl hone), Finset.card_range]
    exact Or.inl ⟨if_pos (Or.inr (Or.inr (Or.inr hcard))), if_pos (Or.inr (Or.inl hone))⟩
  dsimp only
  rw [incident_eq_kept hacyclic hone]
  by_cases hexp : plan.expansions = []
  swap
  · exact Or.inl ⟨if_pos (Or.inr (Or.inl hexp)), if_pos (Or.inr (Or.inr hexp))⟩
  have hroots : plan.liveRoots = [] ↔ plan.kept = [] := by
    rw [List.eq_nil_iff_forall_not_mem, List.eq_nil_iff_forall_not_mem]
    constructor
    · intro hnone id hid
      obtain ⟨other, harc | harc⟩ := connected_at_iff.mp (connected_of_live hone (mem_kept.mp hid))
      all_goals exact liveRoots_ne_nil hacyclic harc (List.eq_nil_iff_forall_not_mem.mpr hnone)
    · exact fun hnone id hid => hnone id (mem_kept.mpr (live_spec.1 id hid))
  split_ifs with hwhole hkept hkept
  · exact Or.inl ⟨rfl, rfl⟩
  · have hcard : plan.live.card = plan.nodes.length := by
      rcases hwhole with hzero | hexp' | hnil | hcard
      · rw [hzero, Finset.card_eq_zero]
        exact Finset.eq_empty_of_forall_notMem fun id hid => by
          have hlt := live_lt hid
          omega
      · exact absurd hexp hexp'
      · exact absurd (Or.inl (hroots.mp hnil)) hkept
      · exact hcard
    refine Or.inl ⟨rfl, List.filter_eq_self.mpr fun id hid => ?_⟩
    exact decide_eq_true (live_eq_of_card hcard ▸ Finset.mem_range.mpr (List.mem_range.mp hid))
  · rcases hkept with hnil | hone' | hexp'
    · exact absurd (Or.inr (Or.inr (Or.inl (hroots.mpr hnil)))) hwhole
    · exact absurd hone' hone
    · exact absurd hexp hexp'
  · exact Or.inr ⟨rfl, rfl, hexp, hone⟩

theorem restricts_self (plan : CompiledPlan V) :
    Restricts plan plan (List.range plan.nodes.length) where
  sublist := List.Sublist.refl _
  nodes i := by
    by_cases hi : i < plan.nodes.length
    · simp [hi]
    · simp [hi]
  edges := by
    refine (List.map_id _).symm.trans (List.map_congr_left fun e he => ?_)
    rw [idxOf_range (plan.inRange e he).1, idxOf_range (plan.inRange e he).2]
    rfl
  gates := by
    refine (List.map_id _).symm.trans (List.map_congr_left fun g hg => ?_)
    rw [idxOf_range (plan.gated g hg).1, idxOf_range (plan.gated g hg).2]
    rfl
  initial := by
    funext id
    by_cases hid : id < plan.nodes.length
    · simp [hid]
    · cases hseed : plan.initial id with
      | none => simp [hid]
      | some v => exact absurd (plan.seeded id v hseed).1 hid
  expansions := rfl
  closed a b harc := by simpa using arcs_inRange plan harc

theorem restricts_pruneDead (hacyclic : plan.Acyclic) (hexp : plan.expansions = []) :
    Restricts plan plan.pruneDead plan.kept := by
  have hclosed : ∀ a b, (a, b) ∈ plan.arcs → a ∈ plan.kept ∧ b ∈ plan.kept := by
    intro a b harc
    obtain ⟨ha, hb⟩ := arcs_inRange plan harc
    exact ⟨mem_kept.mpr (live_of_connected hacyclic ha (connected_at_iff.mpr ⟨b, Or.inr harc⟩)),
      mem_kept.mpr (live_of_connected hacyclic hb (connected_at_iff.mpr ⟨a, Or.inl harc⟩))⟩
  refine ⟨List.filter_sublist, fun i => ?_, congrArg (List.map _) ?_, congrArg (List.map _) ?_, rfl,
    hexp.symm, hclosed⟩
  · have hkept : ∀ id ∈ plan.kept, (plan.nodes[id]?).isSome = true := fun id hid => by
      simpa using List.mem_range.mp (List.mem_filter.mp hid).1
    exact getElem?_filterMap_isSome hkept i
  · rw [List.filter_eq_self]
    exact fun e he => decide_eq_true (hclosed _ _ (mem_arcsOf.mpr (Or.inl he)))
  · rw [List.filter_eq_self]
    exact fun g hg => decide_eq_true (hclosed _ _ (mem_arcsOf.mpr (Or.inr ⟨g, hg, rfl, rfl⟩)))

/-! ## What the kept nodes compute -/

section Evaluation

variable (h : Restricts plan small kept)
include h

theorem Restricts.arcs : small.arcs = plan.arcs.map fun arc =>
    (kept.idxOf arc.1, kept.idxOf arc.2) := by
  simp [CompiledPlan.arcs, arcsOf, h.edges, h.gates, List.map_map, Function.comp_def]

theorem Restricts.acyclic (hacyclic : plan.Acyclic) : small.Acyclic := by
  refine Subrelation.wf (fun {x y} harc => ?_) (InvImage.wf (fun i => kept.getD i 0) hacyclic)
  rw [h.arcs] at harc
  obtain ⟨⟨a, b⟩, hab, heq⟩ := List.mem_map.mp harc
  obtain ⟨rfl, rfl⟩ := Prod.mk.inj heq
  obtain ⟨ha, hb⟩ := h.closed a b hab
  simpa [InvImage, List.getElem?_idxOf, ha, hb] using hab

theorem Restricts.predecessors_eq (hid : id ∈ kept) :
    predecessors small.edges (kept.idxOf id) = (predecessors plan.edges id).map kept.idxOf := by
  unfold predecessors
  rw [h.edges, List.filter_map, List.map_map, List.map_map]
  refine congrArg (List.map _) (List.filter_congr fun e _ => ?_)
  simp only [Function.comp_apply, eq_comm (b := kept.idxOf id), List.idxOf_inj hid,
    eq_comm (a := id)]

theorem Restricts.gatesOf_eq (hid : id ∈ kept) :
    gatesOf small.conditionGates (kept.idxOf id) = [] ↔ gatesOf plan.conditionGates id = [] := by
  unfold gatesOf
  rw [h.gates, List.filter_map, List.map_eq_nil_iff, List.filter_eq_nil_iff, List.filter_eq_nil_iff]
  simp only [Function.comp_apply, eq_comm (b := kept.idxOf id), List.idxOf_inj hid,
    eq_comm (a := id)]

theorem Restricts.lookup (hid : id ∈ kept) : small.nodes[kept.idxOf id]? = plan.nodes[id]? := by
  rw [h.nodes, List.getElem?_idxOf hid, Option.bind_some]

variable {runtime : Runtime V Key} {env env' : Nat → Option (Fate V)}

theorem Restricts.admitted_iff (hid : id ∈ kept)
    (hsrc : ∀ src, (src, id) ∈ plan.arcs → valueOf env src = valueOf env' (kept.idxOf src)) :
    Admitted plan runtime env id ↔ Admitted small runtime env' (kept.idxOf id) := by
  unfold Admitted
  rw [h.predecessors_eq hid, h.gates]
  simp only [List.forall_mem_map]
  refine and_congr (forall₂_congr fun p hp => ?_) (forall₂_congr fun g hg => ?_)
  · rw [hsrc p (mem_arcsOf.mpr (Or.inl (mem_predecessors.mp hp)))]
  · rw [eq_comm (b := kept.idxOf id), List.idxOf_inj hid, eq_comm (a := id)]
    refine forall_congr' fun htarget => ?_
    rw [hsrc g.condition (mem_arcsOf.mpr (Or.inr ⟨g, hg, rfl, htarget⟩))]

theorem Restricts.gatherInput_iff (hacyclic : plan.Acyclic) (hid : id ∈ kept)
    (hsrc : ∀ src, (src, id) ∈ plan.arcs → valueOf env src = valueOf env' (kept.idxOf src))
    (hadmitted : Admitted plan runtime env id) (input : V) :
    gatherInput runtime plan.edges (inputsFor plan env id) id = .ok input ↔
      gatherInput runtime small.edges (inputsFor small env' (kept.idxOf id)) (kept.idxOf id) =
        .ok input := by
  have hpreds := h.predecessors_eq hid
  by_cases hnil : predecessors plan.edges id = []
  · -- a root reads its seed
    rw [hnil, List.map_nil] at hpreds
    have hseed : small.initial (kept.idxOf id) = plan.initial id := by
      simp [h.initial, List.getElem?_idxOf hid]
    simp [gatherInput, hnil, hpreds, inputsFor, hseed]
  · -- every predecessor has a value, and the same one in both plans
    obtain ⟨first, hfirst⟩ := List.exists_mem_of_ne_nil _ hnil
    obtain ⟨unit, -⟩ := Option.isSome_iff_exists.mp (hadmitted.1 first hfirst)
    let value : Nat → V := fun q => (valueOf env' q).getD unit
    have hpred : ∀ p ∈ predecessors plan.edges id, p ≠ id ∧
        valueOf env p = some (value (kept.idxOf p)) ∧
        valueOf env' (kept.idxOf p) = some (value (kept.idxOf p)) := by
      intro p hp
      have harc : (p, id) ∈ plan.arcs := mem_arcsOf.mpr (Or.inl (mem_predecessors.mp hp))
      obtain ⟨v, hv⟩ := Option.isSome_iff_exists.mp (hadmitted.1 p hp)
      refine ⟨?_, by simp [value, ← hsrc p harc, hv], by simp [value, ← hsrc p harc, hv]⟩
      rintro rfl
      exact hacyclic.irrefl.irrefl p harc
    have hold : gatherInput runtime plan.edges (inputsFor plan env id) id =
        .ok (packed runtime.tuple unit
          ((predecessors plan.edges id).map (value ∘ kept.idxOf))) := by
      refine gatherInput_packed runtime (fun p hp => ?_) fun hroot => absurd hroot hnil
      rw [inputsFor, Function.update_of_ne (hpred p hp).1, (hpred p hp).2.1]
      rfl
    have hnew : gatherInput runtime small.edges (inputsFor small env' (kept.idxOf id))
        (kept.idxOf id) =
        .ok (packed runtime.tuple unit ((predecessors small.edges (kept.idxOf id)).map value)) := by
      refine gatherInput_packed runtime (fun q hq => ?_) fun hroot => ?_
      · rw [hpreds] at hq
        obtain ⟨p, hp, rfl⟩ := List.mem_map.mp hq
        have hne : kept.idxOf p ≠ kept.idxOf id := fun heq =>
          (hpred p hp).1 ((List.idxOf_inj hid).mp heq.symm).symm
        rw [inputsFor, Function.update_of_ne hne, (hpred p hp).2.2]
      · rw [hpreds, List.map_eq_nil_iff] at hroot
        exact absurd hroot hnil
    rw [hold, hnew, hpreds, List.map_map]

theorem Restricts.fateRule_eq (hacyclic : plan.Acyclic) (hid : id ∈ kept) (strict : Bool)
    (stages : Behaviour V)
    (hsrc : ∀ src, (src, id) ∈ plan.arcs → env src = env' (kept.idxOf src)) :
    fateRule plan runtime strict (answersOf plan stages) id env =
      fateRule small runtime strict (answersOf small stages) (kept.idxOf id) env' := by
  have hvalue : ∀ src, (src, id) ∈ plan.arcs → valueOf env src = valueOf env' (kept.idxOf src) := by
    intro src harc
    rw [valueOf, hsrc src harc, valueOf]
  have hiff : Admitted plan runtime env id ↔ Admitted small runtime env' (kept.idxOf id) :=
    h.admitted_iff hid hvalue
  unfold fateRule
  by_cases hadmitted : Admitted plan runtime env id
  swap
  · rw [if_neg hadmitted, if_neg (mt hiff.mpr hadmitted)]
  rw [if_pos hadmitted, if_pos (hiff.mp hadmitted), h.lookup hid]
  have hgather := h.gatherInput_iff hacyclic hid hvalue hadmitted
  cases hnode : plan.nodes[id]? with
  | none => rfl
  | some node =>
    cases hold : gatherInput runtime plan.edges (inputsFor plan env id) id with
    | ok input =>
      rw [(hgather input).mp hold]
      simp only [answersOf, h.lookup hid, hnode, answered, ne_eq, h.gatesOf_eq hid]
    | error fault =>
      cases hnew : gatherInput runtime small.edges (inputsFor small env' (kept.idxOf id))
          (kept.idxOf id) with
      | ok input => cases hold.symm.trans ((hgather input).mpr hnew)
      | error fault' => rfl

/-- The kept nodes have the same fate in both plans, whatever the orders. -/
theorem Restricts.evaluates (hacyclic : plan.Acyclic) (runtime : Runtime V Key) (strict : Bool)
    (stages : Behaviour V) {order order' : List Nat}
    (horder : Ordered plan.edges plan.conditionGates plan.nodes.length order)
    (horder' : Ordered small.edges small.conditionGates small.nodes.length order')
    (hid : id ∈ kept) :
    evalAlong (fateRule plan runtime strict (answersOf plan stages)) order id =
      evalAlong (fateRule small runtime strict (answersOf small stages)) order'
        (kept.idxOf id) := by
  induction id using hacyclic.induction with
  | h id ih =>
    have hlt : id < plan.nodes.length := List.mem_range.mp (h.sublist.subset hid)
    have hlt' : kept.idxOf id < small.nodes.length := by
      have hget := h.lookup hid
      rw [List.getElem?_eq_getElem hlt] at hget
      exact (List.getElem?_eq_some_iff.mp hget).1
    rw [evalAlong_fix horder.nodup horder.topological (reads_fateRule _ _ _ _)
      ((horder.mem id).mpr hlt),
      evalAlong_fix horder'.nodup horder'.topological (reads_fateRule _ _ _ _)
        ((horder'.mem _).mpr hlt')]
    exact congrArg some (h.fateRule_eq hacyclic hid strict stages fun src harc =>
      ih src harc (h.closed src id harc).1)

end Evaluation

/-! ## The pass -/

theorem restricts_eliminateDeadCode (hacyclic : plan.Acyclic) :
    Restricts plan plan.eliminateDeadCode plan.remaining := by
  rcases eliminateDeadCode_cases hacyclic with ⟨hsame, hall⟩ | ⟨hpruned, hkept, hexp, -⟩
  · rw [hsame, hall]
    exact restricts_self plan
  · rw [hpruned, hkept]
    exact restricts_pruneDead hacyclic hexp

theorem eliminateDeadCode_idem (hacyclic : plan.Acyclic) :
    plan.eliminateDeadCode.eliminateDeadCode = plan.eliminateDeadCode := by
  have hrestricts := restricts_eliminateDeadCode hacyclic
  rcases eliminateDeadCode_cases hacyclic with ⟨hsame, -⟩ | ⟨hpruned, hkept, hexp, hmany⟩
  · rw [hsame, hsame]
  rw [hpruned, hkept] at hrestricts
  rw [hpruned]
  refine (eliminateDeadCode_eq_self_iff (hrestricts.acyclic hacyclic) rfl).mpr
    (Or.inr (connected_iff.mpr fun id hid => ?_))
  -- the node under this id was kept for an arc, which is still there
  obtain ⟨old, hold⟩ : ∃ old, plan.kept[id]? = some old := by
    have hget := hrestricts.nodes id
    rw [List.getElem?_eq_getElem hid] at hget
    obtain ⟨old, hold, -⟩ := Option.bind_eq_some_iff.mp hget.symm
    exact ⟨old, hold⟩
  obtain ⟨hlt, hget⟩ := List.getElem?_eq_some_iff.mp hold
  have hnew : plan.kept.idxOf old = id := by
    rw [← hget]
    exact (List.nodup_range.filter _).idxOf_getElem id hlt
  have hlive : old ∈ plan.live := mem_kept.mp (List.mem_of_getElem? hold)
  obtain ⟨other, harc⟩ := connected_at_iff.mp (connected_of_live hmany hlive)
  rw [hrestricts.arcs]
  refine ⟨plan.kept.idxOf other, harc.imp (fun harc => ?_) fun harc => ?_⟩
  all_goals exact List.mem_map.mpr ⟨_, harc, by rw [hnew]⟩

/-- Dead code elimination is a restriction that changes nothing at the nodes it keeps. -/
theorem eliminateDeadCode_restricts (plan : CompiledPlan V) (hacyclic : plan.Acyclic) :
    Restricts plan plan.eliminateDeadCode plan.remaining ∧
      (∀ e ∈ plan.eliminateDeadCode.edges, e.src < plan.eliminateDeadCode.nodes.length ∧
        e.dst < plan.eliminateDeadCode.nodes.length) ∧
      (∀ g ∈ plan.eliminateDeadCode.conditionGates,
        g.condition < plan.eliminateDeadCode.nodes.length ∧
        g.target < plan.eliminateDeadCode.nodes.length) ∧
      (∀ (runtime : Runtime V Key) (strict : Bool) (stages : Behaviour V) (order order' : List Nat),
        Ordered plan.edges plan.conditionGates plan.nodes.length order →
        Ordered plan.eliminateDeadCode.edges plan.eliminateDeadCode.conditionGates
          plan.eliminateDeadCode.nodes.length order' →
        ∀ id ∈ plan.remaining,
          evalAlong (fateRule plan runtime strict (answersOf plan stages)) order id =
            evalAlong (fateRule plan.eliminateDeadCode runtime strict
              (answersOf plan.eliminateDeadCode stages)) order' (plan.remaining.idxOf id)) ∧
      plan.eliminateDeadCode.eliminateDeadCode = plan.eliminateDeadCode := by
  have hrestricts := restricts_eliminateDeadCode hacyclic
  refine ⟨hrestricts, fun e he => CompiledPlan.inRange _ e he, fun g hg =>
    CompiledPlan.gated _ g hg, ?_, eliminateDeadCode_idem hacyclic⟩
  exact fun runtime strict stages order order' horder horder' id hid =>
    hrestricts.evaluates hacyclic runtime strict stages horder horder' hid

/-- Beside a pair, a single node goes. -/
theorem eliminateDeadCode_restricts_trials :
    Restricts (fromComponents [soloTrial, pairTrial]).1
        (fromComponents [soloTrial, pairTrial]).1.eliminateDeadCode [1, 2] ∧
      (fromComponents [soloTrial, pairTrial]).1.eliminateDeadCode.nodes.length = 2 := by
  have hacyclic := CompiledPlan.acyclic_of_topoOrder
    (by decide +kernel : (fromComponents [soloTrial, pairTrial]).1.topoOrder = .ok [0, 1, 2])
  have hkept : (fromComponents [soloTrial, pairTrial]).1.remaining = [1, 2] := by decide +kernel
  obtain ⟨hrestricts, -⟩ := @eliminateDeadCode_restricts _ Unit _ hacyclic
  exact ⟨hkept ▸ hrestricts, by decide +kernel⟩

end Blut.Framework
