/-
  Stage fusion (`dag_opt.rs`: `fusion_candidate`, `find_fused_subchains`; `executor.rs`:
  `full_linear_fusion_order`, `internal_linear_fusion_groups`).

  A chain of fusible nodes, each the only successor of the one before it and with no other
  predecessor, may run as one task. The executor cuts the chains where the admission request
  changes. What the coordinator relies on is `Grouped`: the groups are chains of two or more
  fusible nodes, and no node is in two of them (`grouped_internal`).
-/
import Mathlib.Data.List.SplitBy
import Blut.Framework.Plan

namespace Blut.Framework

open Blut.Lib

variable {V : Type}

def fusionCandidate (node : PlanNode) : Bool :=
  node.stage.deterministic
    && !node.stage.isAdvisory
    && node.stage.executionBoundary = .inProcess
    && node.stage.supportsInProcessHandoff

/-- Whether the node with this id may be fused. -/
def isCandidate (nodes : List PlanNode) (id : Nat) : Bool :=
  (nodes[id]?.map fusionCandidate).getD false

/-- The node continues the chain of its only predecessor. -/
def CompiledPlan.joinsPredecessor (plan : CompiledPlan V) (start : Nat) : Bool :=
  match predecessors plan.edges start with
  | [predecessor] =>
    (successors plan.edges predecessor).length = 1 && isCandidate plan.nodes predecessor
  | _ => false

/-- The members after `current`, following only successors. A chain has at most as many members
    as the plan has nodes. -/
def CompiledPlan.chainAfter (plan : CompiledPlan V) : Nat → Nat → List Nat
  | 0, _ => []
  | fuel + 1, current =>
    match successors plan.edges current with
    | [next] =>
      if (predecessors plan.edges next).length = 1 && isCandidate plan.nodes next then
        next :: plan.chainAfter fuel next
      else []
    | _ => []

/-- One round of the search: the chain that starts at this node, if one does. -/
def CompiledPlan.claimChain (plan : CompiledPlan V) (groups : List (List Nat)) (start : Nat) :
    List (List Nat) :=
  if groups.flatten.contains start || !isCandidate plan.nodes start ||
    plan.joinsPredecessor start then
    groups
  else
    let members := start :: plan.chainAfter plan.nodes.length start
    if members.length ≥ 2 then groups ++ [members] else groups

def CompiledPlan.findFusedSubchains (plan : CompiledPlan V) : List (List Nat) :=
  if plan.expansions.isEmpty && plan.conditionGates.isEmpty then
    match plan.topoOrder with
    | .ok order => order.foldl plan.claimChain []
    | .error _ => []
  else []

/-- The whole plan as one chain. -/
def CompiledPlan.fullLinearFusionOrder (plan : CompiledPlan V) : Option (List Nat) :=
  match plan.findFusedSubchains with
  | [members] =>
    if members.length = plan.nodes.length
        && (List.range plan.nodes.length).all (fun id =>
          (plan.initial id).isNone || some id = members.head?) then
      some members
    else none
  | _ => none

section Groups

variable {A Key : Type} [DecidableEq A] [DecidableEq Key]

/-- What the executor needs to know of the nodes it fuses: the admission request of a stage, and
    the part of the cache key that does not depend on the input. -/
structure FusionPolicy (A Key : Type) where
  requestFor : PlanNode → Option A
  staticId : PlanNode → Key

def FusionPolicy.request (policy : FusionPolicy A Key) (nodes : List PlanNode) (id : Nat) :
    Option A :=
  nodes[id]?.bind policy.requestFor

/-- Whether the identity of a member after the first also occurs outside the group. -/
def FusionPolicy.tailCanCollide (policy : FusionPolicy A Key) (nodes : List PlanNode)
    (group : List Nat) : Bool :=
  let staticIds := nodes.map policy.staticId
  let local_ := group.filterMap fun id => staticIds[id]?
  group.tail.any fun id =>
    match staticIds[id]? with
    | some identity => staticIds.count identity > local_.count identity
    | none => false

def FusionPolicy.accepts (policy : FusionPolicy A Key) (nodes : List PlanNode) (group : List Nat) :
    Bool :=
  group.length ≥ 2 && !policy.tailCanCollide nodes group
    && (group.head?.bind (policy.request nodes)).isSome

/-- `internal_linear_fusion_groups`: the maximal pieces of the chains with one admission request. -/
def CompiledPlan.internalLinearFusionGroups (plan : CompiledPlan V) (policy : FusionPolicy A Key) :
    List (List Nat) :=
  (plan.findFusedSubchains.flatMap fun candidate =>
    candidate.splitBy fun a b => policy.request plan.nodes a = policy.request plan.nodes b).filter
      (policy.accepts plan.nodes)

end Groups

/-! ## Links -/

variable {members order : List Nat}

/-- `b` follows `a` in a chain. -/
structure Linked (plan : CompiledPlan V) (a b : Nat) : Prop where
  succ : successors plan.edges a = [b]
  pred : predecessors plan.edges b = [a]
  left : isCandidate plan.nodes a = true
  right : isCandidate plan.nodes b = true

variable {plan : CompiledPlan V} {a b : Nat}

theorem Linked.edge (h : Linked plan a b) : ⟨a, b⟩ ∈ plan.edges := by
  rw [← mem_successors, h.succ]
  exact List.mem_singleton_self b

/-- A candidate is a node with a stage that has to succeed. -/
theorem candidate_node (h : isCandidate plan.nodes a = true) :
    ∃ node, plan.nodes[a]? = some node ∧ node.stage.isAdvisory = false := by
  unfold isCandidate at h
  cases hnode : plan.nodes[a]? with
  | none =>
    rw [hnode] at h
    cases h
  | some node =>
    rw [hnode] at h
    have hfusible : fusionCandidate node = true := h
    simp only [fusionCandidate, Bool.and_eq_true, Bool.not_eq_true'] at hfusible
    exact ⟨node, rfl, hfusible.1.1.2⟩

theorem Linked.joins (h : Linked plan a b) : plan.joinsPredecessor b = true := by
  unfold CompiledPlan.joinsPredecessor
  rw [h.pred]
  simp [h.succ, h.left]

theorem isChain_chainAfter (plan : CompiledPlan V) (fuel : Nat) {start : Nat}
    (hstart : isCandidate plan.nodes start = true) :
    (start :: plan.chainAfter fuel start).IsChain (Linked plan) := by
  induction fuel generalizing start with
  | zero => exact List.isChain_singleton start
  | succ fuel ih =>
    unfold CompiledPlan.chainAfter
    split
    · rename_i next hsucc
      split_ifs with hnext
      · obtain ⟨hlen, hcand⟩ := Bool.and_eq_true_iff.mp hnext
        obtain ⟨p, hp⟩ := List.length_eq_one_iff.mp (of_decide_eq_true hlen)
        have hedge : start ∈ predecessors plan.edges next := by
          rw [mem_predecessors, ← mem_successors, hsucc]
          exact List.mem_singleton_self next
        have hps : start = p := by simpa [hp] using hedge
        exact List.isChain_cons_cons.mpr ⟨⟨hsucc, hps ▸ hp, hstart, hcand⟩, ih hcand⟩
      · exact List.isChain_singleton start
    · exact List.isChain_singleton start

/-- Two chains that do not continue an earlier node and share a member start at one node. -/
theorem heads_eq_of_shared {x : Nat} (ha : plan.joinsPredecessor a = false)
    (hb : plan.joinsPredecessor b = false) (hax : Relation.ReflTransGen (Linked plan) a x)
    (hbx : Relation.ReflTransGen (Linked plan) b x) : a = b := by
  have hunique : Relator.RightUnique (Function.swap (Linked plan)) := by
    intro y p q hp hq
    have heq : [p] = [q] := hp.pred.symm.trans hq.pred
    exact List.singleton_injective heq
  -- nothing links into a node that does not join its predecessor
  have hstop : ∀ c d, plan.joinsPredecessor d = false →
      Relation.ReflTransGen (Linked plan) c d → c = d := by
    intro c d hd hpath
    rcases Relation.ReflTransGen.cases_tail hpath with heq | ⟨e, -, hed⟩
    · exact heq.symm
    · rw [hed.joins] at hd
      exact absurd hd (by simp)
  have htotal := Relation.ReflTransGen.total_of_right_unique hunique
    (Relation.reflTransGen_swap.mpr hax) (Relation.reflTransGen_swap.mpr hbx)
  rcases htotal with h | h
  · exact (hstop b a ha (Relation.reflTransGen_swap.mp h)).symm
  · exact hstop a b hb (Relation.reflTransGen_swap.mp h)

theorem reaches_of_mem_chain {x : Nat} {rest : List Nat}
    (hchain : (a :: rest).IsChain (Linked plan)) (hx : x ∈ a :: rest) :
    Relation.ReflTransGen (Linked plan) a x := by
  induction rest generalizing a with
  | nil =>
    rw [List.mem_singleton.mp hx]
  | cons b rest ih =>
    obtain ⟨hab, hrest⟩ := List.isChain_cons_cons.mp hchain
    rcases List.mem_cons.mp hx with rfl | hx
    · exact Relation.ReflTransGen.refl
    · exact Relation.ReflTransGen.head hab (ih hrest hx)

theorem candidate_of_chain (hchain : members.IsChain (Linked plan)) (hlong : 2 ≤ members.length)
    (hb : b ∈ members) : isCandidate plan.nodes b = true := by
  rcases members with _ | ⟨a, _ | ⟨c, rest⟩⟩
  · simp at hlong
  · simp at hlong
  · rcases Relation.ReflTransGen.cases_tail (reaches_of_mem_chain hchain hb) with rfl | ⟨p, -, hp⟩
    · exact (List.isChain_cons_cons.mp hchain).1.left
    · exact hp.right

theorem lt_of_chain (hchain : members.IsChain (Linked plan)) (hlong : 2 ≤ members.length)
    (hb : b ∈ members) : b < plan.nodes.length := by
  obtain ⟨node, hnode, -⟩ := candidate_node (candidate_of_chain hchain hlong hb)
  exact (List.getElem?_eq_some_iff.mp hnode).1

/-- A chain of an acyclic plan has no repetition. -/
theorem nodup_of_isChain (horder : Ordered plan.edges plan.conditionGates plan.nodes.length order)
    {rest : List Nat} (hchain : (a :: rest).IsChain (Linked plan)) : (a :: rest).Nodup := by
  induction rest generalizing a with
  | nil => exact List.nodup_singleton a
  | cons b rest ih =>
    obtain ⟨hab, hrest⟩ := List.isChain_cons_cons.mp hchain
    refine List.nodup_cons.mpr ⟨fun hmem => ?_, ih hrest⟩
    have hpath := Relation.TransGen.head' hab (reaches_of_mem_chain hrest hmem)
    have hle : Linked plan ≤ fun x y => (x, y) ∈ plan.arcs :=
      fun x y h => mem_arcsOf.mpr (Or.inl h.edge)
    have harc := Relation.TransGen.mono hle a a hpath
    refine acyclic_of_topological horder.nodup horder.topological (fun e he => ?_) a harc
    exact (horder.mem e.2).mpr (arcs_inRange plan he).2

/-! ## The chains are apart -/

/-- What the search keeps of the chains found so far. -/
structure Chains (plan : CompiledPlan V) (groups : List (List Nat)) : Prop where
  chain : ∀ g ∈ groups, g.IsChain (Linked plan)
  long : ∀ g ∈ groups, 2 ≤ g.length
  starts : ∀ g ∈ groups, ∀ a rest, g = a :: rest → plan.joinsPredecessor a = false
  apart : groups.flatten.Nodup

theorem Chains.claim (horder : Ordered plan.edges plan.conditionGates plan.nodes.length order)
    {groups : List (List Nat)} (h : Chains plan groups) (start : Nat) :
    Chains plan (plan.claimChain groups start) := by
  unfold CompiledPlan.claimChain
  dsimp only
  split_ifs with hskip hlong
  · exact h
  · obtain ⟨⟨hfresh, hcand⟩, hjoin⟩ : (start ∉ groups.flatten ∧
        isCandidate plan.nodes start = true) ∧ plan.joinsPredecessor start = false := by
      simpa [not_or, and_assoc] using hskip
    have hchain := isChain_chainAfter plan plan.nodes.length hcand
    have hnew : ∀ {P : List Nat → Prop}, (∀ g ∈ groups, P g) →
        P (start :: plan.chainAfter plan.nodes.length start) →
        ∀ g ∈ groups ++ [start :: plan.chainAfter plan.nodes.length start], P g := by
      intro P hold hlast g hg
      rcases List.mem_append.mp hg with hg | hg
      · exact hold g hg
      · rw [List.mem_singleton.mp hg]
        exact hlast
    refine ⟨hnew h.chain hchain, hnew h.long hlong, hnew h.starts ?_, ?_⟩
    · intro a rest heq
      rw [← (List.cons.inj heq).1]
      exact hjoin
    · rw [List.flatten_append, List.flatten_singleton, List.nodup_append]
      refine ⟨h.apart, nodup_of_isChain horder hchain, fun x hx y hy hxy => ?_⟩
      subst hxy
      obtain ⟨g, hg, hxg⟩ := List.mem_flatten.mp hx
      cases hcase : g with
      | nil =>
        rw [hcase] at hxg
        exact absurd hxg List.not_mem_nil
      | cons a rest =>
        rw [hcase] at hxg
        have hchainG := h.chain g hg
        rw [hcase] at hchainG
        have hsame := heads_eq_of_shared (h.starts g hg a rest hcase) hjoin
          (reaches_of_mem_chain hchainG hxg) (reaches_of_mem_chain hchain hy)
        refine hfresh (List.mem_flatten.mpr ⟨g, hg, ?_⟩)
        rw [hcase, hsame]
        exact List.mem_cons_self
  · exact h

theorem chains_findFusedSubchains (plan : CompiledPlan V) :
    Chains plan plan.findFusedSubchains := by
  have hnil : Chains plan [] := ⟨by simp, by simp, by simp, List.nodup_nil⟩
  unfold CompiledPlan.findFusedSubchains
  split_ifs
  · split
    · rename_i order hok
      have horder := topoOrder_eq_ok hok
      have hfold : ∀ (l : List Nat) (groups : List (List Nat)), Chains plan groups →
          Chains plan (l.foldl plan.claimChain groups) := by
        intro l
        induction l with
        | nil => exact fun _ h => h
        | cons start l ih => exact fun groups h => ih _ (h.claim horder start)
      exact hfold order [] hnil
    · exact hnil
  · exact hnil

/-! ## What the coordinator is given -/

/-- Groups of nodes that may each run as one task. -/
structure Grouped (plan : CompiledPlan V) (groups : List (List Nat)) : Prop where
  chain : ∀ g ∈ groups, g.IsChain (Linked plan)
  long : ∀ g ∈ groups, 2 ≤ g.length
  apart : groups.flatten.Nodup
  plain : groups ≠ [] → plan.expansions = [] ∧ plan.conditionGates = []

theorem grouped_nil (plan : CompiledPlan V) : Grouped plan [] :=
  ⟨by simp, by simp, List.nodup_nil, fun h => absurd rfl h⟩

theorem findFusedSubchains_plain (h : plan.findFusedSubchains ≠ []) :
    plan.expansions = [] ∧ plan.conditionGates = [] := by
  unfold CompiledPlan.findFusedSubchains at h
  split_ifs at h with hplain
  · simpa using hplain
  · exact absurd rfl h

theorem grouped_internal {A Key : Type} [DecidableEq A] [DecidableEq Key] (plan : CompiledPlan V)
    (policy : FusionPolicy A Key) : Grouped plan (plan.internalLinearFusionGroups policy) := by
  have hchains := chains_findFusedSubchains plan
  have hpiece : ∀ g ∈ plan.internalLinearFusionGroups policy,
      policy.accepts plan.nodes g = true ∧ ∃ c ∈ plan.findFusedSubchains,
        g ∈ c.splitBy fun a b =>
          decide (policy.request plan.nodes a = policy.request plan.nodes b) := by
    intro g hg
    unfold CompiledPlan.internalLinearFusionGroups at hg
    obtain ⟨hmem, haccept⟩ := List.mem_filter.mp hg
    obtain ⟨c, hc, hgc⟩ := List.mem_flatMap.mp hmem
    exact ⟨haccept, c, hc, hgc⟩
  refine ⟨fun g hg => ?_, fun g hg => ?_, ?_, fun hne => ?_⟩
  · obtain ⟨-, c, hc, hgc⟩ := hpiece g hg
    refine List.IsChain.infix (hchains.chain c hc) ?_
    have hpart := List.infix_of_mem_flatten hgc
    rwa [List.flatten_splitBy] at hpart
  · obtain ⟨haccept, -⟩ := hpiece g hg
    unfold FusionPolicy.accepts at haccept
    simp only [Bool.and_eq_true, decide_eq_true_eq] at haccept
    exact haccept.1.1
  · -- the pieces put together again are the chains
    unfold CompiledPlan.internalLinearFusionGroups
    refine List.Nodup.sublist (List.Sublist.flatten List.filter_sublist) ?_
    rw [List.flatMap_def, List.flatten_flatten, List.map_map]
    have hid : (List.flatten ∘ fun candidate : List Nat => candidate.splitBy fun a b =>
        decide (policy.request plan.nodes a = policy.request plan.nodes b)) = id := by
      funext c
      exact List.flatten_splitBy _ c
    rw [hid, List.map_id]
    exact hchains.apart
  · refine findFusedSubchains_plain fun hnil => hne ?_
    unfold CompiledPlan.internalLinearFusionGroups
    rw [hnil]
    rfl

end Blut.Framework
