/-
  The chains that `find_fused_subchains` records are the maximal ones.

  The scan follows a chain from its head to its end (`chainAfter_stops`) and meets every head in
  the topological order (`claimed_of_fold`), so each link lies in one recorded chain
  (`findFusedSubchains_maximal`).
-/
import Blut.Framework.DeadCode
import Blut.Framework.SingleFlight

namespace Blut.Framework

open Blut.Lib

variable {V : Type} {plan : CompiledPlan V} {a b start : Nat} {groups : List (List Nat)}

/-- Nothing is linked after the last member of a chain that the fuel did not cut. -/
theorem chainAfter_stops {fuel : Nat} (hfuel : (plan.chainAfter fuel start).length < fuel) :
    ∀ last ∈ (start :: plan.chainAfter fuel start).getLast?, ∀ next, ¬ Linked plan last next := by
  induction fuel generalizing start with
  | zero => exact absurd hfuel (Nat.not_lt_zero _)
  | succ fuel ih =>
    unfold CompiledPlan.chainAfter at hfuel ⊢
    split at hfuel
    · rename_i next hsucc
      split_ifs at hfuel ⊢ with hnext
      · rw [List.getLast?_cons_cons]
        exact ih (Nat.lt_of_succ_lt_succ hfuel)
      · rintro _ ⟨⟩ c hc
        obtain rfl : next = c := List.singleton_injective (hsucc.symm.trans hc.succ)
        exact hnext (by simp [hc.pred, hc.right])
    · rename_i hsucc
      rintro _ ⟨⟩ c hc
      exact hsucc c hc.succ

/-- The node that a member joins is linked to it. -/
theorem linked_of_joins (hjoin : plan.joinsPredecessor b = true)
    (hcand : isCandidate plan.nodes b = true) : ∃ a, Linked plan a b := by
  unfold CompiledPlan.joinsPredecessor at hjoin
  split at hjoin
  · rename_i p hpred
    obtain ⟨hlen, hleft⟩ := Bool.and_eq_true_iff.mp hjoin
    obtain ⟨c, hc⟩ := List.length_eq_one_iff.mp (of_decide_eq_true hlen)
    have hmem : b ∈ successors plan.edges p := by
      rw [mem_successors, ← mem_predecessors, hpred]
      exact List.mem_singleton_self p
    obtain rfl : b = c := by simpa [hc] using hmem
    exact ⟨p, hc, hpred, hleft, hcand⟩
  · exact absurd hjoin (by simp)

/-- A linked node is reached from the head of its chain. -/
theorem exists_head (hacyclic : plan.Acyclic) (hlink : Linked plan a b) :
    ∃ head next, Relation.ReflTransGen (Linked plan) head a ∧ Linked plan head next
      ∧ plan.joinsPredecessor head = false := by
  induction a using hacyclic.induction generalizing b with
  | _ a ih =>
    cases hjoin : plan.joinsPredecessor a with
    | false => exact ⟨a, b, .refl, hlink, hjoin⟩
    | true =>
      obtain ⟨p, hp⟩ := linked_of_joins hjoin hlink.left
      obtain ⟨head, next, hpath, hrest⟩ := ih p (mem_arcsOf.mpr (Or.inl hp.edge)) hp
      exact ⟨head, next, hpath.tail hp, hrest⟩

/-- A link that follows from the head of a chain that ends where nothing is linked is in it. -/
theorem infix_of_reaches {head : Nat} {rest : List Nat}
    (hchain : (head :: rest).IsChain (Linked plan))
    (hstop : ∀ last ∈ (head :: rest).getLast?, ∀ next, ¬ Linked plan last next)
    (hpath : Relation.ReflTransGen (Linked plan) head a) (hlink : Linked plan a b) :
    [a, b] <:+: head :: rest := by
  have hnext : ∀ {c d}, Linked plan head c → Linked plan head d → c = d := fun hc hd =>
    List.singleton_injective (hc.succ.symm.trans hd.succ)
  induction rest generalizing head with
  | nil =>
    rcases Relation.ReflTransGen.cases_head hpath with rfl | ⟨c, hc, -⟩
    · exact absurd hlink (hstop _ rfl b)
    · exact absurd hc (hstop _ rfl c)
  | cons c rest ih =>
    obtain ⟨hhead, hrest⟩ := List.isChain_cons_cons.mp hchain
    rcases Relation.ReflTransGen.cases_head hpath with rfl | ⟨d, hd, hpath⟩
    · rw [hnext hlink hhead]
      exact (List.prefix_append [_, c] rest).isInfix
    · rw [hnext hd hhead] at hpath
      rw [List.getLast?_cons_cons] at hstop
      exact (ih hrest hstop hpath fun hc hd =>
        List.singleton_injective (hc.succ.symm.trans hd.succ)).trans (List.suffix_cons _ _).isInfix

/-! ## The scan -/

theorem claimChain_cases (plan : CompiledPlan V) (groups : List (List Nat)) (start : Nat) :
    (plan.claimChain groups start = groups ∧ (start ∈ groups.flatten ∨
        isCandidate plan.nodes start = false ∨ plan.joinsPredecessor start = true ∨
        plan.chainAfter plan.nodes.length start = [])) ∨
      plan.claimChain groups start = groups ++
        [start :: plan.chainAfter plan.nodes.length start] := by
  unfold CompiledPlan.claimChain
  dsimp only
  split_ifs with hskip hlong
  · simp only [Bool.or_eq_true, List.contains_iff_mem, Bool.not_eq_true'] at hskip
    exact Or.inl ⟨rfl, by tauto⟩
  · exact Or.inr rfl
  · refine Or.inl ⟨rfl, Or.inr (Or.inr (Or.inr (List.eq_nil_of_length_eq_zero ?_)))⟩
    rw [List.length_cons] at hlong
    omega

/-- A head has a node after it. -/
theorem chainAfter_ne_nil (hlink : Linked plan a b) : plan.chainAfter plan.nodes.length a ≠ [] := by
  obtain ⟨n, hn⟩ := Nat.exists_eq_succ_of_ne_zero (Nat.ne_zero_of_lt
    (arcs_inRange plan (mem_arcsOf.mpr (Or.inl hlink.edge))).2)
  rw [hn]
  simp [CompiledPlan.chainAfter, hlink.succ, hlink.pred, hlink.right]

/-- What the scan has found: chains followed as far as the fuel goes, and every head passed. -/
theorem claimed_of_fold (l : List Nat)
    (hgrown : ∀ g ∈ groups, ∃ start, g = start :: plan.chainAfter plan.nodes.length start) :
    (∀ g ∈ l.foldl plan.claimChain groups, ∃ start,
        g = start :: plan.chainAfter plan.nodes.length start)
      ∧ groups.flatten ⊆ (l.foldl plan.claimChain groups).flatten
      ∧ ∀ head ∈ l, ∀ next, Linked plan head next → plan.joinsPredecessor head = false →
        head ∈ (l.foldl plan.claimChain groups).flatten := by
  induction l generalizing groups with
  | nil => exact ⟨hgrown, List.Subset.refl _, by simp⟩
  | cons start l ih =>
    rw [List.foldl_cons]
    rcases claimChain_cases plan groups start with ⟨heq, hwhy⟩ | heq
    · rw [heq]
      obtain ⟨hall, hsub, hheads⟩ := ih hgrown
      refine ⟨hall, hsub, List.forall_mem_cons.mpr ⟨fun next hlink hjoin => hsub ?_, hheads⟩⟩
      have hne := chainAfter_ne_nil hlink
      simpa [hlink.left, hjoin, hne] using hwhy
    · rw [heq]
      obtain ⟨hall, hsub, hheads⟩ := ih
        (List.forall_mem_append.mpr ⟨hgrown, List.forall_mem_singleton.mpr ⟨start, rfl⟩⟩)
      refine ⟨hall, fun x hx => hsub (by simp [hx]),
        List.forall_mem_cons.mpr ⟨fun _ _ _ => ?_, hheads⟩⟩
      exact hsub (by simp)

/-- The recorded groups are exactly the maximal chains: apart, of two or more linked nodes, with
    no link into the first or out of the last, and every link is in one of them. -/
theorem findFusedSubchains_maximal (hacyclic : plan.Acyclic) (hexpansions : plan.expansions = [])
    (hgates : plan.conditionGates = []) :
    plan.findFusedSubchains.flatten.Nodup
      ∧ (∀ g ∈ plan.findFusedSubchains, 2 ≤ g.length ∧ g.IsChain (Linked plan)
        ∧ (∀ first ∈ g.head?, ∀ before, ¬ Linked plan before first)
        ∧ ∀ last ∈ g.getLast?, ∀ next, ¬ Linked plan last next)
      ∧ ∀ a b, Linked plan a b → ∃! g, g ∈ plan.findFusedSubchains ∧ [a, b] <:+: g := by
  have hchains := chains_findFusedSubchains plan
  have hrange : ∀ {a b}, Linked plan a b → a < plan.nodes.length ∧ b < plan.nodes.length :=
    fun hlink => arcs_inRange plan (mem_arcsOf.mpr (Or.inl hlink.edge))
  obtain ⟨hgrown, hheads⟩ : (∀ g ∈ plan.findFusedSubchains, ∃ start,
        g = start :: plan.chainAfter plan.nodes.length start)
      ∧ ∀ head next, Linked plan head next → plan.joinsPredecessor head = false →
        head ∈ plan.findFusedSubchains.flatten := by
    unfold CompiledPlan.findFusedSubchains
    rw [hexpansions, hgates]
    cases hok : plan.topoOrder with
    | error fault =>
      refine ⟨by simp, fun head next hlink => ?_⟩
      obtain ⟨order, horder⟩ := CompiledPlan.Acyclic.topoOrder hacyclic (hrange hlink).1
      rw [hok] at horder
      cases horder
    | ok order =>
      have hscan : (∀ g ∈ order.foldl plan.claimChain [], _) ∧ _ := claimed_of_fold order (by simp)
      exact ⟨hscan.1, fun head next hlink =>
        hscan.2.2 head (((topoOrder_eq_ok hok).mem head).mpr (hrange hlink).1) next hlink⟩
  have hstop : ∀ g ∈ plan.findFusedSubchains, ∀ last ∈ g.getLast?,
      ∀ next, ¬ Linked plan last next := by
    intro g hg
    have hchain := hchains.chain g hg
    have hlong := hchains.long g hg
    have hnd := (List.nodup_flatten.mp hchains.apart).1 g hg
    obtain ⟨start, rfl⟩ := hgrown g hg
    -- the members are distinct nodes, so the fuel is enough
    have hsub : start :: plan.chainAfter plan.nodes.length start ⊆ List.range plan.nodes.length :=
      fun x hx => List.mem_range.mpr (lt_of_chain hchain hlong hx)
    have hle := (List.subperm_of_subset hnd hsub).length_le
    rw [List.length_range, List.length_cons] at hle
    exact chainAfter_stops hle
  refine ⟨hchains.apart, fun g hg => ⟨hchains.long g hg, hchains.chain g hg, ?_, hstop g hg⟩, ?_⟩
  · intro first hfirst before hlink
    obtain ⟨rest, rfl⟩ : ∃ rest, g = first :: rest := List.head?_eq_some_iff.mp hfirst
    exact absurd hlink.joins (by simp [hchains.starts _ hg first rest rfl])
  · intro a b hlink
    obtain ⟨head, next, hpath, hnext, hjoin⟩ := exists_head hacyclic hlink
    obtain ⟨g, hg, hhead⟩ := List.mem_flatten.mp (hheads head next hnext hjoin)
    have hstart : ∀ g ∈ plan.findFusedSubchains, ∀ x ∈ g,
        Relation.ReflTransGen (Linked plan) head x →
        g = head :: plan.chainAfter plan.nodes.length head := by
      intro g hg x hx hreach
      have hchain := hchains.chain g hg
      obtain ⟨start, rfl⟩ := hgrown g hg
      rw [heads_eq_of_shared (hchains.starts _ hg start _ rfl) hjoin
        (reaches_of_mem_chain hchain hx) hreach]
    obtain rfl := hstart g hg head hhead .refl
    refine ⟨_, ⟨hg, infix_of_reaches (hchains.chain _ hg) (hstop _ hg) hpath hlink⟩, ?_⟩
    rintro g' ⟨hg', hpart⟩
    exact hstart g' hg' a (hpart.subset (by simp)) hpath

theorem findFusedSubchains_maximal_chain :
    Linked fusedPlan 0 1 ∧ ∃! g, g ∈ fusedPlan.findFusedSubchains ∧ [0, 1] <:+: g := by
  have hlink : Linked fusedPlan 0 1 := ⟨rfl, rfl, rfl, rfl⟩
  have hacyclic := CompiledPlan.acyclic_of_topoOrder fusedSetup.ordered
  exact ⟨hlink, (findFusedSubchains_maximal hacyclic rfl rfl).2.2 0 1 hlink⟩

end Blut.Framework
