/-
  Kahn's algorithm: repeatedly take a node no unvisited node points to.

  The algorithm is stated for any worklist discipline (a stack, a queue, an ordered set), as a
  computation that panics when a degree would become negative and when its fuel runs out.
  `kahn_spec` says that it does neither: it returns the visited nodes in an order in which
  every edge goes forward. When it visited every node, the edges have no cycle
  (`acyclic_of_topological`).
-/
import Blut.Lib.BTreeMap

namespace Blut.Lib

variable {κ : Type} [LinearOrder κ] {ε : Type}

/-- How the nodes that are ready wait for their turn. -/
structure Worklist (κ : Type) where
  push : List κ → κ → List κ
  pop : List κ → Option (κ × List κ)
  pop_none : ∀ ready, pop ready = none → ready = []
  pop_perm : ∀ ready node rest, pop ready = some (node, rest) → ready.Perm (node :: rest)
  push_perm : ∀ ready node, node ∉ ready → (push ready node).Perm (node :: ready)

/-- `Vec::push` and `Vec::pop`. -/
def Worklist.stack : Worklist κ where
  push ready node := ready ++ [node]
  pop ready := ready.getLast?.map fun node => (node, ready.dropLast)
  pop_none ready h := by simpa using h
  pop_perm ready node rest h := by
    obtain ⟨last, hlast, hpair⟩ := Option.map_eq_some_iff.mp h
    obtain ⟨rfl, rfl⟩ := Prod.mk.inj hpair
    have hsplit := List.dropLast_append_getLast? last hlast
    have hperm : (ready.dropLast ++ [last]).Perm (last :: ready.dropLast) :=
      List.perm_append_singleton last ready.dropLast
    rwa [hsplit] at hperm
  push_perm ready node _ := List.perm_append_singleton node ready

omit [LinearOrder κ] in
theorem eq_cons_of_pop {ready rest : List κ} {node : κ}
    (h : (ready.head?.map fun node => (node, ready.tail)) = some (node, rest)) :
    ready = node :: rest := by
  cases ready with
  | nil => cases h
  | cons head tail =>
    cases h
    rfl

/-- `VecDeque::push_back` and `VecDeque::pop_front`. -/
def Worklist.queue : Worklist κ where
  push ready node := ready ++ [node]
  pop ready := ready.head?.map fun node => (node, ready.tail)
  pop_none ready h := by simpa using h
  pop_perm ready node rest h := eq_cons_of_pop h ▸ List.Perm.refl _
  push_perm ready node _ := List.perm_append_singleton node ready

/-- `BTreeSet::insert` and `BTreeSet::pop_first`. -/
def Worklist.orderedSet : Worklist κ where
  push ready node := if node ∈ ready then ready else ready.orderedInsert (· ≤ ·) node
  pop ready := ready.head?.map fun node => (node, ready.tail)
  pop_none ready h := by simpa using h
  pop_perm ready node rest h := eq_cons_of_pop h ▸ List.Perm.refl _
  push_perm ready node hnot := by
    rw [if_neg hnot]
    exact List.perm_orderedInsert _ node ready

/-! ## The algorithm -/

structure KahnState (κ : Type) [LinearOrder κ] where
  degree : BTreeMap κ Nat
  ready : List κ

/-- One outgoing edge of the visited node: the target's degree drops, and at zero it is
    ready. `missing` is what happens when the target has no degree. -/
def releaseTarget (worklist : Worklist κ) (missing : Fault ε) (state : KahnState κ) (target : κ) :
    Outcome ε (KahnState κ) :=
  match state.degree.get? target with
  | none => .error missing
  | some 0 => .error .panic
  | some (degree + 1) => .ok {
      degree := state.degree.insert target degree
      ready := if degree = 0 then worklist.push state.ready target else state.ready }

/-- The loop: `order` collects the visited nodes. -/
def kahnLoop (worklist : Worklist κ) (missing : Fault ε) (outgoing : κ → List κ) :
    Nat → KahnState κ → List κ → Outcome ε (List κ)
  | fuel, state, order =>
    match worklist.pop state.ready with
    | none => .ok order
    | some (node, rest) =>
      match fuel with
      | 0 => .error .panic
      | fuel + 1 => do
        let state ← (outgoing node).foldlM (releaseTarget worklist missing)
          { state with ready := rest }
        kahnLoop worklist missing outgoing fuel state (order ++ [node])

/-- `*degree += 1` for the target of an edge. -/
def bumpDegree (missing : Fault ε) (degree : BTreeMap κ Nat) (target : κ) :
    Outcome ε (BTreeMap κ Nat) :=
  match degree.get? target with
  | none => .error missing
  | some count => .ok (degree.insert target (count + 1))

/-- The nodes of degree zero, in ascending order. -/
def readyNodes (degree : BTreeMap κ Nat) : List κ :=
  (degree.entries.filter fun entry => entry.2 = 0).map Prod.fst

/-! ## Orders in which every edge goes forward -/

variable {n node : κ}

/-- Every edge into a node of the order starts at an earlier one. -/
def Topological (edges : List (κ × κ)) (order : List κ) : Prop :=
  ∀ before node after, order = before ++ node :: after →
    ∀ src, (src, node) ∈ edges → src ∈ before

variable {edges : List (κ × κ)} {order nodes : List κ} {state : KahnState κ}

omit [LinearOrder κ] in
/-- An entry of a longer order is the new last one or an entry of the old order. -/
theorem concat_eq_split {before after : List κ} (h : order ++ [node] = before ++ n :: after) :
    before = order ∧ n = node ∨ ∃ rest, order = before ++ n :: rest := by
  rcases List.append_eq_append_iff.mp h with ⟨mid, hbefore, hmid⟩ | ⟨mid, horder, hmid⟩
  · cases mid with
    | nil => exact .inl ⟨by simpa using hbefore, by simpa using (List.cons.inj hmid).1.symm⟩
    | cons m mid =>
      have hlen := congrArg List.length hmid
      simp at hlen
  · cases mid with
    | nil => exact .inl ⟨by simpa using horder.symm, by simpa using (List.cons.inj hmid).1⟩
    | cons m mid =>
      obtain ⟨rfl, -⟩ := List.cons.inj hmid
      exact .inr ⟨mid, horder⟩

omit [LinearOrder κ] in
theorem Topological.append (h : Topological edges order)
    (hnode : ∀ src, (src, node) ∈ edges → src ∈ order) : Topological edges (order ++ [node]) := by
  intro before n after hsplit src hsrc
  rcases concat_eq_split hsplit with ⟨rfl, rfl⟩ | ⟨rest, hrest⟩
  · exact hnode src hsrc
  · exact h before n rest hrest src hsrc

omit [LinearOrder κ] in
/-- Two orders one after the other, when no edge goes back from the second to the first. -/
theorem Topological.append_list {first second : List (κ × κ)} {order' : List κ}
    (h : Topological first order) (h' : Topological second order')
    (hfirst : ∀ src node, node ∈ order → (src, node) ∈ edges → (src, node) ∈ first)
    (hsecond : ∀ src node, node ∈ order' → (src, node) ∈ edges → (src, node) ∈ second) :
    Topological edges (order ++ order') := by
  intro before node after hsplit src hsrc
  rcases List.append_eq_append_iff.mp hsplit with ⟨mid, hbefore, hmid⟩ | ⟨mid, horder, hmid⟩
  · have hnode : node ∈ order' := by
      rw [hmid]
      simp
    have hmem := h' mid node after hmid src (hsecond src node hnode hsrc)
    rw [hbefore]
    exact List.mem_append_right _ hmem
  · cases mid with
    | nil =>
      have hnode : node ∈ order' := by
        rw [List.nil_append] at hmid
        rw [← hmid]
        exact List.mem_cons_self
      have hmem := h' [] node after hmid.symm src (hsecond src node hnode hsrc)
      exact absurd hmem List.not_mem_nil
    | cons m mid =>
      obtain ⟨rfl, -⟩ := List.cons.inj hmid
      have hnode : node ∈ order := by
        rw [horder]
        simp
      exact h before node mid horder src (hfirst src node hnode hsrc)

omit [LinearOrder κ] in
/-- An order under an injective renaming. -/
theorem Topological.map {κ' : Type} {edges' : List (κ' × κ')} (f : κ → κ')
    (h : Topological edges order)
    (hedges : ∀ src node, (src, f node) ∈ edges' → ∃ src', src = f src' ∧ (src', node) ∈ edges) :
    Topological edges' (order.map f) := by
  intro before node after hsplit src hsrc
  obtain ⟨before', rest, horder, hbefore, hrest⟩ := List.map_eq_append_iff.mp hsplit
  obtain ⟨node', after', hcons, hnode, -⟩ := List.map_eq_cons_iff.mp hrest
  rw [← hnode] at hsrc
  obtain ⟨src', rfl, hedge⟩ := hedges src node' hsrc
  have hmem := h before' node' after' (by rw [horder, hcons]) src' hedge
  rw [← hbefore]
  exact List.mem_map_of_mem hmem

section

variable (hnd : order.Nodup) (htop : Topological edges order)
include hnd htop

/-- The source of an edge has a smaller position than its target. -/
theorem Topological.idxOf_lt {a b : κ} (hab : (a, b) ∈ edges) (hb : b ∈ order) :
    order.idxOf a < order.idxOf b := by
  obtain ⟨before, after, hsplit⟩ := List.append_of_mem hb
  have ha := htop before b after hsplit a hab
  have hb : b ∉ before := by
    intro hb
    rw [hsplit, List.nodup_append] at hnd
    exact hnd.2.2 b hb b List.mem_cons_self rfl
  have hia : order.idxOf a = before.idxOf a := by rw [hsplit, List.idxOf_append_of_mem ha]
  have hib : order.idxOf b = before.length := by
    rw [hsplit, List.idxOf_append_of_notMem hb]
    simp
  have hlt := List.idxOf_lt_length_of_mem ha
  omega

/-- No edge leaves the last node of an order. -/
theorem Topological.last_sink {last b : κ} (hlast : order.getLast? = some last) (hb : b ∈ order) :
    (last, b) ∉ edges := by
  intro hedge
  have hlt := htop.idxOf_lt hnd hedge hb
  have hsplit := List.dropLast_append_getLast? last hlast
  have hnot : last ∉ order.dropLast := by
    rw [← hsplit] at hnd
    exact fun hmem => (List.nodup_append.mp hnd).2.2 last hmem last (List.mem_singleton_self _) rfl
  have hidx : order.idxOf last = order.dropLast.length := by
    conv_lhs => rw [← hsplit]
    rw [List.idxOf_append_of_notMem hnot, List.idxOf_cons_self, Nat.add_zero]
  have hbound := List.idxOf_lt_length_iff.mpr hb
  rw [List.length_dropLast] at hidx
  omega

/-- A graph that is one chain has one order. -/
theorem Topological.eq_of_chain {members : List κ} (hperm : members.Perm order)
    (hchain : members.IsChain fun a b => (a, b) ∈ edges) : members = order := by
  let before : κ → κ → Prop := fun a b => order.idxOf a < order.idxOf b
  have hmembers : members.Pairwise before := by
    have htrans : IsTrans κ before := ⟨fun _ _ _ hab hbc => lt_trans hab hbc⟩
    refine List.isChain_iff_pairwise.mp (hchain.imp_of_mem_imp fun a b _ hb hab => ?_)
    exact htop.idxOf_lt hnd hab (hperm.mem_iff.mp hb)
  have horder : order.Pairwise before := by
    rw [List.pairwise_iff_getElem]
    intro i j hi hj hij
    show order.idxOf order[i] < order.idxOf order[j]
    rwa [hnd.idxOf_getElem, hnd.idxOf_getElem]
  exact hperm.eq_of_pairwise (fun a b _ _ hab hba => absurd hab (lt_asymm hba)) hmembers horder

/-- Edges that all go forward in an order are well-founded. -/
theorem wellFounded_of_topological (hmem : ∀ e ∈ edges, e.2 ∈ order) :
    WellFounded fun a b => (a, b) ∈ edges :=
  Subrelation.wf (fun {a b} hab => htop.idxOf_lt hnd hab (hmem (a, b) hab))
    (measure order.idxOf).wf

/-- Edges that all go forward in an order without repetition have no cycle. -/
theorem acyclic_of_topological (hmem : ∀ e ∈ edges, e.2 ∈ order) (node : κ) :
    ¬ Relation.TransGen (fun a b => (a, b) ∈ edges) node node :=
  fun h => (wellFounded_of_topological hnd htop hmem).transGen.irrefl.irrefl node h

end

/-- A well-founded relation stays so when a new element is put on top. -/
theorem wellFounded_of_fresh {α : Type} {below below' : α → α → Prop} (new : α)
    (h : WellFounded below)
    (hold : ∀ y x, x ≠ new → below' y x → below y x ∧ y ≠ new)
    (hnew : ∀ y, below' y new → y ≠ new) : WellFounded below' := by
  have hacc : ∀ x, x ≠ new → Acc below' x := by
    intro x
    induction x using h.induction with
    | h x ih =>
      intro hx
      refine Acc.intro x fun y hy => ?_
      obtain ⟨hyx, hy'⟩ := hold y x hx hy
      exact ih y hyx hy'
  refine ⟨fun x => ?_⟩
  by_cases hx : x = new
  · rw [hx]
    exact Acc.intro new fun y hy => hacc y (hnew y hy)
  · exact hacc x hx

/-! ## What the loop keeps -/

variable {rest targets pending : List κ} {missing : Fault ε} {outgoing : κ → List κ}

/-- How many edges into `node` start at an unvisited node. -/
def unvisitedInto (edges : List (κ × κ)) (order : List κ) (node : κ) : Nat :=
  edges.countP fun e => decide (e.2 = node ∧ e.1 ∉ order)

theorem unvisitedInto_visit (edges : List (κ × κ)) (hnode : node ∉ order) (v : κ) :
    unvisitedInto edges order v =
      unvisitedInto edges (order ++ [node]) v +
        ((edges.filter fun e => e.1 = node).map Prod.snd).count v := by
  unfold unvisitedInto
  induction edges with
  | nil => rfl
  | cons e edges ih =>
    by_cases hv : e.2 = v <;> by_cases hs : e.1 = node
    · have hno : e.1 ∉ order := hs ▸ hnode
      simp only [List.countP_cons, List.filter_cons, hv, hs, hnode, ih]
      simp [hv]
      omega
    · simp only [List.countP_cons, List.filter_cons, hv, hs, ih]
      by_cases ho : e.1 ∈ order <;> simp [ho, hs]
      omega
    · simp only [List.countP_cons, List.filter_cons, hv, hs, ih]
      simp [hv]
    · simp only [List.countP_cons, List.filter_cons, hv, hs, ih]
      simp

/-- The loop invariant. `pending` holds the targets of the node visited last whose degree
    has not been lowered yet. -/
structure KahnInv (nodes : List κ) (edges : List (κ × κ)) (order pending : List κ)
    (state : KahnState κ) : Prop where
  order_nodup : order.Nodup
  order_mem : ∀ v ∈ order, v ∈ nodes
  ready_nodup : state.ready.Nodup
  degree : ∀ v, state.degree.get? v =
    if v ∈ nodes then some (unvisitedInto edges order v + pending.count v) else none
  ready : ∀ v, v ∈ state.ready ↔ v ∉ order ∧ state.degree.get? v = some 0
  visited : ∀ v ∈ order, state.degree.get? v = some 0
  topological : Topological edges order

theorem KahnInv.release {t : κ} (worklist : Worklist κ) (missing : Fault ε)
    (h : KahnInv nodes edges order (t :: pending) state) (ht : t ∈ nodes) :
    ∃ state', releaseTarget worklist missing state t = .ok state' ∧
      KahnInv nodes edges order pending state' := by
  obtain ⟨left, hleft⟩ : ∃ left, left = unvisitedInto edges order t + pending.count t := ⟨_, rfl⟩
  have hdeg : state.degree.get? t = some (left + 1) := by
    rw [h.degree t, if_pos ht, List.count_cons_self, hleft]
    rfl
  have hnotZero : state.degree.get? t ≠ some 0 := by
    rw [hdeg]
    simp
  have hready : t ∉ state.ready := fun hmem => hnotZero ((h.ready t).mp hmem).2
  have horder : t ∉ order := fun hmem => hnotZero (h.visited t hmem)
  unfold releaseTarget
  rw [hdeg]
  refine ⟨_, rfl, h.order_nodup, h.order_mem, ?_, ?_, ?_, ?_, h.topological⟩
  · dsimp only
    split_ifs
    · exact ((worklist.push_perm _ t hready).nodup_iff).mpr
        (List.nodup_cons.mpr ⟨hready, h.ready_nodup⟩)
    · exact h.ready_nodup
  · intro v
    dsimp only
    rw [BTreeMap.get?_insert]
    by_cases hv : v = t
    · subst hv
      rw [if_pos rfl, if_pos ht, hleft]
    · rw [if_neg hv, h.degree v, List.count_cons_of_ne (Ne.symm hv)]
  · intro v
    dsimp only
    rw [BTreeMap.get?_insert]
    by_cases hv : v = t
    · subst hv
      rw [if_pos rfl]
      split_ifs with hz
      · rw [(worklist.push_perm _ v hready).mem_iff]
        simp [horder, hz]
      · simp [hready, hz]
    · rw [if_neg hv]
      split_ifs with hz
      · rw [(worklist.push_perm _ t hready).mem_iff, List.mem_cons, h.ready v]
        simp [hv]
      · exact h.ready v
  · intro v hv
    dsimp only
    have hvt : v ≠ t := fun e => horder (e ▸ hv)
    rw [BTreeMap.get?_insert_ne _ _ hvt]
    exact h.visited v hv

theorem KahnInv.releaseAll (worklist : Worklist κ) (missing : Fault ε)
    (h : KahnInv nodes edges order pending state) (hp : ∀ t ∈ pending, t ∈ nodes) :
    ∃ state', pending.foldlM (releaseTarget worklist missing) state = .ok state' ∧
      KahnInv nodes edges order [] state' := by
  induction pending generalizing state with
  | nil => exact ⟨state, rfl, h⟩
  | cons t pending ih =>
    obtain ⟨mid, hstep, hmid⟩ := h.release worklist missing (hp t List.mem_cons_self)
    obtain ⟨state', hrest, hinv⟩ := ih hmid fun u hu => hp u (List.mem_cons_of_mem _ hu)
    exact ⟨state', foldlM_cons_ok.mpr ⟨mid, hstep, hrest⟩, hinv⟩

/-- Taking a ready node: its targets become pending. -/
theorem KahnInv.visit (h : KahnInv nodes edges order [] state) (hpop : state.ready.Perm (n :: rest))
    (htargets : targets.Perm ((edges.filter fun e => e.1 = n).map Prod.snd)) :
    KahnInv nodes edges (order ++ [n]) targets { state with ready := rest } := by
  have hn : n ∈ state.ready := hpop.mem_iff.mpr List.mem_cons_self
  obtain ⟨hnorder, hnzero⟩ := (h.ready n).mp hn
  have hnnodes : n ∈ nodes := by
    by_contra hnot
    rw [h.degree n, if_neg hnot] at hnzero
    exact absurd hnzero (by simp)
  have hrest : (n :: rest).Nodup := hpop.nodup_iff.mp h.ready_nodup
  have hsources : ∀ src, (src, n) ∈ edges → src ∈ order := by
    intro src hsrc
    rw [h.degree n, if_pos hnnodes] at hnzero
    have hcount : unvisitedInto edges order n = 0 := by simpa using hnzero
    have hnone := List.countP_eq_zero.mp hcount (src, n) hsrc
    by_contra hnot
    exact hnone (by simp [hnot])
  refine ⟨?_, ?_, (List.nodup_cons.mp hrest).2, ?_, ?_, ?_, h.topological.append hsources⟩
  · simpa using h.order_nodup.concat hnorder
  · exact List.forall_mem_append.mpr ⟨h.order_mem, List.forall_mem_singleton.mpr hnnodes⟩
  · intro v
    rw [h.degree v, htargets.count_eq, ← unvisitedInto_visit edges hnorder v]
    rfl
  · intro v
    have hv := h.ready v
    rw [hpop.mem_iff, List.mem_cons] at hv
    have hnrest : n ∉ rest := (List.nodup_cons.mp hrest).1
    by_cases hvn : v = n
    · subst hvn
      simp [hnrest]
    · rw [List.mem_append, List.mem_singleton]
      simpa [hvn] using hv
  · exact List.forall_mem_append.mpr ⟨h.visited, List.forall_mem_singleton.mpr hnzero⟩

/-- Visiting a ready node and releasing its targets. -/
theorem KahnInv.turn (worklist : Worklist κ) (missing : Fault ε)
    (hout : ∀ u, (outgoing u).Perm ((edges.filter fun e => e.1 = u).map Prod.snd))
    (hedges : ∀ e ∈ edges, e.2 ∈ nodes) (h : KahnInv nodes edges order [] state)
    (hpop : worklist.pop state.ready = some (n, rest)) :
    ∃ state', (outgoing n).foldlM (releaseTarget worklist missing) { state with ready := rest } =
        .ok state' ∧ KahnInv nodes edges (order ++ [n]) [] state' := by
  have hv := h.visit (worklist.pop_perm _ _ _ hpop) (hout n)
  refine hv.releaseAll worklist missing fun t ht => ?_
  obtain ⟨e, he, rfl⟩ := List.mem_map.mp ((hout n).mem_iff.mp ht)
  exact hedges e (List.mem_filter.mp he).1

/-- What every turn keeps holds when the loop ends, with nothing ready; an order that cannot
    outgrow the fuel makes the loop end. -/
theorem kahnLoop_rule {worklist : Worklist κ} {motive : List κ → KahnState κ → Prop} {bound : Nat}
    (hturn : ∀ order state n rest, motive order state → worklist.pop state.ready = some (n, rest) →
      ∃ state', (outgoing n).foldlM (releaseTarget worklist missing) { state with ready := rest } =
        .ok state' ∧ motive (order ++ [n]) state')
    (hbound : ∀ order state, motive order state → order.length ≤ bound) (fuel : Nat)
    (h : motive order state) (hfuel : bound ≤ fuel + order.length) :
    ∃ result state', kahnLoop worklist missing outgoing fuel state order = .ok result ∧
      motive result state' ∧ state'.ready = [] := by
  induction fuel generalizing state order with
  | zero =>
    unfold kahnLoop
    cases hpop : worklist.pop state.ready with
    | none => exact ⟨order, state, rfl, h, worklist.pop_none _ hpop⟩
    | some entry =>
      obtain ⟨state', -, hnext⟩ := hturn order state entry.1 entry.2 h hpop
      have hle := hbound _ _ hnext
      rw [List.length_append, List.length_singleton] at hle
      omega
  | succ fuel ih =>
    unfold kahnLoop
    cases hpop : worklist.pop state.ready with
    | none => exact ⟨order, state, rfl, h, worklist.pop_none _ hpop⟩
    | some entry =>
      obtain ⟨state', hrun, hnext⟩ := hturn order state entry.1 entry.2 h hpop
      obtain ⟨result, last, hresult, hlast⟩ := ih hnext (by
        rw [List.length_append, List.length_singleton]
        omega)
      exact ⟨result, last, by simp only [hrun, ok_bind, hresult], hlast⟩

/-- An unvisited node is ready when its sources are visited. -/
theorem KahnInv.mem_ready (h : KahnInv nodes edges order [] state) {v : κ} (hv : v ∈ nodes)
    (hnot : v ∉ order) (hsources : ∀ src, (src, v) ∈ edges → src ∈ order) : v ∈ state.ready := by
  have hzero : unvisitedInto edges order v = 0 := by
    refine List.countP_eq_zero.mpr fun e he hcount => ?_
    obtain ⟨hto, hsrc⟩ := of_decide_eq_true hcount
    exact hsrc (hsources e.1 (hto ▸ he))
  exact (h.ready v).mpr ⟨hnot, by rw [h.degree v, if_pos hv, hzero]; rfl⟩

omit [LinearOrder κ] in
/-- Without a cycle nothing waits for ever. -/
theorem visited_of_acyclic
    (hacyclic : ∀ node, ¬ Relation.TransGen (fun a b => (a, b) ∈ edges) node node)
    (hsources : ∀ e ∈ edges, e.1 ∈ nodes)
    (hwaits : ∀ v ∈ nodes, v ∉ order → ∃ src, (src, v) ∈ edges ∧ src ∉ order) :
    ∀ v ∈ nodes, v ∈ order := by
  have hstrict : IsStrictOrder κ (Relation.TransGen fun a b => (a, b) ∈ edges) :=
    { irrefl := hacyclic, trans := fun _ _ _ hab hbc => hab.trans hbc }
  intro v hv
  have hwf := (List.finite_toSet nodes).wellFoundedOn
    (r := Relation.TransGen fun a b => (a, b) ∈ edges)
  refine hwf.induction hv fun v hv ih => ?_
  by_contra hnot
  obtain ⟨src, hedge, hsrc⟩ := hwaits v hv hnot
  exact hsrc (ih src (hsources _ hedge) (.single hedge))

/-! ## The least order -/

/-- Every node of the order is the least of those that could stand in its place. -/
def Greedy (nodes : List κ) (edges : List (κ × κ)) (order : List κ) : Prop :=
  ∀ before n after, order = before ++ n :: after → ∀ m ∈ nodes, m ∉ before →
    (∀ src, (src, m) ∈ edges → src ∈ before) → n ≤ m

theorem Greedy.append (h : Greedy nodes edges order)
    (hn : ∀ m ∈ nodes, m ∉ order → (∀ src, (src, m) ∈ edges → src ∈ order) → n ≤ m) :
    Greedy nodes edges (order ++ [n]) := by
  intro before n' after hsplit
  rcases concat_eq_split hsplit with ⟨rfl, rfl⟩ | ⟨rest, hrest⟩
  · exact hn
  · exact h before n' rest hrest

/-- Where two orders part, the greedy one has the smaller node. -/
theorem Greedy.le {common other : List κ} (h : Greedy nodes edges (common ++ rest))
    (hother : Topological edges (common ++ other)) (hnd : (common ++ other).Nodup)
    (hnodes : ∀ v ∈ other, v ∈ nodes) (hlength : rest.length = other.length) :
    rest = other ∨ List.Lex (· < ·) rest other := by
  induction rest generalizing common other with
  | nil => exact .inl (List.length_eq_zero_iff.mp hlength.symm).symm
  | cons a rest ih =>
    cases other with
    | nil => cases hlength
    | cons b other =>
      have hfresh : b ∉ common := fun hb =>
        (List.nodup_append.mp hnd).2.2 b hb b List.mem_cons_self rfl
      have hle : a ≤ b := h common a rest rfl b (hnodes b List.mem_cons_self) hfresh
        fun src hsrc => hother common b other rfl src hsrc
      rcases hle.lt_or_eq with hlt | rfl
      · exact .inr (.rel hlt)
      · rw [List.append_cons] at h hother hnd
        refine (ih h hother hnd (fun v hv => hnodes v (List.mem_cons_of_mem _ hv))
          (Nat.succ.inj hlength)).imp (fun heq => by rw [heq]) fun hlex => .cons hlex

/-- An ordered set stays ascending while targets are released. -/
theorem releaseAll_sorted {state' : KahnState κ} (h : state.ready.Pairwise (· ≤ ·))
    (hrun : targets.foldlM (releaseTarget Worklist.orderedSet missing) state = .ok state') :
    state'.ready.Pairwise (· ≤ ·) := by
  induction targets generalizing state with
  | nil =>
    rw [← foldlM_nil_ok.mp hrun]
    exact h
  | cons t targets ih =>
    obtain ⟨mid, hstep, hrest⟩ := foldlM_cons_ok.mp hrun
    refine ih ?_ hrest
    unfold releaseTarget at hstep
    split at hstep
    · cases hstep
    · cases hstep
    · cases hstep
      dsimp only [Worklist.orderedSet]
      split_ifs
      · exact h
      · exact List.Pairwise.orderedInsert _ _ h
      · exact h

/-- An ordered set gives out its least node. -/
theorem orderedSet_pop {ready : List κ} (h : ready.Pairwise (· ≤ ·))
    (hpop : (Worklist.orderedSet : Worklist κ).pop ready = some (n, rest)) :
    rest.Pairwise (· ≤ ·) ∧ ∀ m ∈ ready, n ≤ m := by
  obtain rfl := eq_cons_of_pop hpop
  rw [List.pairwise_cons] at h
  refine ⟨h.2, fun m hm => ?_⟩
  rcases List.mem_cons.mp hm with rfl | htail
  · exact le_rfl
  · exact h.1 m htail

/-! ## From the counted degrees to the result -/

theorem mem_readyNodes (degree : BTreeMap κ Nat) {v : κ} :
    v ∈ readyNodes degree ↔ degree.get? v = some 0 := by
  unfold readyNodes
  rw [BTreeMap.get?_eq_some_iff]
  constructor
  · intro h
    obtain ⟨entry, hentry, rfl⟩ := List.mem_map.mp h
    obtain ⟨hmem, hzero⟩ := List.mem_filter.mp hentry
    have hz : entry.2 = 0 := by simpa using hzero
    rw [← hz]
    exact hmem
  · intro h
    exact List.mem_map.mpr ⟨(v, 0), List.mem_filter.mpr ⟨h, by simp⟩, rfl⟩

theorem readyNodes_sorted (degree : BTreeMap κ Nat) : (readyNodes degree).Pairwise (· ≤ ·) :=
  (degree.keys_sorted.sublist (List.Sublist.map Prod.fst List.filter_sublist)).imp le_of_lt

theorem readyNodes_nodup (degree : BTreeMap κ Nat) : (readyNodes degree).Nodup :=
  (BTreeMap.nodup_keys degree).sublist (List.Sublist.map Prod.fst List.filter_sublist)

/-- Counting the edges into every node. The step may check more than the target. -/
theorem foldlM_bumpDegree {step : BTreeMap κ Nat → κ × κ → Outcome ε (BTreeMap κ Nat)}
    (hstep : ∀ m e m', step m e = .ok m' → bumpDegree missing m e.2 = .ok m')
    {start out : BTreeMap κ Nat} (h : edges.foldlM step start = .ok out) :
    (∀ e ∈ edges, ∃ n, start.get? e.2 = some n) ∧
      ∀ v, out.get? v = (start.get? v).map (· + edges.countP fun e => decide (e.2 = v)) := by
  induction edges generalizing start with
  | nil =>
    rw [foldlM_nil_ok] at h
    subst h
    exact ⟨by simp, fun v => by cases start.get? v <;> simp⟩
  | cons e edges ih =>
    obtain ⟨mid, hmid, hrest⟩ := foldlM_cons_ok.mp h
    obtain ⟨hsome, hget⟩ := ih hrest
    have hbump := hstep _ _ _ hmid
    unfold bumpDegree at hbump
    cases hd : start.get? e.2 with
    | none => rw [hd] at hbump; simp at hbump
    | some count =>
      rw [hd] at hbump
      have hinsert : start.insert e.2 (count + 1) = mid := by simpa using hbump
      subst hinsert
      constructor
      · intro e' he'
        rcases List.mem_cons.mp he' with rfl | he'
        · exact ⟨count, hd⟩
        · obtain ⟨n, hn⟩ := hsome e' he'
          rw [BTreeMap.get?_insert] at hn
          by_cases heq : e'.2 = e.2
          · exact ⟨count, heq ▸ hd⟩
          · rw [if_neg heq] at hn
            exact ⟨n, hn⟩
      · intro v
        rw [hget v, BTreeMap.get?_insert]
        by_cases hv : v = e.2
        · subst hv
          simp [hd]
          omega
        · have hne : ¬ e.2 = v := fun he => hv he.symm
          simp [hv, hne]

theorem KahnInv.start {degree : BTreeMap κ Nat}
    (h : ∀ v ∈ degree.keys, degree.get? v = some (edges.countP fun e => decide (e.2 = v))) :
    KahnInv degree.keys edges [] [] { degree := degree, ready := readyNodes degree } := by
  refine ⟨List.nodup_nil, by simp, readyNodes_nodup degree, ?_, ?_, by simp, ?_⟩
  · intro v
    by_cases hv : v ∈ degree.keys
    · rw [if_pos hv, h v hv]
      simp [unvisitedInto]
    · rw [if_neg hv]
      cases hd : degree.get? v with
      | none => rfl
      | some n => exact absurd ((BTreeMap.mem_keys_iff degree).mpr ⟨n, hd⟩) hv
  · intro v
    simp [mem_readyNodes]
  · intro before node after hsplit
    exact absurd hsplit (by simp)

/-- `kahnLoop` from counted degrees, with enough fuel for every node. -/
def kahn (worklist : Worklist κ) (missing : Fault ε) (outgoing : κ → List κ)
    (degree : BTreeMap κ Nat) : Outcome ε (List κ) :=
  kahnLoop worklist missing outgoing degree.size
    { degree := degree, ready := readyNodes degree } []

theorem BTreeMap.length_keys {α : Type} (m : BTreeMap κ α) : m.keys.length = m.size :=
  List.length_map _

theorem KahnInv.length_le (h : KahnInv nodes edges order [] state) : order.length ≤ nodes.length :=
  (List.subperm_of_subset h.order_nodup h.order_mem).length_le

section Spec

variable {degree : BTreeMap κ Nat} {outgoing : κ → List κ} (missing : Fault ε)
  (hout : ∀ u, (outgoing u).Perm ((edges.filter fun e => e.1 = u).map Prod.snd))
  (hedges : ∀ e ∈ edges, e.2 ∈ degree.keys)
  (hdegree : ∀ v ∈ degree.keys, degree.get? v = some (edges.countP fun e => decide (e.2 = v)))

include hout hedges hdegree

/-- The algorithm neither panics nor runs out of fuel; every edge into what it visited goes
    forward, and a node is left out only for an unvisited source. -/
theorem kahn_spec (worklist : Worklist κ) :
    ∃ result, kahn worklist missing outgoing degree = .ok result ∧
      result.Nodup ∧ (∀ v ∈ result, v ∈ degree.keys) ∧ Topological edges result ∧
      ∀ v ∈ degree.keys, v ∉ result → ∃ src, (src, v) ∈ edges ∧ src ∉ result := by
  obtain ⟨result, state, hrun, hinv, hready⟩ := kahnLoop_rule
    (motive := fun order state => KahnInv degree.keys edges order [] state)
    (fun _ _ _ _ h hpop => h.turn worklist missing hout hedges hpop)
    (fun _ _ h => h.length_le) degree.size (KahnInv.start hdegree) (by rw [degree.length_keys]; rfl)
  refine ⟨result, hrun, hinv.order_nodup, hinv.order_mem, hinv.topological, fun v hv hnot => ?_⟩
  by_contra hnone
  have hmem := hinv.mem_ready hv hnot fun src hsrc => by
    by_contra hsrc'
    exact hnone ⟨src, hsrc, hsrc'⟩
  rw [hready] at hmem
  cases hmem

/-- With an ordered set the order is greedy. -/
theorem kahn_orderedSet :
    ∃ result, kahn Worklist.orderedSet missing outgoing degree = .ok result ∧
      Greedy degree.keys edges result := by
  obtain ⟨result, state, hrun, ⟨-, -, hgreedy⟩, -⟩ := kahnLoop_rule
    (motive := fun order state => KahnInv degree.keys edges order [] state ∧
      state.ready.Pairwise (· ≤ ·) ∧ Greedy degree.keys edges order)
    (fun order state n rest ⟨h, hsorted, hgreedy⟩ hpop => by
      obtain ⟨state', hturn, hnext⟩ := h.turn Worklist.orderedSet missing hout hedges hpop
      obtain ⟨hrest, hleast⟩ := orderedSet_pop hsorted hpop
      exact ⟨state', hturn, hnext, releaseAll_sorted hrest hturn,
        hgreedy.append fun m hm hnot hsources => hleast m (h.mem_ready hm hnot hsources)⟩)
    (fun _ _ h => h.1.length_le) degree.size
    ⟨KahnInv.start hdegree, readyNodes_sorted degree, fun before n after hnil => by simp at hnil⟩
    (by rw [degree.length_keys]; rfl)
  exact ⟨result, hrun, hgreedy⟩

end Spec

end Blut.Lib
