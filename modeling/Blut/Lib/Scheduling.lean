/-
  Scheduling a dependency graph.

  A network has data edges, gates (a selector decides whether its target may run) and links (an
  edge whose ends run as one task). A board says which nodes wait to be started, were started,
  completed or were pruned. `Sound` is what a scheduler keeps whatever finishes first: a node
  waits or was started only when its inputs are there, and every node whose inputs are there
  waits, was started or is pruned. Each move of a scheduler keeps it (`Sound.initial`, `start`,
  `record`, `credit`, `enable`, `prune`, `extend`), and when nothing waits or runs, every node is
  completed or pruned (`Sound.accounts`).

  A completed node is credited when the nodes after it have been told, and the target of a gate
  is decided when its selector has been looked at, so that a completion is several moves.
-/
import Mathlib.Tactic

namespace Blut.Lib

variable {κ : Type}

structure Network (κ : Type) where
  nodes : Set κ
  edge : κ → κ → Prop
  gate : κ → κ → Prop
  link : κ → κ → Prop

/-- What a network must satisfy to be scheduled: no cycle, one gate for a target, no selector
    behind a gate, and a linked node reads nothing but the node before it. -/
structure Network.Wf (net : Network κ) : Prop where
  edge_mem : ∀ {p n}, net.edge p n → p ∈ net.nodes ∧ n ∈ net.nodes
  gate_mem : ∀ {c t}, net.gate c t → c ∈ net.nodes ∧ t ∈ net.nodes
  wellFounded : WellFounded fun p n => net.edge p n ∨ net.gate p n
  gate_unique : ∀ {c c' t}, net.gate c t → net.gate c' t → c = c'
  gate_apart : ∀ {c t c' t'}, net.gate c t → net.gate c' t' → ¬ Relation.ReflTransGen net.edge t c'
  link_edge : ∀ {p n}, net.link p n → net.edge p n
  link_only : ∀ {p q n}, net.link p n → net.edge q n → q = p
  link_free : ∀ {p c n}, net.link p n → ¬ net.gate c n

/-- A node that runs in the task of another. -/
def Network.Inner (net : Network κ) (n : κ) : Prop := ∃ p, net.link p n

@[ext]
structure Board (κ : Type) where
  waiting : Set κ
  started : Set κ
  completed : Set κ
  credited : Set κ
  pruned : Set κ
  enabled : Set κ
  decided : Set κ

/-- The inputs of a node are there, and its gate has let it through. -/
def Board.Open (board : Board κ) (net : Network κ) (n : κ) : Prop :=
  (∀ p, net.edge p n → p ∈ board.credited) ∧ ∀ c, net.gate c n → n ∈ board.enabled

structure Sound (net : Network κ) (board : Board κ) : Prop where
  started_mem : ∀ n ∈ board.started, n ∈ net.nodes
  pruned_mem : ∀ n ∈ board.pruned, n ∈ net.nodes
  waiting_mem : ∀ n ∈ board.waiting, n ∈ net.nodes
  completed_started : ∀ n ∈ board.completed, n ∈ board.started
  credited_completed : ∀ n ∈ board.credited, n ∈ board.completed
  waiting_new : ∀ n ∈ board.waiting, n ∉ board.started
  waiting_kept : ∀ n ∈ board.waiting, n ∉ board.pruned
  waiting_open : ∀ n ∈ board.waiting, board.Open net n
  waiting_outer : ∀ n ∈ board.waiting, ¬ net.Inner n
  completed_kept : ∀ n ∈ board.completed, n ∉ board.pruned
  started_inputs : ∀ n ∈ board.started, ∀ p, net.edge p n →
    p ∈ board.credited ∨ (net.link p n ∧ p ∈ board.started)
  started_gate : ∀ n ∈ board.started, ∀ c, net.gate c n → n ∈ board.enabled
  started_link : ∀ p n, net.link p n → p ∈ board.started → n ∈ board.started
  enabled_decided : ∀ t ∈ board.enabled, t ∈ board.decided
  decided_gate : ∀ t ∈ board.decided, ∃ c, net.gate c t
  decided_completed : ∀ t ∈ board.decided, ∀ c, net.gate c t → c ∈ board.completed
  decided_resolved : ∀ t ∈ board.decided, t ∈ board.enabled ∨ t ∈ board.pruned
  pruned_edge : ∀ p ∈ board.pruned, ∀ n, net.edge p n → n ∈ board.pruned
  pruned_gate : ∀ c ∈ board.pruned, ∀ t, net.gate c t → t ∈ board.pruned
  pruned_cause : ∀ n ∈ board.pruned, n ∈ board.started ∨ (n ∈ board.decided ∧ n ∉ board.enabled) ∨
    (∃ p, net.edge p n ∧ p ∈ board.pruned) ∨ ∃ c, net.gate c n ∧ c ∈ board.pruned
  covered : ∀ n ∈ net.nodes, board.Open net n → n ∉ board.pruned → ¬ net.Inner n →
    n ∈ board.waiting ∨ n ∈ board.started

variable {net : Network κ} {board : Board κ}

namespace Sound

/-! ## What follows from it -/

variable {n : κ}

/-- A node that was not started, whose inputs are not pruned and whose gate let it through, is
    not pruned. -/
theorem kept (h : Sound net board) (hnew : n ∉ board.started)
    (hin : ∀ p, net.edge p n → p ∉ board.pruned) (hgate : ∀ c, net.gate c n → n ∈ board.enabled) :
    n ∉ board.pruned := by
  intro hpruned
  rcases h.pruned_cause n hpruned with hs | ⟨hd, he⟩ | ⟨p, hedge, hp⟩ | ⟨c, hc, hp⟩
  · exact hnew hs
  · obtain ⟨c, hc⟩ := h.decided_gate n hd
    exact he (hgate c hc)
  · exact hin p hedge hp
  · have hdec := h.enabled_decided n (hgate c hc)
    exact h.completed_kept c (h.decided_completed n hdec c hc) hp

/-- The node linked behind one that is not pruned. -/
theorem linked_kept (hwf : net.Wf) (h : Sound net board) {p : κ} (hlink : net.link p n)
    (hp : p ∉ board.pruned) (hnew : n ∉ board.started) : n ∉ board.pruned := by
  refine h.kept hnew (fun q hedge => ?_) fun c hgate => absurd hgate (hwf.link_free hlink)
  rw [hwf.link_only hlink hedge]
  exact hp

/-- Neither started nor waiting. -/
def Idle (board : Board κ) (n : κ) : Prop := n ∉ board.started ∧ n ∉ board.waiting

/-- What follows a node that did not run, or runs on its own and has not completed, is idle. -/
theorem idle_next (h : Sound net board) {x y : κ} (hx : x ∉ board.completed)
    (hlink : net.link x y → x ∉ board.started) (hxy : net.edge x y ∨ net.gate x y) :
    Idle board y := by
  rcases hxy with hedge | hgate
  · refine ⟨fun hy => ?_, fun hy => ?_⟩
    · rcases h.started_inputs y hy x hedge with hc | ⟨hl, hs⟩
      · exact hx (h.credited_completed x hc)
      · exact hlink hl hs
    · exact hx (h.credited_completed x ((h.waiting_open y hy).1 x hedge))
  · have hdone : y ∈ board.enabled → False := fun he =>
      hx (h.decided_completed y (h.enabled_decided y he) x hgate)
    exact ⟨fun hy => hdone (h.started_gate y hy x hgate),
      fun hy => hdone ((h.waiting_open y hy).2 x hgate)⟩

theorem idle_of_path (h : Sound net board) {x y : κ} (hx : Idle board x)
    (hpath : Relation.ReflTransGen (fun a b => net.edge a b ∨ net.gate a b) x y) :
      Idle board y := by
  induction hpath with
  | refl => exact hx
  | tail _ hstep ih =>
    exact h.idle_next (fun hc => ih.1 (h.completed_started _ hc)) (fun _ => ih.1) hstep

/-- When nothing waits and every started node has ended, every node is accounted for. -/
theorem accounts (hwf : net.Wf) (h : Sound net board) (hwait : ∀ n, n ∉ board.waiting)
    (hcredit : ∀ n ∈ board.completed, n ∈ board.credited)
    (hdecide : ∀ c t, net.gate c t → c ∈ board.completed → t ∈ board.decided)
    (hended : ∀ n ∈ board.started, n ∈ board.completed ∨ n ∈ board.pruned) (hn : n ∈ net.nodes) :
    n ∈ board.completed ∨ n ∈ board.pruned := by
  induction n using hwf.wellFounded.induction with
  | h n ih =>
    by_contra hno
    rw [not_or] at hno
    obtain ⟨hnc, hnp⟩ := hno
    -- a node before this one that is pruned would take it along
    have hinputs : ∀ p, net.edge p n → p ∈ board.completed := by
      intro p hedge
      rcases ih p (Or.inl hedge) (hwf.edge_mem hedge).1 with hc | hp
      · exact hc
      · exact absurd (h.pruned_edge p hp n hedge) hnp
    have hgates : ∀ c, net.gate c n → n ∈ board.enabled := by
      intro c hgate
      rcases ih c (Or.inr hgate) (hwf.gate_mem hgate).1 with hc | hp
      · exact (h.decided_resolved n (hdecide c n hgate hc)).resolve_right hnp
      · exact absurd (h.pruned_gate c hp n hgate) hnp
    have hstarted : n ∈ board.started := by
      by_cases hinner : net.Inner n
      · obtain ⟨p, hlink⟩ := hinner
        have hp := hinputs p (hwf.link_edge hlink)
        exact h.started_link p n hlink (h.completed_started p hp)
      · have hopen : board.Open net n := ⟨fun p hp => hcredit p (hinputs p hp), hgates⟩
        exact (h.covered n hn hopen hnp hinner).resolve_left (hwait n)
    rcases hended n hstarted with hc | hp
    · exact hnc hc
    · exact hnp hp

/-! ## Moves -/

/-- Before anything ran, the nodes without inputs and gates wait. -/
theorem initial (hlink : ∀ p n, net.link p n → net.edge p n) {waiting : Set κ}
    (hwait : ∀ n, n ∈ waiting ↔ n ∈ net.nodes ∧ (∀ p, ¬ net.edge p n) ∧ ∀ c, ¬ net.gate c n) :
    Sound net ⟨waiting, ∅, ∅, ∅, ∅, ∅, ∅⟩ where
  started_mem := by simp
  pruned_mem := by simp
  waiting_mem := fun n hn => ((hwait n).mp hn).1
  completed_started := by simp
  credited_completed := by simp
  waiting_new := by simp
  waiting_kept := by simp
  waiting_open := fun n hn =>
    ⟨fun p hp => absurd hp (((hwait n).mp hn).2.1 p), fun c hc =>
      absurd hc (((hwait n).mp hn).2.2 c)⟩
  waiting_outer := fun n hn ⟨p, hp⟩ => ((hwait n).mp hn).2.1 p (hlink p n hp)
  completed_kept := by simp
  started_inputs := by simp
  started_gate := by simp
  started_link := by simp
  enabled_decided := by simp
  decided_gate := by simp
  decided_completed := by simp
  decided_resolved := by simp
  pruned_edge := by simp
  pruned_gate := by simp
  pruned_cause := by simp
  covered := fun n hn hopen _ _ => Or.inl ((hwait n).mpr ⟨hn, hopen.1, hopen.2⟩)

/-- A waiting node starts, with the nodes linked behind it. -/
theorem start (hwf : net.Wf) (h : Sound net board) {head : κ} {group : Set κ}
    (hhead : head ∈ board.waiting) (hmem : head ∈ group) (hnodes : ∀ n ∈ group, n ∈ net.nodes)
    (hlinked : ∀ n ∈ group, n ≠ head → ∃ p ∈ group, net.link p n)
    (hwhole : ∀ p ∈ group, ∀ n, net.link p n → n ∈ group) :
    Sound net { board with
      waiting := board.waiting \ {head}
      started := board.started ∪ group } := by
  have hinner : ∀ n ∈ group, n ≠ head → net.Inner n := by
    intro n hn hne
    obtain ⟨p, -, hlink⟩ := hlinked n hn hne
    exact ⟨p, hlink⟩
  refine { h with
    started_mem := ?_, waiting_mem := fun n hn => h.waiting_mem n hn.1
    completed_started := fun n hn => Or.inl (h.completed_started n hn)
    waiting_new := ?_, waiting_kept := fun n hn => h.waiting_kept n hn.1
    waiting_open := fun n hn => h.waiting_open n hn.1
    waiting_outer := fun n hn => h.waiting_outer n hn.1
    started_inputs := ?_, started_gate := ?_, started_link := ?_, pruned_cause :=
      ?_, covered := ?_ }
  · rintro n (hn | hn)
    · exact h.started_mem n hn
    · exact hnodes n hn
  · rintro n ⟨hn, hne⟩ (hs | hg)
    · exact h.waiting_new n hn hs
    · exact h.waiting_outer n hn (hinner n hg hne)
  · rintro n (hn | hn) p hedge
    · rcases h.started_inputs n hn p hedge with hc | ⟨hl, hs⟩
      · exact Or.inl hc
      · exact Or.inr ⟨hl, Or.inl hs⟩
    · by_cases hne : n = head
      · exact Or.inl ((h.waiting_open head hhead).1 p (hne ▸ hedge))
      · obtain ⟨q, hq, hlink⟩ := hlinked n hn hne
        rw [hwf.link_only hlink hedge]
        exact Or.inr ⟨hlink, Or.inr hq⟩
  · rintro n (hn | hn) c hgate
    · exact h.started_gate n hn c hgate
    · by_cases hne : n = head
      · rw [hne] at hgate ⊢
        exact (h.waiting_open head hhead).2 c hgate
      · obtain ⟨q, -, hlink⟩ := hlinked n hn hne
        exact absurd hgate (hwf.link_free hlink)
  · rintro p n hlink (hp | hp)
    · exact Or.inl (h.started_link p n hlink hp)
    · exact Or.inr (hwhole p hp n hlink)
  · intro n hn
    rcases h.pruned_cause n hn with hs | hrest
    · exact Or.inl (Or.inl hs)
    · exact Or.inr hrest
  · intro n hn hopen hp hout
    rcases h.covered n hn hopen hp hout with hw | hs
    · by_cases hne : n = head
      · exact Or.inr (Or.inr (hne ▸ hmem))
      · exact Or.inl ⟨hw, hne⟩
    · exact Or.inr (Or.inl hs)

/-- A started node completes. -/
theorem record (h : Sound net board) (hs : n ∈ board.started) (hp : n ∉ board.pruned) :
    Sound net { board with completed := insert n board.completed } := by
  refine { h with
    completed_started := ?_, credited_completed := fun m hm => Or.inr (h.credited_completed m hm)
    completed_kept := ?_
    decided_completed := fun t ht c hc => Or.inr (h.decided_completed t ht c hc) }
  · rintro m (rfl | hm)
    · exact hs
    · exact h.completed_started m hm
  · rintro m (rfl | hm)
    · exact hp
    · exact h.completed_kept m hm

/-- The nodes after a completed one are told; those that open wait. -/
theorem credit (h : Sound net board) (hn : n ∈ board.completed) (hnew : n ∉ board.credited)
    (hmem : ∀ m, net.edge n m → m ∈ net.nodes) : Sound net { board with
      credited := insert n board.credited
      waiting :=
        board.waiting ∪ {m | net.edge n m ∧ (∀ p, net.edge p m → p ∈ insert n board.credited) ∧
        (∀ c, net.gate c m → m ∈ board.enabled) ∧ ¬ net.Inner m} } := by
  have hcredited : ∀ m ∈ insert n board.credited, m ∈ board.completed := by
    rintro m (rfl | hm)
    · exact hn
    · exact h.credited_completed m hm
  have hlater : ∀ m, net.edge n m → ¬ net.Inner m → m ∉ board.started := by
    intro m hedge hout hs
    rcases h.started_inputs m hs n hedge with hc | ⟨hl, -⟩
    · exact hnew hc
    · exact hout ⟨n, hl⟩
  refine { h with
    waiting_mem := ?_, credited_completed := hcredited
    waiting_new := ?_, waiting_kept := ?_, waiting_open := ?_, waiting_outer := ?_
    started_inputs := ?_, covered := ?_ }
  · rintro m (hm | ⟨hedge, -, -, -⟩)
    · exact h.waiting_mem m hm
    · exact hmem m hedge
  · rintro m (hm | ⟨hedge, -, -, hout⟩)
    · exact h.waiting_new m hm
    · exact hlater m hedge hout
  · rintro m (hm | ⟨hedge, hin, hgate, hout⟩)
    · exact h.waiting_kept m hm
    · refine h.kept (hlater m hedge hout) (fun p hpm => ?_) hgate
      exact h.completed_kept p (hcredited p (hin p hpm))
  · rintro m (hm | ⟨-, hin, hgate, -⟩)
    · exact ⟨fun p hp => Or.inr ((h.waiting_open m hm).1 p hp), (h.waiting_open m hm).2⟩
    · exact ⟨hin, hgate⟩
  · rintro m (hm | ⟨-, -, -, hout⟩)
    · exact h.waiting_outer m hm
    · exact hout
  · intro m hm p hedge
    rcases h.started_inputs m hm p hedge with hc | hl
    · exact Or.inl (Or.inr hc)
    · exact Or.inr hl
  · intro m hm hopen hp hout
    by_cases hedge : net.edge n m
    · exact Or.inl (Or.inr ⟨hedge, hopen.1, hopen.2, hout⟩)
    · have hold : board.Open net m := by
        refine ⟨fun p hpm => (hopen.1 p hpm).resolve_left ?_, hopen.2⟩
        rintro rfl
        exact hedge hpm
      rcases h.covered m hm hold hp hout with hw | hs
      · exact Or.inl (Or.inl hw)
      · exact Or.inr hs

/-- A selector lets its target through. -/
theorem enable (hwf : net.Wf) (h : Sound net board) {c t : κ} (hgate : net.gate c t)
    (hc : c ∈ board.completed) (hfirst : t ∉ board.decided) :
    Sound net { board with
      enabled := insert t board.enabled
      decided := insert t board.decided
      waiting := board.waiting ∪
        {m | m = t ∧ (∀ p, net.edge p t → p ∈ board.credited) ∧ t ∉ board.pruned} } := by
  have houter : ¬ net.Inner t := fun ⟨p, hlink⟩ => hwf.link_free hlink hgate
  have hnew : t ∉ board.started := fun hs =>
    hfirst (h.enabled_decided t (h.started_gate t hs c hgate))
  refine { h with
    waiting_mem := ?_, waiting_new := ?_, waiting_kept := ?_, waiting_open := ?_
    waiting_outer := ?_, started_gate := fun n hn c hc => Or.inr (h.started_gate n hn c hc)
    enabled_decided := ?_, decided_gate := ?_, decided_completed := ?_, decided_resolved := ?_
    pruned_cause := ?_, covered := ?_ }
  · rintro m (hm | ⟨rfl, -, -⟩)
    · exact h.waiting_mem m hm
    · exact (hwf.gate_mem hgate).2
  · rintro m (hm | ⟨rfl, -, -⟩)
    · exact h.waiting_new m hm
    · exact hnew
  · rintro m (hm | ⟨rfl, -, hp⟩)
    · exact h.waiting_kept m hm
    · exact hp
  · rintro m (hm | ⟨rfl, hin, -⟩)
    · exact ⟨(h.waiting_open m hm).1, fun c hc => Or.inr ((h.waiting_open m hm).2 c hc)⟩
    · exact ⟨hin, fun _ _ => Or.inl rfl⟩
  · rintro m (hm | ⟨rfl, -, -⟩)
    · exact h.waiting_outer m hm
    · exact houter
  · rintro m (rfl | hm)
    · exact Or.inl rfl
    · exact Or.inr (h.enabled_decided m hm)
  · rintro m (rfl | hm)
    · exact ⟨c, hgate⟩
    · exact h.decided_gate m hm
  · rintro m (rfl | hm) c' hc'
    · rw [hwf.gate_unique hc' hgate]
      exact hc
    · exact h.decided_completed m hm c' hc'
  · rintro m (rfl | hm)
    · exact Or.inl (Or.inl rfl)
    · rcases h.decided_resolved m hm with he | hp
      · exact Or.inl (Or.inr he)
      · exact Or.inr hp
  · intro m hm
    rcases h.pruned_cause m hm with hs | ⟨hd, he⟩ | hrest
    · exact Or.inl hs
    · have hne : m ≠ t := fun heq => hfirst (heq ▸ hd)
      exact Or.inr (Or.inl ⟨Or.inr hd, fun hin => he (hin.resolve_left hne)⟩)
    · exact Or.inr (Or.inr hrest)
  · intro m hm hopen hp hout
    by_cases hmt : m = t
    · rw [hmt] at hopen hp ⊢
      exact Or.inl (Or.inr ⟨rfl, hopen.1, hp⟩)
    · have hold : board.Open net m := ⟨hopen.1, fun c hc => (hopen.2 c hc).resolve_left hmt⟩
      rcases h.covered m hm hold hp hout with hw | hs
      · exact Or.inl (Or.inl hw)
      · exact Or.inr hs

/-- Nodes that have not completed and do not wait are given up, with everything after them. -/
theorem prune (h : Sound net board) {lost decided : Set κ} (hmem : ∀ n ∈ lost, n ∈ net.nodes)
    (hdone : ∀ n ∈ lost, n ∉ board.completed) (hwait : ∀ n ∈ lost, n ∉ board.waiting)
    (hedge : ∀ p ∈ lost, ∀ n, net.edge p n → n ∈ lost)
    (hgate : ∀ c ∈ lost, ∀ t, net.gate c t → t ∈ lost)
    (hcause : ∀ n ∈ lost, n ∈ board.started ∨ (n ∈ decided ∧ n ∉ board.enabled) ∨
      (∃ p, net.edge p n ∧ p ∈ board.pruned ∪ lost) ∨ ∃ c, net.gate c n ∧ c ∈ board.pruned ∪ lost)
    (hsub : ∀ t ∈ board.decided, t ∈ decided) (hgated : ∀ t ∈ decided, ∃ c, net.gate c t)
    (hselect : ∀ t ∈ decided, ∀ c, net.gate c t → c ∈ board.completed)
    (hresolved : ∀ t ∈ decided, t ∉ board.decided → t ∈ lost) :
    Sound net { board with pruned := board.pruned ∪ lost, decided := decided } := by
  refine { h with
    pruned_mem := ?_, waiting_kept := ?_, completed_kept := ?_
    enabled_decided := fun t ht => hsub t (h.enabled_decided t ht)
    decided_gate := hgated, decided_completed := hselect, decided_resolved := ?_
    pruned_edge := ?_, pruned_gate := ?_, pruned_cause := ?_
    covered := fun n hn hopen hp => h.covered n hn hopen fun hn' => hp (Or.inl hn') }
  · rintro n (hn | hn)
    · exact h.pruned_mem n hn
    · exact hmem n hn
  · rintro n hn (hp | hl)
    · exact h.waiting_kept n hn hp
    · exact hwait n hl hn
  · rintro n hn (hp | hl)
    · exact h.completed_kept n hn hp
    · exact hdone n hl hn
  · intro t ht
    by_cases hold : t ∈ board.decided
    · rcases h.decided_resolved t hold with he | hp
      · exact Or.inl he
      · exact Or.inr (Or.inl hp)
    · exact Or.inr (Or.inr (hresolved t ht hold))
  · rintro p (hp | hp) n hpn
    · exact Or.inl (h.pruned_edge p hp n hpn)
    · exact Or.inr (hedge p hp n hpn)
  · rintro c (hc | hc) t hct
    · exact Or.inl (h.pruned_gate c hc t hct)
    · exact Or.inr (hgate c hc t hct)
  · rintro n (hn | hn)
    · rcases h.pruned_cause n hn with hs | ⟨hd, he⟩ | ⟨p, hpn, hp⟩ | ⟨c, hc, hp⟩
      · exact Or.inl hs
      · exact Or.inr (Or.inl ⟨hsub n hd, he⟩)
      · exact Or.inr (Or.inr (Or.inl ⟨p, hpn, Or.inl hp⟩))
      · exact Or.inr (Or.inr (Or.inr ⟨c, hc, Or.inl hp⟩))
    · exact hcause n hn

/-- The network grows by nodes that are connected among themselves only. -/
theorem extend {net' : Network κ} {fresh : Set κ} (h : Sound net board)
    (hnodes : net'.nodes = net.nodes ∪ fresh) (hfresh : ∀ n ∈ fresh, n ∉ net.nodes)
    (hedge : ∀ p n, net'.edge p n → net.edge p n ∨ (p ∈ fresh ∧ n ∈ fresh))
    (hold : ∀ p n, net.edge p n → net'.edge p n) (hgate : net'.gate = net.gate)
    (hlink : net'.link = net.link) (hgates : ∀ c t, net.gate c t → t ∈ net.nodes)
    (hlinks : ∀ p n, net.link p n → n ∈ net.nodes)
    (hin : ∀ p n, net.edge p n → n ∈ net.nodes ∧ p ∈ net.nodes) :
    Sound net' { board with
      waiting := board.waiting ∪ {n | n ∈ fresh ∧ ∀ p, ¬ net'.edge p n} } := by
  obtain ⟨nodes, edge, gate, link⟩ := net'
  obtain rfl : nodes = net.nodes ∪ fresh := hnodes
  obtain rfl : gate = net.gate := hgate
  obtain rfl : link = net.link := hlink
  -- the edges at an old node are the old edges
  have hinto : ∀ p n, n ∈ net.nodes → edge p n → net.edge p n := fun p n hn he =>
    (hedge p n he).resolve_right fun ⟨_, hf⟩ => hfresh n hf hn
  have hfrom : ∀ p n, p ∈ net.nodes → edge p n → net.edge p n := fun p n hp he =>
    (hedge p n he).resolve_right fun ⟨hf, _⟩ => hfresh p hf hp
  refine ⟨fun n hn => Or.inl (h.started_mem n hn), fun n hn => Or.inl (h.pruned_mem n hn), ?_,
    h.completed_started, h.credited_completed, ?_, ?_, ?_, ?_, h.completed_kept, ?_, h.started_gate,
    h.started_link, h.enabled_decided, h.decided_gate, h.decided_completed, h.decided_resolved, ?_,
    h.pruned_gate, ?_, ?_⟩
  · rintro n (hn | ⟨hn, -⟩)
    · exact Or.inl (h.waiting_mem n hn)
    · exact Or.inr hn
  · rintro n (hn | ⟨hn, -⟩)
    · exact h.waiting_new n hn
    · exact fun hs => hfresh n hn (h.started_mem n hs)
  · rintro n (hn | ⟨hn, -⟩)
    · exact h.waiting_kept n hn
    · exact fun hp => hfresh n hn (h.pruned_mem n hp)
  · rintro n (hn | ⟨hn, hroot⟩)
    · have hopen := h.waiting_open n hn
      exact ⟨fun p hp => hopen.1 p (hinto p n (h.waiting_mem n hn) hp), hopen.2⟩
    · exact ⟨fun p hp => absurd hp (hroot p), fun c hc => absurd (hgates c n hc) (hfresh n hn)⟩
  · rintro n (hn | ⟨hn, -⟩)
    · exact h.waiting_outer n hn
    · rintro ⟨p, hp⟩
      exact hfresh n hn (hlinks p n hp)
  · intro n hn p hp
    exact h.started_inputs n hn p (hinto p n (h.started_mem n hn) hp)
  · intro p hp n hpn
    exact h.pruned_edge p hp n (hfrom p n (h.pruned_mem p hp) hpn)
  · intro n hn
    rcases h.pruned_cause n hn with hs | hd | ⟨p, hpn, hp⟩ | hc
    · exact Or.inl hs
    · exact Or.inr (Or.inl hd)
    · exact Or.inr (Or.inr (Or.inl ⟨p, hold p n hpn, hp⟩))
    · exact Or.inr (Or.inr (Or.inr hc))
  · intro n hn hopen hp hout
    rcases hn with hn | hn
    · have hopen' : board.Open net n := ⟨fun p hpn => hopen.1 p (hold p n hpn), hopen.2⟩
      rcases h.covered n hn hopen' hp hout with hw | hs
      · exact Or.inl (Or.inl hw)
      · exact Or.inr hs
    · refine Or.inl (Or.inr ⟨hn, fun p hpn => ?_⟩)
      -- its inputs are new, and no new node has completed
      have hcomp := h.completed_started p (h.credited_completed p (hopen.1 p hpn))
      rcases hedge p n hpn with hold' | ⟨hpf, -⟩
      · exact hfresh n hn (hin p n hold').1
      · exact hfresh p hpf (h.started_mem p hcomp)

end Sound

end Blut.Lib
