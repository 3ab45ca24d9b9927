/-
  Leader completeness.

  A mark is a prefix that ends in an entry of the term whose leader wrote it. Once a majority backs
  a mark, no later leader lacks it. The invariant says this before anyone counts: a later log keeps
  the mark, or a majority has gone on to later terms without backing it and so never will
  (`Blocked`). The argument needs acknowledgements to be honest: the log a follower acknowledges is
  one its leader had.
-/
import Blut.Lib.Replication.Logs

namespace Blut.Lib.Replication

variable {M E : Type} {termOf : E → ℕ} {members : List M}

/-! ## Marks and who backs them -/

def Mark (termOf : E → ℕ) (s : State M E) (t : ℕ) (P : List E) : Prop :=
  (∃ l L, (l, t, L) ∈ s.led ∧ P <+: L) ∧ P ≠ [] ∧ lastTerm termOf P = t

def Backs (s : State M E) (v : M) (t : ℕ) (P : List E) : Prop :=
  (∃ m, P.length ≤ m ∧ (v, t, m) ∈ s.acks) ∨ ∃ L, (v, t, L) ∈ s.led ∧ P <+: L

def Blocked (members : List M) (s : State M E) (t : ℕ) (P : List E) : Prop :=
  ∃ Q, Majority members Q ∧ ∀ q ∈ Q, t < s.term q ∧ ¬ Backs s q t P

def Chosen (termOf : E → ℕ) (members : List M) (s : State M E) (t : ℕ) (P : List E) : Prop :=
  Mark termOf s t P ∧ ∃ Q, Majority members Q ∧ ∀ q ∈ Q, Backs s q t P

/-- The log keeps the mark, unless the mark can no longer be chosen. -/
def Kept (members : List M) (s : State M E) (t : ℕ) (P log : List E) : Prop :=
  P <+: log ∨ Blocked members s t P

/-- Acknowledgements of a move are of logs that the leader of the term had. -/
def Honest (s s' : State M E) : Prop :=
  ∀ v t m, (v, t, m) ∈ s'.acks → (v, t, m) ∈ s.acks ∨ ∃ l L, (l, t, L) ∈ s.led ∧ s.log v <+: L

variable {s' : State M E} {t : ℕ} {P log : List E} {v l : M}

section

variable {s : State M E}

section

variable (hgrows : Grows s s')
include hgrows

theorem Mark.mono (h : Mark termOf s t P) : Mark termOf s' t P := by
  obtain ⟨⟨l, L, hL, hpre⟩, hne, hlast⟩ := h
  exact ⟨⟨l, L, hgrows.led hL, hpre⟩, hne, hlast⟩

theorem Backs.mono (h : Backs s v t P) : Backs s' v t P := by
  rcases h with ⟨m, hm, hack⟩ | ⟨L, hL, hpre⟩
  · exact Or.inl ⟨m, hm, hgrows.acks hack⟩
  · exact Or.inr ⟨L, hgrows.led hL, hpre⟩

/-- A member past term `t` no longer comes to back a mark of it. -/
theorem Backs.of_grows (h : Backs s' v t P) :
    Backs s v t P ∨ s.term v = t := by
  rcases h with ⟨m, hm, hack⟩ | ⟨L, hL, hpre⟩
  · rcases hgrows.acks_new v t m hack with hold | hterm
    · exact Or.inl (Or.inl ⟨m, hm, hold⟩)
    · exact Or.inr hterm
  · rcases hgrows.led_new v t L hL with hold | hterm
    · exact Or.inl (Or.inr ⟨L, hold, hpre⟩)
    · exact Or.inr hterm

theorem Blocked.mono (h : Blocked members s t P) : Blocked members s' t P := by
  obtain ⟨Q, hQ, hq⟩ := h
  refine ⟨Q, hQ, fun q hmem => ⟨(hq q hmem).1.trans_le (hgrows.term q), fun hback => ?_⟩⟩
  rcases hback.of_grows hgrows with hold | hterm
  · exact (hq q hmem).2 hold
  · have hlt := (hq q hmem).1
    omega

theorem Kept.mono {log' : List E} (hlog : log <+: log') (h : Kept members s t P log) :
    Kept members s' t P log' := by
  rcases h with h | h
  · exact Or.inl (h.trans hlog)
  · exact Or.inr (h.mono hgrows)

theorem Kept.grow (h : Kept members s t P log) : Kept members s' t P log :=
  h.mono hgrows (List.prefix_refl _)

theorem Chosen.mono (h : Chosen termOf members s t P) :
    Chosen termOf members s' t P := by
  obtain ⟨hmark, Q, hQ, hq⟩ := h
  exact ⟨hmark.mono hgrows, Q, hQ, fun q hmem => (hq q hmem).mono hgrows⟩

end

theorem Chosen.not_blocked (h : Chosen termOf members s t P) : ¬ Blocked members s t P := by
  obtain ⟨-, Q, hQ, hq⟩ := h
  rintro ⟨Q', hQ', hq'⟩
  obtain ⟨q, hmem, hmem'⟩ := hQ.inter hQ'
  exact (hq' q hmem').2 (hq q hmem)

theorem Kept.of_chosen (hchosen : Chosen termOf members s t P)
    (h : Kept members s t P log) : P <+: log :=
  h.resolve_right hchosen.not_blocked

/-! ## The invariant -/

structure Safety (termOf : E → ℕ) (members : List M) (s : State M E) : Prop where
  cast_stood : ∀ v t c, (v, t, c) ∈ s.cast → ∃ I, (c, t, I) ∈ s.stood
  ack_term : ∀ v t m, (v, t, m) ∈ s.acks → t ≤ s.term v
  ack_led : ∀ v t m, (v, t, m) ∈ s.acks → ∃ l L, (l, t, L) ∈ s.led ∧ m ≤ L.length
  backer : ∀ v t P, Mark termOf s t P → Backs s v t P → Kept members s t P (s.log v)
  voter : ∀ v t' c I, (v, t', c) ∈ s.cast → (c, t', I) ∈ s.stood →
    ∀ t P, t < t' → Mark termOf s t P → Backs s v t P → Kept members s t P I
  leader : ∀ l t' L, (l, t', L) ∈ s.led → ∀ t P, t < t' → Mark termOf s t P → Kept members s t P L

theorem Safety.empty : Safety termOf members (State.empty : State M E) where
  cast_stood := fun _ _ _ h => absurd h (Set.notMem_empty _)
  ack_term := fun _ _ _ h => absurd h (Set.notMem_empty _)
  ack_led := fun _ _ _ h => absurd h (Set.notMem_empty _)
  backer := fun _ _ _ h => absurd h.1.choose_spec.choose_spec.1 (Set.notMem_empty _)
  voter := fun _ _ _ _ h => absurd h (Set.notMem_empty _)
  leader := fun _ _ _ h => absurd h (Set.notMem_empty _)

/-- What a member has backed is not of a later term than its own. -/
theorem Safety.backs_term (h : Safety termOf members s) (hl : Leading termOf s)
    (hb : Backs s v t P) : t ≤ s.term v := by
  rcases hb with ⟨m, -, hack⟩ | ⟨L, hL, -⟩
  · exact h.ack_term v t m hack
  · exact hl.led_term v t L hL

/-- A mark of a term's leader against another log of the term's leader. -/
theorem Mark.comparable (hl : Leading termOf s) (hv : Voting members s) {L : List E}
    (h : Mark termOf s t P) (hL : (l, t, L) ∈ s.led) (hlog : log <+: L) :
    P <+: log ∨ log <+: P := by
  obtain ⟨⟨l', L', hL', hpre⟩, -, -⟩ := h
  exact comparable_of_prefix hpre hlog (hl.chain hv hL' hL)

theorem Mark.ordered (hl : Leading termOf s) (h : Mark termOf s t P) :
    P.Pairwise fun a b => termOf a ≤ termOf b := by
  obtain ⟨⟨l, L, hL, hpre⟩, -, -⟩ := h
  exact (hl.led_sound l t L hL).ordered.sublist hpre.sublist

/-- A log at least as recent as one that keeps the mark keeps the mark. The later of the two last
    terms decides: its own leader wrote the log and kept the mark. -/
theorem Safety.carry (h : Safety termOf members s) (hl : Leading termOf s)
    (hv : Voting members s) {u u' : ℕ} {log' : List E} (hmark : Mark termOf s t P)
    (hlog : Sound termOf s.led u log) (hlog' : Sound termOf s.led u' log') (hpre : P <+: log)
    (hrecent : UpToDate termOf log' log) : Kept members s t P log' := by
  have hne := hmark.2.1
  obtain ⟨e, he, hlast⟩ := exists_last_of_ne_nil termOf hne
  have hlow : t ≤ lastTerm termOf log := by
    rw [← hmark.2.2, hlast]
    exact le_lastTerm hlog.ordered (hpre.subset (List.mem_of_getElem? he))
  have hlen : 0 < log.length := (List.length_pos_iff.mpr hne).trans_le hpre.length_le
  have hne' : log' ≠ [] := by
    rintro rfl
    rcases hrecent with hlt | ⟨-, hle⟩
    · exact absurd hlt (Nat.not_lt_zero _)
    · simp only [List.length_nil] at hle
      omega
  obtain ⟨l, L, hL, hpre'⟩ := hlog'.rooted.whole hne'
  obtain ⟨e', he', hlast'⟩ := exists_last_of_ne_nil termOf hne'
  rcases lt_or_eq_of_le (show t ≤ lastTerm termOf log' by rcases hrecent with h | h <;> omega)
    with hlt | heq
  · rcases h.leader l _ L hL t P hlt hmark with hPL | hblocked
    · rcases List.prefix_or_prefix_of_prefix hPL hpre' with hP | hP
      · exact Or.inl hP
      · -- an entry of the later term would stand in the mark
        have hmem := hP.subset (List.mem_of_getElem? he')
        have hle := le_lastTerm (hmark.ordered hl) hmem
        rw [hmark.2.2] at hle
        omega
    · exact Or.inr hblocked
  · rw [← heq] at hL
    have hshort : P.length ≤ log'.length := by
      rcases hrecent with hlt | ⟨-, hle⟩
      · omega
      · exact hpre.length_le.trans hle
    exact Or.inl (prefix_of_comparable (hmark.comparable hl hv hL hpre') hshort)

/-! ## Every move keeps it -/

/-- A move that makes no mark and no backer of an old mark: what the new logs and records keep may
    be shown in the old state. -/
theorem Safety.grow (h : Safety termOf members s) (hgrows : Grows s s')
    (hmark : ∀ t P, Mark termOf s' t P → Mark termOf s t P)
    (hback : ∀ v t P, Mark termOf s t P → Backs s' v t P → Backs s v t P)
    (hcast : ∀ v t c, (v, t, c) ∈ s'.cast → ∃ I, (c, t, I) ∈ s'.stood) (hacks : s'.acks = s.acks)
    (hbacker : ∀ v t P, Mark termOf s t P → Backs s v t P → Kept members s t P (s'.log v))
    (hvoter : ∀ v t' c I, (v, t', c) ∈ s'.cast → (c, t', I) ∈ s'.stood →
      ∀ t P, t < t' → Mark termOf s t P → Backs s v t P → Kept members s t P I)
    (hleader : ∀ l t' L, (l, t', L) ∈ s'.led →
      ∀ t P, t < t' → Mark termOf s t P → Kept members s t P L) : Safety termOf members s' where
  cast_stood := hcast
  ack_term := by
    rw [hacks]
    exact fun v t m hm => (h.ack_term v t m hm).trans (hgrows.term v)
  ack_led := by
    rw [hacks]
    intro v t m hm
    obtain ⟨l, L, hL, hlen⟩ := h.ack_led v t m hm
    exact ⟨l, L, hgrows.led hL, hlen⟩
  backer := fun v t P hP hb =>
    (hbacker v t P (hmark t P hP) (hback v t P (hmark t P hP) hb)).grow hgrows
  voter := fun v t' c I hc hI t P ht hP hb =>
    (hvoter v t' c I hc hI t P ht (hmark t P hP) (hback v t P (hmark t P hP) hb)).grow hgrows
  leader := fun l t' L hL t P ht hP => (hleader l t' L hL t P ht (hmark t P hP)).grow hgrows

end

section Moves

variable [DecidableEq M] {s : State M E} (h : Safety termOf members s) (hl : Leading termOf s)
  (hv : Voting members s)
include h hl

theorem Safety.stand (hgrows : Grows s (s.stand v)) : Safety termOf members (s.stand v) := by
  have hfresh : ∀ I, (v, s.term v + 1, I) ∉ s.stood := by
    intro I hI
    have hle := hl.stood_term v _ I hI
    omega
  refine h.grow hgrows (fun _ _ hP => hP) (fun _ _ _ _ hb => hb) ?_ rfl h.backer ?_ h.leader
  · exact forall_insert ⟨_, Set.mem_insert _ _⟩ fun w t c hc =>
      (h.cast_stood w t c hc).imp fun I hI => Set.mem_insert_of_mem _ hI
  · intro w t' c I hc hI t P ht hP hb
    rcases hc with hc | hc
    · -- the candidate's own vote: its log keeps what it backs
      cases hc
      rcases hI with hI | hI
      · cases hI
        exact h.backer v t P hP hb
      · exact absurd hI (hfresh I)
    · rcases hI with hI | hI
      · cases hI
        obtain ⟨I', hI'⟩ := h.cast_stood w _ _ hc
        exact absurd hI' (hfresh I')
      · exact h.voter w t' c I hc hI t P ht hP hb

include hv

theorem Safety.grant {c : M} (hgrows : Grows s (s.grant v c))
    (hstood : (c, s.term v, log) ∈ s.stood) (hrecent : UpToDate termOf log (s.log v)) :
    Safety termOf members (s.grant v c) := by
  refine h.grow hgrows (fun _ _ hP => hP) (fun _ _ _ _ hb => hb)
    (forall_insert ⟨log, hstood⟩ h.cast_stood) rfl h.backer ?_ h.leader
  intro w t' a I ha hI t P ht hP hb
  rcases ha with ha | ha
  · cases ha
    obtain rfl := hl.stood_unique c _ I log hI hstood
    rcases h.backer v t P hP hb with hpre | hblocked
    · exact h.carry hl hv hP (hl.log_sound v) (hl.stood_sound c _ I hI) hpre hrecent
    · exact Or.inr hblocked
  · exact h.voter w t' a I ha hI t P ht hP hb

theorem Safety.lead {Q : List M} (hgrows : Grows s (s.lead v)) (hrole : s.role v = .candidate)
    (hmaj : Majority members Q) (hvotes : ∀ q ∈ Q, (q, s.term v, v) ∈ s.cast) :
    Safety termOf members (s.lead v) := by
  have hfresh : ∀ l L, (l, s.term v, L) ∉ s.led := by
    intro l L hL
    obtain ⟨Q', hmaj', hvotes'⟩ := hv.elected l _ L hL
    obtain rfl := hv.winner_unique hmaj hmaj' hvotes hvotes'
    have hlead := (hl.led_now v L hL).1
    rw [hrole] at hlead
    exact absurd hlead (by decide)
  -- no entry is of the new leader's term yet
  have hmark : ∀ t P, Mark termOf (s.lead v) t P → Mark termOf s t P := by
    rintro t P ⟨⟨l, L, hL, hpre⟩, hne, hlast⟩
    rcases hL with hL | hL
    · cases hL
      obtain ⟨l, L, hL, -⟩ := ((hl.log_sound v).rooted.of_prefix hpre).whole hne
      rw [hlast] at hL
      exact absurd hL (hfresh l L)
    · exact ⟨⟨l, L, hL, hpre⟩, hne, hlast⟩
  have hback : ∀ w t P, Mark termOf s t P → Backs (s.lead v) w t P → Backs s w t P := by
    rintro w t P ⟨⟨l, L, hL, -⟩, -, -⟩ (hack | ⟨L', hL', hpre⟩)
    · exact Or.inl hack
    · rcases hL' with hL' | hL'
      · cases hL'
        exact absurd hL (hfresh l L)
      · exact Or.inr ⟨L', hL', hpre⟩
  refine h.grow hgrows hmark hback h.cast_stood rfl h.backer h.voter ?_
  intro l t' L hL t P ht hP
  rcases hL with hL | hL
  · -- the votes behind the new leader decide: one voter backs the mark, or none does
    cases hL
    by_cases hsome : ∃ q ∈ Q, Backs s q t P
    · obtain ⟨q, hq, hb⟩ := hsome
      exact h.voter q _ v _ (hvotes q hq) (hl.stood_now v hrole) t P ht hP hb
    · push Not at hsome
      exact Or.inr ⟨Q, hmaj, fun q hq =>
        ⟨ht.trans_le (hv.cast_term q _ v (hvotes q hq)), hsome q hq⟩⟩
  · exact h.leader l t' L hL t P ht hP

theorem Safety.propose {entry : E} (hgrows : Grows s (s.propose v entry))
    (hrole : s.role v = .leader) : Safety termOf members (s.propose v entry) := by
  have hown := hv.leader_led v hrole
  have hlongest : ∀ l L, (l, s.term v, L) ∈ s.led → l = v ∧ L <+: s.log v := by
    intro l L hL
    obtain rfl := hv.led_unique hL hown
    exact ⟨rfl, (hl.led_now l L hL).2⟩
  -- the one new mark is the leader's whole log
  have hmark : ∀ t P, Mark termOf (s.propose v entry) t P →
      Mark termOf s t P ∨ (t = s.term v ∧ P = s.log v ++ [entry]) := by
    rintro t P ⟨⟨l, L, hL, hpre⟩, hne, hlast⟩
    rcases hL with hL | hL
    · cases hL
      rcases prefix_concat hpre with hpre | rfl
      · exact Or.inl ⟨⟨v, s.log v, hown, hpre⟩, hne, hlast⟩
      · exact Or.inr ⟨rfl, rfl⟩
    · exact Or.inl ⟨⟨l, L, hL, hpre⟩, hne, hlast⟩
  have hback : ∀ w t P, Mark termOf s t P → Backs (s.propose v entry) w t P → Backs s w t P := by
    rintro w t P ⟨⟨l, L, hL, hP⟩, -, -⟩ (hack | ⟨L', hL', hpre⟩)
    · exact Or.inl hack
    · rcases hL' with hL' | hL'
      · cases hL'
        exact Or.inr ⟨s.log v, hown, hP.trans (hlongest l L hL).2⟩
      · exact Or.inr ⟨L', hL', hpre⟩
  have hnew : ∀ w, Backs (s.propose v entry) w (s.term v) (s.log v ++ [entry]) → w = v := by
    rintro w (⟨m, hm, hack⟩ | ⟨L, hL, hpre⟩)
    · obtain ⟨l, L, hL, hlen⟩ := h.ack_led w _ m hack
      have hle := (hlongest l L hL).2.length_le
      rw [List.length_append, List.length_singleton] at hm
      omega
    · rcases hL with hL | hL
      · cases hL
        rfl
      · exact (hlongest w L hL).1
  have hgrown : ∀ w, s.log w <+: (s.propose v entry).log w := by
    exact (Function.forall_update_iff s.log fun w log => s.log w <+: log).mpr
      ⟨List.prefix_append _ _, fun _ _ => List.prefix_refl _⟩
  refine ⟨h.cast_stood, h.ack_term, ?_, ?_, ?_, ?_⟩
  · intro w t m hm
    obtain ⟨l, L, hL, hlen⟩ := h.ack_led w t m hm
    exact ⟨l, L, hgrows.led hL, hlen⟩
  · intro w t P hP hb
    rcases hmark t P hP with hP' | ⟨rfl, rfl⟩
    · exact (h.backer w t P hP' (hback w t P hP' hb)).mono hgrows (hgrown w)
    · obtain rfl := hnew w hb
      exact Or.inl (by simp [State.propose])
  · intro w t' c I hc hI t P ht hP hb
    rcases hmark t P hP with hP' | ⟨rfl, rfl⟩
    · exact (h.voter w t' c I hc hI t P ht hP' (hback w t P hP' hb)).grow hgrows
    · obtain rfl := hnew w hb
      have hle := hv.cast_term w t' c hc
      omega
  · intro l t' L hL t P ht hP
    rcases hmark t P hP with hP' | ⟨rfl, rfl⟩
    · rcases hL with hL | hL
      · cases hL
        exact (h.leader v _ _ hown t P ht hP').mono hgrows (List.prefix_append _ _)
      · exact (h.leader l t' L hL t P ht hP').grow hgrows
    · -- a leader of a later term has the votes of a majority that never backs the new entry
      rcases hL with hL | hL
      · cases hL
        exact absurd ht (lt_irrefl _)
      · obtain ⟨Q, hmaj, hvotes⟩ := hv.elected l t' L hL
        refine Or.inr ⟨Q, hmaj, fun q hq => ?_⟩
        have hle := hv.cast_term q t' l (hvotes q hq)
        refine ⟨ht.trans_le hle, fun hb => ?_⟩
        obtain rfl := hnew q hb
        omega

theorem Safety.adopt (hgrows : Grows s (s.adopt v log)) (hled : (l, s.term v, log) ∈ s.led)
    (hconflict : ¬ log <+: s.log v) : Safety termOf members (s.adopt v log) := by
  refine h.grow hgrows (fun _ _ hP => hP) (fun _ _ _ _ hb => hb) h.cast_stood rfl ?_
    h.voter h.leader
  intro w t P hP hb
  by_cases hw : w = v
  · subst hw
    simp only [State.adopt, Function.update_self]
    rcases lt_or_eq_of_le (h.backs_term hl hb) with hlt | rfl
    · exact h.leader l _ log hled t P hlt hP
    · rcases hP.comparable hl hv hled (List.prefix_refl _) with hpre | hpre
      · exact Or.inl hpre
      · rcases h.backer w _ P hP hb with hold | hblocked
        · exact absurd (hpre.trans hold) hconflict
        · exact Or.inr hblocked
  · simp only [State.adopt, Function.update_of_ne hw]
    exact h.backer w t P hP hb

omit [DecidableEq M] in
theorem Safety.ack (hgrows : Grows s (s.ack v)) (hled : (l, s.term v, log) ∈ s.led)
    (hhonest : s.log v <+: log) : Safety termOf members (s.ack v) := by
  have hback : ∀ w t P, Backs (s.ack v) w t P →
      Backs s w t P ∨ (w = v ∧ t = s.term v ∧ P.length ≤ (s.log v).length) := by
    rintro w t P (⟨m, hm, hack⟩ | hL)
    · rcases hack with hack | hack
      · cases hack
        exact Or.inr ⟨rfl, rfl, hm⟩
      · exact Or.inl (Or.inl ⟨m, hm, hack⟩)
    · exact Or.inl (Or.inr hL)
  refine ⟨h.cast_stood, forall_insert le_rfl h.ack_term,
    forall_insert ⟨l, log, hled, hhonest.length_le⟩ h.ack_led, ?_, ?_, ?_⟩
  · intro w t P hP hb
    refine Kept.grow hgrows ?_
    rcases hback w t P hb with hold | ⟨rfl, rfl, hlen⟩
    · exact h.backer w t P hP hold
    · exact Or.inl (prefix_of_comparable (Mark.comparable hl hv hP hled hhonest) hlen)
  · intro w t' c I hc hI t P ht hP hb
    rcases hback w t P hb with hold | ⟨rfl, rfl, hlen⟩
    · exact (h.voter w t' c I hc hI t P ht hP hold).grow hgrows
    · have hle := hv.cast_term w t' c hc
      omega
  · exact fun l t' L hL t P ht hP => (h.leader l t' L hL t P ht hP).grow hgrows

theorem Safety.step (hstep : Step termOf members v s s') (hhonest : Honest s s') :
    Safety termOf members s' := by
  have hgrows := hstep.grows
  cases hstep with
  | stand hrole => exact h.stand hl hgrows
  | grant c log hstood hfree hrecent => exact h.grant hl hv hgrows hstood hrecent
  | lead quorum hrole hmaj hvotes => exact h.lead hl hv hgrows hrole hmaj hvotes
  | propose entry hrole hentry => exact h.propose hl hv hgrows hrole
  | adopt l log hrole hled hconflict => exact h.adopt hl hv hgrows hled hconflict
  | ack l log hled hpre =>
    rcases hhonest v _ _ (Set.mem_insert _ _) with hold | ⟨l', L, hL, hpre⟩
    · have hsame : s.ack v = s := by
        unfold State.ack
        rw [Set.insert_eq_of_mem hold]
      rw [hsame]
      exact h
    · exact h.ack hl hv hgrows hL hpre
  | _ =>
    -- the other moves leave the logs alone and say nothing new
    exact h.grow hgrows (fun _ _ hP => hP) (fun _ _ _ _ hb => hb) h.cast_stood rfl h.backer h.voter
      h.leader

end Moves

end Blut.Lib.Replication
