/-
  State-machine safety.

  What a member has committed is a prefix of a chosen mark (`Agreed`). Two such prefixes are
  comparable (`Agreed.comparable`), a later leader has them (`Agreed.leader`), and no move takes
  them back (`Committing.step`).
-/
import Blut.Lib.Replication.Safety

namespace Blut.Lib.Replication

variable {M E : Type} {termOf : E → ℕ} {members : List M}

/-! ## Agreed prefixes -/

/-- Chosen, or part of what was chosen, in term `t` or before. -/
def Agreed (termOf : E → ℕ) (members : List M) (s : State M E) (t : ℕ) (P : List E) : Prop :=
  P = [] ∨ ∃ u ≤ t, ∃ P', Chosen termOf members s u P' ∧ P <+: P'

variable {s' : State M E} {t t' : ℕ} {P : List E}

theorem Agreed.mono {s : State M E} (hgrows : Grows s s') (ht : t ≤ t')
    (h : Agreed termOf members s t P) : Agreed termOf members s' t' P := by
  rcases h with h | ⟨u, hu, P', hchosen, hpre⟩
  · exact Or.inl h
  · exact Or.inr ⟨u, hu.trans ht, P', hchosen.mono hgrows, hpre⟩

section Agreement

variable {s : State M E} (h : Safety termOf members s) (hl : Leading termOf s)
  (hv : Voting members s)
include h

/-- What was chosen is in every log of a leader of a later term. -/
theorem Agreed.leader {L : List E} {l : M} (hP : Agreed termOf members s t P)
    (hL : (l, t', L) ∈ s.led) (ht : t < t') : P <+: L := by
  rcases hP with rfl | ⟨u, hu, P', hchosen, hpre⟩
  · exact List.nil_prefix
  · exact hpre.trans ((h.leader l t' L hL u P' (hu.trans_lt ht) hchosen.1).of_chosen hchosen)

include hl hv

/-- Chosen marks are comparable: the leader of the later term had the earlier mark. -/
theorem Chosen.comparable {P' : List E} (hP : Chosen termOf members s t P)
    (hP' : Chosen termOf members s t' P') (ht : t ≤ t') : P <+: P' ∨ P' <+: P := by
  obtain ⟨⟨l, L, hL, hpre⟩, -, -⟩ := hP'.1
  rcases lt_or_eq_of_le ht with hlt | rfl
  · have hPL := (h.leader l t' L hL t P hlt hP.1).of_chosen hP
    exact List.prefix_or_prefix_of_prefix hPL hpre
  · exact hP.1.comparable hl hv hL hpre

theorem Agreed.comparable {P' : List E} (hP : Agreed termOf members s t P)
    (hP' : Agreed termOf members s t' P') : P <+: P' ∨ P' <+: P := by
  rcases hP with rfl | ⟨u, -, Q, hQ, hpre⟩
  · exact Or.inl List.nil_prefix
  · rcases hP' with rfl | ⟨u', -, Q', hQ', hpre'⟩
    · exact Or.inr List.nil_prefix
    · rcases le_total u u' with hu | hu
      · exact comparable_of_prefix hpre hpre' (Chosen.comparable h hl hv hQ hQ' hu)
      · exact comparable_of_prefix hpre hpre' (Chosen.comparable h hl hv hQ' hQ hu).symm

/-- An agreed part of a log survives when the leader's log replaces it. -/
theorem Agreed.adopt {log L : List E} {l : M} (hP : Agreed termOf members s t P) (hlog : P <+: log)
    (hL : (l, t, L) ∈ s.led) (hconflict : ¬ L <+: log) : P <+: L := by
  rcases hP with rfl | ⟨u, hu, P', hchosen, hpre⟩
  · exact List.nil_prefix
  · rcases lt_or_eq_of_le hu with hlt | rfl
    · exact hpre.trans ((h.leader l t L hL u P' hlt hchosen.1).of_chosen hchosen)
    · rcases hchosen.1.comparable hl hv hL (List.prefix_refl _) with hPL | hPL
      · exact hpre.trans hPL
      · rcases List.prefix_or_prefix_of_prefix hpre hPL with h | h
        · exact h
        · exact absurd (h.trans hlog) hconflict

end Agreement

/-! ## Commit indices -/

def State.committed (s : State M E) (v : M) : List E := (s.log v).take (s.commit v)

structure Committing (termOf : E → ℕ) (members : List M) (s : State M E) : Prop where
  commit_le : ∀ v, s.commit v ≤ (s.log v).length
  agreed : ∀ v, Agreed termOf members s (s.term v) (s.committed v)
  offer_le : ∀ l t L k, (l, t, L, k) ∈ s.offers → k ≤ L.length
  offer_agreed : ∀ l t L k, (l, t, L, k) ∈ s.offers → Agreed termOf members s t (L.take k)

theorem Committing.empty : Committing termOf members (State.empty : State M E) where
  commit_le := fun _ => le_rfl
  agreed := fun _ => Or.inl rfl
  offer_le := fun _ _ _ _ h => absurd h (Set.notMem_empty _)
  offer_agreed := fun _ _ _ _ h => absurd h (Set.notMem_empty _)

section Moves

variable [DecidableEq M] {s : State M E}

variable {v : M}

/-- A new log or commit index of one member, with an agreed committed prefix. -/
theorem Committing.update (h : Committing termOf members s) (hgrows : Grows s s')
    (hsame : ∀ w, w ≠ v → Same s s' w) (hoffers : s'.offers = s.offers)
    (hle : s'.commit v ≤ (s'.log v).length)
    (hagreed : Agreed termOf members s' (s'.term v) (s'.committed v))
    (hpre : s.committed v <+: s'.committed v) :
    Committing termOf members s' ∧ ∀ w, s.committed w <+: s'.committed w := by
  refine ⟨⟨?_, ?_, ?_, ?_⟩, ?_⟩
  · intro w
    by_cases hw : w = v
    · subst hw
      exact hle
    · rw [(hsame w hw).log, (hsame w hw).commit]
      exact h.commit_le w
  · intro w
    by_cases hw : w = v
    · subst hw
      exact hagreed
    · unfold State.committed
      rw [(hsame w hw).log, (hsame w hw).commit]
      exact (h.agreed w).mono hgrows (hgrows.term w)
  · rw [hoffers]
    exact h.offer_le
  · rw [hoffers]
    exact fun l t L k hk => (h.offer_agreed l t L k hk).mono hgrows le_rfl
  · intro w
    by_cases hw : w = v
    · subst hw
      exact hpre
    · unfold State.committed
      rw [(hsame w hw).log, (hsame w hw).commit]

omit [DecidableEq M] in
/-- The prefix that the leader commits is chosen. -/
theorem Chosen.decided (hv : Voting members s) {index : ℕ} {quorum : List M}
    (hrole : s.role v = .leader) (hpos : 0 < index) (hhigh : index ≤ (s.log v).length)
    (hcurrent : lastTerm termOf ((s.log v).take index) = s.term v) (hmaj : Majority members quorum)
    (hacks : ∀ q ∈ quorum, q = v ∨ ∃ m, index ≤ m ∧ (q, s.term v, m) ∈ s.acks) :
    Chosen termOf members s (s.term v) ((s.log v).take index) := by
  have hown := hv.leader_led v hrole
  have hlen : ((s.log v).take index).length = index := by
    rw [List.length_take]
    omega
  refine ⟨⟨⟨v, _, hown, List.take_prefix _ _⟩, ?_, hcurrent⟩, quorum, hmaj, fun q hq => ?_⟩
  · exact List.length_pos_iff.mp (by omega)
  · rcases hacks q hq with rfl | ⟨m, hm, hack⟩
    · exact Or.inr ⟨_, hown, List.take_prefix _ _⟩
    · exact Or.inl ⟨m, by omega, hack⟩

/-- The part of the leader's log that an offer calls committed, in a log that extends it. -/
theorem take_of_offer {log L : List E} {k : ℕ} (hk : k ≤ L.length) (hpre : L <+: log) :
    min k log.length = k ∧ log.take k = L.take k := by
  obtain ⟨rest, rfl⟩ := hpre
  rw [List.length_append, List.take_append_of_le_length hk]
  exact ⟨by omega, rfl⟩

/-- The member's commit index moves up to an agreed prefix. -/
theorem Committing.commitAt (h : Committing termOf members s) {index : ℕ}
    (hgrows : Grows s (s.commitAt v index)) (hsame : ∀ w, w ≠ v → Same s (s.commitAt v index) w)
    (hlow : s.commit v < index) (hhigh : index ≤ (s.log v).length)
    (hagreed : Agreed termOf members s (s.term v) ((s.log v).take index)) :
    Committing termOf members (s.commitAt v index)
      ∧ ∀ w, s.committed w <+: (s.commitAt v index).committed w := by
  have hnew : (s.commitAt v index).commit v = index := Function.update_self ..
  refine h.update hgrows hsame rfl (hnew.le.trans hhigh) ?_ ?_
  · unfold State.committed
    rw [hnew]
    exact hagreed.mono hgrows le_rfl
  · unfold State.committed
    rw [hnew]
    exact List.take_prefix_take_left hlow.le

/-- The member's log changes behind what it has committed. -/
theorem Committing.relog (h : Committing termOf members s) (hgrows : Grows s s')
    (hsame : ∀ w, w ≠ v → Same s s' w) (hcommit : s'.commit v = s.commit v)
    (hoffers : s'.offers = s.offers) (hkept : s.committed v <+: s'.log v) :
    Committing termOf members s' ∧ ∀ w, s.committed w <+: s'.committed w := by
  have hlen : (s.committed v).length = s.commit v := by
    unfold State.committed
    rw [List.length_take]
    exact min_eq_left (h.commit_le v)
  have hown : s'.committed v = s.committed v := by
    have htake := List.prefix_iff_eq_take.mp hkept
    rw [hlen, ← hcommit] at htake
    exact htake.symm
  refine h.update hgrows hsame hoffers ?_ ?_ (hown ▸ List.prefix_refl _)
  · rw [hcommit, ← hlen]
    exact hkept.length_le
  · rw [hown]
    exact (h.agreed v).mono hgrows (hgrows.term v)

theorem Committing.step (h : Committing termOf members s) (hs : Safety termOf members s)
    (hl : Leading termOf s) (hv : Voting members s) (hstep : Step termOf members v s s') :
    Committing termOf members s' ∧ ∀ v, s.committed v <+: s'.committed v := by
  have hgrows := hstep.grows
  have hsame : ∀ w, w ≠ v → Same s s' w := fun w => hstep.same
  cases hstep with
  | offer hrole =>
    refine ⟨⟨h.commit_le, fun w => (h.agreed w).mono hgrows le_rfl, ?_, ?_⟩,
      fun _ => List.prefix_refl _⟩
    · intro l t L k hk
      rcases hk with hk | hk
      · cases hk
        exact h.commit_le v
      · exact h.offer_le l t L k hk
    · intro l t L k hk
      rcases hk with hk | hk
      · cases hk
        exact (h.agreed v).mono hgrows le_rfl
      · exact (h.offer_agreed l t L k hk).mono hgrows le_rfl
  | propose entry hrole hentry =>
    refine h.relog hgrows hsame rfl rfl ?_
    simp only [State.propose, Function.update_self]
    exact (List.take_prefix _ _).trans (List.prefix_append _ _)
  | adopt l log hrole hled hconflict =>
    refine h.relog hgrows hsame rfl rfl ?_
    simp only [State.adopt, Function.update_self]
    exact (h.agreed v).adopt hs hl hv (List.take_prefix _ _) hled hconflict
  | decide index quorum hrole hlow hhigh hcurrent hmaj hacks =>
    have hchosen := Chosen.decided hv hrole (by omega) hhigh hcurrent hmaj hacks
    exact h.commitAt hgrows hsame hlow hhigh (Or.inr ⟨_, le_rfl, _, hchosen, List.prefix_refl _⟩)
  | learn l log index hoffer hpre hlow =>
    obtain ⟨hmin, htake⟩ := take_of_offer (h.offer_le l _ log index hoffer) hpre
    rw [hmin] at hgrows hsame ⊢
    exact h.commitAt hgrows hsame hlow (hmin ▸ min_le_right _ _)
      (htake ▸ h.offer_agreed l _ log index hoffer)
  | _ =>
    -- the other moves leave the logs and the commit indices alone
    exact h.update hgrows hsame rfl (h.commit_le v) ((h.agreed v).mono hgrows (hgrows.term v))
      (List.prefix_refl _)

end Moves

end Blut.Lib.Replication
