/-
  At most one leader in a term.

  A member votes once in a term and who leads has the votes of a majority, so a term has one
  leader ever (`Voting.led_unique`), not only one at a time.
-/
import Blut.Lib.Replication.Protocol

namespace Blut.Lib.Replication

variable {M E : Type} {termOf : E → ℕ} {members : List M}

structure Voting (members : List M) (s : State M E) : Prop where
  cast_term : ∀ v t c, (v, t, c) ∈ s.cast → t ≤ s.term v
  cast_now : ∀ v c, (v, s.term v, c) ∈ s.cast → s.ballot v = some c
  cast_unique : ∀ v t c c', (v, t, c) ∈ s.cast → (v, t, c') ∈ s.cast → c = c'
  elected : ∀ l t L, (l, t, L) ∈ s.led →
    ∃ Q, Majority members Q ∧ ∀ q ∈ Q, (q, t, l) ∈ s.cast
  leader_led : ∀ v, s.role v = .leader → (v, s.term v, s.log v) ∈ s.led
  offer_led : ∀ l t L k, (l, t, L, k) ∈ s.offers → (l, t, L) ∈ s.led

variable {s : State M E} {t : ℕ} {l v : M}

/-- The votes of two majorities in one term go to one candidate. -/
theorem Voting.winner_unique (h : Voting members s) {l' : M} {Q Q' : List M}
    (hQ : Majority members Q) (hQ' : Majority members Q') (hl : ∀ q ∈ Q, (q, t, l) ∈ s.cast)
    (hl' : ∀ q ∈ Q', (q, t, l') ∈ s.cast) : l = l' := by
  obtain ⟨q, hq, hq'⟩ := hQ.inter hQ'
  exact h.cast_unique q t l l' (hl q hq) (hl' q hq')

theorem Voting.led_unique (h : Voting members s) {l' : M} {L L' : List E} (hl : (l, t, L) ∈ s.led)
    (hl' : (l', t, L') ∈ s.led) : l = l' := by
  obtain ⟨Q, hQ, hvotes⟩ := h.elected l t L hl
  obtain ⟨Q', hQ', hvotes'⟩ := h.elected l' t L' hl'
  exact h.winner_unique hQ hQ' hvotes hvotes'

theorem Voting.empty : Voting members (State.empty : State M E) where
  cast_term := fun _ _ _ h => absurd h (Set.notMem_empty _)
  cast_now := fun _ _ h => absurd h (Set.notMem_empty _)
  cast_unique := fun _ _ _ _ h => absurd h (Set.notMem_empty _)
  elected := fun _ _ _ h => absurd h (Set.notMem_empty _)
  leader_led := fun _ h => absurd h (by simp [State.empty])
  offer_led := fun _ _ _ _ h => absurd h (Set.notMem_empty _)

theorem elected_mono {s' : State M E} (hcast : s.cast ⊆ s'.cast)
    (h : ∃ Q, Majority members Q ∧ ∀ q ∈ Q, (q, t, l) ∈ s.cast) :
    ∃ Q, Majority members Q ∧ ∀ q ∈ Q, (q, t, l) ∈ s'.cast := by
  obtain ⟨Q, hQ, hvotes⟩ := h
  exact ⟨Q, hQ, fun q hq => hcast (hvotes q hq)⟩

/-- A member in a term above all its votes has cast none there. -/
theorem Voting.cast_fresh (h : Voting members s) (ht : s.term v < t)
    (c : M) : (v, t, c) ∉ s.cast := by
  intro hc
  have hle := h.cast_term v t c hc
  omega

variable [DecidableEq M]

theorem Voting.step {s' : State M E} (h : Voting members s) (hstep : Step termOf members v s s') :
    Voting members s' := by
  have hgrows := hstep.grows
  have hcast_term : ∀ w u c, (w, u, c) ∈ s.cast → u ≤ s'.term w := fun w u c hc =>
    (h.cast_term w u c hc).trans (hgrows.term w)
  have helected : ∀ l t L, (l, t, L) ∈ s.led →
      ∃ Q, Majority members Q ∧ ∀ q ∈ Q, (q, t, l) ∈ s'.cast := fun l t L hl =>
    elected_mono hgrows.cast (h.elected l t L hl)
  -- the others' parts are as they were, so only `v` is left to look at
  have hcast_now (hself : ∀ c, (v, s'.term v, c) ∈ s'.cast → s'.ballot v = some c) (w c : M)
      (hc : (w, s'.term w, c) ∈ s'.cast) : s'.ballot w = some c := by
    by_cases hw : w = v
    · subst hw
      exact hself c hc
    · rw [(hstep.same hw).term] at hc
      rw [(hstep.same hw).ballot]
      exact h.cast_now w c ((hstep.of_other hw).1 _ c hc)
  have hleader_led (hself : s'.role v = .leader → (v, s'.term v, s'.log v) ∈ s'.led) (w : M)
      (hrole : s'.role w = .leader) : (w, s'.term w, s'.log w) ∈ s'.led := by
    by_cases hw : w = v
    · subst hw
      exact hself hrole
    · rw [(hstep.same hw).role] at hrole
      rw [(hstep.same hw).term, (hstep.same hw).log]
      exact hgrows.led (h.leader_led w hrole)
  cases hstep with
  | stepDown t hterm =>
    exact { h with
      cast_term := hcast_term
      cast_now := hcast_now fun c hc =>
        absurd (by simpa [State.stepDown] using hc) (h.cast_fresh hterm c)
      leader_led := hleader_led fun hlead => absurd hlead (by simp [State.stepDown]) }
  | stand hrole =>
    have hfresh := h.cast_fresh (Nat.lt_succ_self (s.term v))
    refine { h with
      cast_term := forall_insert (by simp [State.stand]) hcast_term
      cast_now := hcast_now ?_
      cast_unique := related_of_insert h.cast_unique rfl fun c hc => absurd hc (hfresh c)
      elected := helected
      leader_led := hleader_led fun hlead => absurd hlead (by simp [State.stand]) }
    intro c hc
    simp only [State.stand, Function.update_self] at hc ⊢
    rcases hc with hc | hc
    · cases hc
      rfl
    · exact absurd hc (hfresh c)
  | grant c log hstood hfree hrecent =>
    have honly : ∀ c', (v, s.term v, c') ∈ s.cast → c' = c := by
      intro c' hc'
      have hballot := h.cast_now v c' hc'
      rcases hfree with hfree | hfree
      · rw [hballot] at hfree
        exact absurd hfree (by simp)
      · rw [hballot] at hfree
        exact Option.some.inj hfree
    refine { h with
      cast_term := forall_insert le_rfl h.cast_term
      cast_now := hcast_now ?_
      cast_unique := related_of_insert h.cast_unique rfl
        fun a ha => ⟨(honly a ha).symm, honly a ha⟩
      elected := helected }
    intro a ha
    rcases ha with ha | ha
    · cases ha
      exact Function.update_self ..
    · rw [honly a ha]
      exact Function.update_self ..
  | lead quorum hrole hmaj hvotes =>
    exact { h with
      elected := forall_insert ⟨quorum, hmaj, hvotes⟩ h.elected
      leader_led := hleader_led fun _ => Set.mem_insert _ _
      offer_led := fun l t L k hk => hgrows.led (h.offer_led l t L k hk) }
  | propose entry hrole hentry =>
    exact { h with
      elected := forall_insert (h.elected _ _ _ (h.leader_led v hrole)) h.elected
      leader_led := hleader_led fun _ => by simp [State.propose]
      offer_led := fun l t L k hk => hgrows.led (h.offer_led l t L k hk) }
  | concede l log hne hled =>
    exact { h with
      leader_led := hleader_led fun hlead => absurd hlead (by simp [State.concede]) }
  | adopt l log hrole hled hconflict =>
    exact { h with
      leader_led := hleader_led fun hlead => absurd (hrole.symm.trans hlead) (by decide) }
  | offer hrole =>
    refine { h with offer_led := ?_ }
    intro l t L k hk
    rcases hk with hk | hk
    · cases hk
      exact h.leader_led v hrole
    · exact h.offer_led l t L k hk
  | ack l log hled hpre => exact { h with }
  | decide index quorum hrole hlow hhigh hcurrent hmaj hacks => exact { h with }
  | learn l log index hoffer hpre hlow => exact { h with }

end Blut.Lib.Replication
