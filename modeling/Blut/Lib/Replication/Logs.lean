/-
  The logs a term's leader has had, and log matching.

  Within a term the leader's log only grows (`Leading.chain`). Every entry of every log was put
  there by the leader of the entry's term, with all that stands before it (`Rooted`), so two logs
  with an entry of one term at one place agree up to it (`Leading.agree`).
-/
import Blut.Lib.Replication.Election

namespace Blut.Lib.Replication

variable {M E : Type} {termOf : E → ℕ} {members : List M}

/-! ## Sound logs -/

variable {led' : Set (M × ℕ × List E)}

/-- Up to each entry the log is one that the leader of the entry's term had. -/
def Rooted (termOf : E → ℕ) (led : Set (M × ℕ × List E)) (log : List E) : Prop :=
  ∀ k e, log[k]? = some e → ∃ l L, (l, termOf e, L) ∈ led ∧ log.take (k + 1) <+: L

/-- A log held in term `t`: rooted, with terms that ascend up to `t`. -/
structure Sound (termOf : E → ℕ) (led : Set (M × ℕ × List E)) (t : ℕ) (log : List E) : Prop where
  rooted : Rooted termOf led log
  ordered : log.Pairwise fun a b => termOf a ≤ termOf b
  bounded : ∀ e ∈ log, termOf e ≤ t

variable {led : Set (M × ℕ × List E)} {t : ℕ} {log : List E} {s : State M E}

theorem Rooted.mono (hled : led ⊆ led') (h : Rooted termOf led log) : Rooted termOf led' log := by
  intro k e he
  obtain ⟨l, L, hmem, hpre⟩ := h k e he
  exact ⟨l, L, hled hmem, hpre⟩

theorem Sound.mono (hled : led ⊆ led') {t' : ℕ} (ht : t ≤ t') (h : Sound termOf led t log) :
    Sound termOf led' t' log where
  rooted := h.rooted.mono hled
  ordered := h.ordered
  bounded := fun e he => (h.bounded e he).trans ht

theorem Sound.nil (led : Set (M × ℕ × List E)) (t : ℕ) : Sound termOf led t [] where
  rooted := fun _ _ h => absurd h (by simp)
  ordered := List.Pairwise.nil
  bounded := fun _ h => absurd h List.not_mem_nil

/-- The leader's new entry is rooted in the very log that it extends. -/
theorem Sound.concat (hled : led ⊆ led') (h : Sound termOf led t log) {entry : E} {l : M}
    (hentry : termOf entry = t) (hmem : (l, t, log ++ [entry]) ∈ led') :
    Sound termOf led' t (log ++ [entry]) where
  rooted := by
    intro k e he
    rcases lt_or_ge k log.length with hk | hk
    · rw [List.getElem?_append_left hk] at he
      obtain ⟨l', L, hmem', hpre⟩ := h.rooted k e he
      refine ⟨l', L, hled hmem', ?_⟩
      rw [List.take_append_of_le_length hk]
      exact hpre
    · rw [List.getElem?_append_right hk] at he
      obtain ⟨-, rfl⟩ : k - log.length = 0 ∧ entry = e := by
        rcases hd : k - log.length with - | d
        · rw [hd] at he
          exact ⟨rfl, by simpa using he⟩
        · rw [hd] at he
          simp at he
      exact ⟨l, _, hentry ▸ hmem, List.take_prefix _ _⟩
  ordered := by
    rw [List.pairwise_append]
    refine ⟨h.ordered, List.pairwise_singleton _ _, ?_⟩
    intro a ha b hb
    rw [List.mem_singleton.mp hb, hentry]
    exact h.bounded a ha
  bounded := by
    intro e he
    rcases List.mem_append.mp he with he | he
    · exact h.bounded e he
    · rw [List.mem_singleton.mp he, hentry]

/-! ## Leaders and candidates -/

structure Leading (termOf : E → ℕ) (s : State M E) : Prop where
  led_term : ∀ v t L, (v, t, L) ∈ s.led → t ≤ s.term v
  /-- Who led its present term still leads it. -/
  led_now : ∀ v L, (v, s.term v, L) ∈ s.led → s.role v = .leader ∧ L <+: s.log v
  led_chain : ∀ v t L L', (v, t, L) ∈ s.led → (v, t, L') ∈ s.led → L <+: L' ∨ L' <+: L
  stood_term : ∀ v t I, (v, t, I) ∈ s.stood → t ≤ s.term v
  stood_now : ∀ v, s.role v = .candidate → (v, s.term v, s.log v) ∈ s.stood
  stood_unique : ∀ v t I I', (v, t, I) ∈ s.stood → (v, t, I') ∈ s.stood → I = I'
  log_sound : ∀ v, Sound termOf s.led (s.term v) (s.log v)
  led_sound : ∀ l t L, (l, t, L) ∈ s.led → Sound termOf s.led t L
  stood_sound : ∀ c t I, (c, t, I) ∈ s.stood → Sound termOf s.led t I

/-- The logs of a term's leaders are comparable. -/
theorem Leading.chain (h : Leading termOf s) (hv : Voting members s) {l l' : M} {L L' : List E}
    (hl : (l, t, L) ∈ s.led) (hl' : (l', t, L') ∈ s.led) : L <+: L' ∨ L' <+: L := by
  obtain rfl := hv.led_unique hl hl'
  exact h.led_chain l t L L' hl hl'

/-- Log matching. -/
theorem Leading.agree (h : Leading termOf s) (hv : Voting members s) {log' : List E}
    (hroot : Rooted termOf s.led log) (hroot' : Rooted termOf s.led log') {k : ℕ} {e e' : E}
    (he : log[k]? = some e) (he' : log'[k]? = some e') (hterm : termOf e = termOf e') :
    log.take (k + 1) = log'.take (k + 1) := by
  obtain ⟨l, L, hL, hpre⟩ := hroot k e he
  obtain ⟨l', L', hL', hpre'⟩ := hroot' k e' he'
  have hlen : (log.take (k + 1)).length = (log'.take (k + 1)).length := by
    have hk := (List.getElem?_eq_some_iff.mp he).1
    have hk' := (List.getElem?_eq_some_iff.mp he').1
    rw [List.length_take, List.length_take]
    omega
  rw [← hterm] at hL'
  have hcomp := comparable_of_prefix hpre hpre' (h.chain hv hL hL')
  exact (prefix_of_comparable hcomp hlen.le).eq_of_length hlen

theorem Rooted.of_prefix {P : List E} (h : Rooted termOf led log) (hpre : P <+: log) :
    Rooted termOf led P := by
  intro k e he
  obtain ⟨rest, rfl⟩ := hpre
  have hk := (List.getElem?_eq_some_iff.mp he).1
  obtain ⟨l, L, hL, htake⟩ := h k e (by rw [List.getElem?_append_left hk, he])
  rw [List.take_append_of_le_length hk] at htake
  exact ⟨l, L, hL, htake⟩

/-- A nonempty rooted log is one that the leader of its last term had. -/
theorem Rooted.whole (h : Rooted termOf led log) (hne : log ≠ []) :
    ∃ l L, (l, lastTerm termOf log, L) ∈ led ∧ log <+: L := by
  obtain ⟨e, he, hlast⟩ := exists_last_of_ne_nil termOf hne
  obtain ⟨l, L, hmem, hpre⟩ := h _ e he
  have hlen := (List.getElem?_eq_some_iff.mp he).1
  rw [Nat.sub_add_cancel (by omega), List.take_length] at hpre
  exact ⟨l, L, hlast ▸ hmem, hpre⟩

theorem Leading.empty : Leading termOf (State.empty : State M E) where
  led_term := fun _ _ _ h => absurd h (Set.notMem_empty _)
  led_now := fun _ _ h => absurd h (Set.notMem_empty _)
  led_chain := fun _ _ _ _ h => absurd h (Set.notMem_empty _)
  stood_term := fun _ _ _ h => absurd h (Set.notMem_empty _)
  stood_now := fun _ h => absurd h (by simp [State.empty])
  stood_unique := fun _ _ _ _ h => absurd h (Set.notMem_empty _)
  log_sound := fun _ => Sound.nil _ _
  led_sound := fun _ _ _ h => absurd h (Set.notMem_empty _)
  stood_sound := fun _ _ _ h => absurd h (Set.notMem_empty _)

variable {v : M}

theorem Leading.led_fresh (h : Leading termOf s) (hrole : s.role v ≠ .leader) (L : List E) :
    (v, s.term v, L) ∉ s.led :=
  fun hL => hrole (h.led_now v L hL).1

theorem Leading.led_above (h : Leading termOf s) (ht : s.term v < t) (L : List E) :
    (v, t, L) ∉ s.led :=
  fun hL => absurd (h.led_term v t L hL) (by omega)

variable [DecidableEq M]

theorem Leading.step {v : M} {s' : State M E} (h : Leading termOf s) (hv : Voting members s)
    (hstep : Step termOf members v s s') : Leading termOf s' := by
  have hgrows := hstep.grows
  have hsound : ∀ w, Sound termOf s'.led (s'.term w) (s.log w) := fun w =>
    (h.log_sound w).mono hgrows.led (hgrows.term w)
  have hled_term : ∀ w u L, (w, u, L) ∈ s.led → u ≤ s'.term w := fun w u L hL =>
    (h.led_term w u L hL).trans (hgrows.term w)
  have hstood_term : ∀ w u I, (w, u, I) ∈ s.stood → u ≤ s'.term w := fun w u I hI =>
    (h.stood_term w u I hI).trans (hgrows.term w)
  have hled_sound : ∀ l t L, (l, t, L) ∈ s.led → Sound termOf s'.led t L := fun l t L hL =>
    (h.led_sound l t L hL).mono hgrows.led le_rfl
  have hstood_sound : ∀ c t I, (c, t, I) ∈ s.stood → Sound termOf s'.led t I := fun c t I hI =>
    (h.stood_sound c t I hI).mono hgrows.led le_rfl
  -- the others' parts are as they were, so only `v` is left to look at
  have hled_now (hself : ∀ L, (v, s'.term v, L) ∈ s'.led → s'.role v = .leader ∧ L <+: s'.log v)
      (w : M) (L : List E) (hL : (w, s'.term w, L) ∈ s'.led) :
      s'.role w = .leader ∧ L <+: s'.log w := by
    by_cases hw : w = v
    · subst hw
      exact hself L hL
    · rw [(hstep.same hw).term] at hL
      rw [(hstep.same hw).role, (hstep.same hw).log]
      exact h.led_now w L ((hstep.of_other hw).2 _ L hL)
  have hstood_now (hself : s'.role v = .candidate → (v, s'.term v, s'.log v) ∈ s'.stood) (w : M)
      (hrole : s'.role w = .candidate) : (w, s'.term w, s'.log w) ∈ s'.stood := by
    by_cases hw : w = v
    · subst hw
      exact hself hrole
    · rw [(hstep.same hw).role] at hrole
      rw [(hstep.same hw).term, (hstep.same hw).log]
      exact hgrows.stood (h.stood_now w hrole)
  cases hstep with
  | stepDown t hterm =>
    exact { h with
      led_term := hled_term
      led_now := hled_now fun L hL =>
        absurd (by simpa [State.stepDown] using hL) (h.led_above hterm L)
      stood_term := hstood_term
      stood_now := hstood_now fun hrole => absurd hrole (by simp [State.stepDown])
      log_sound := hsound }
  | stand hrole =>
    have hfresh : ∀ I, (v, s.term v + 1, I) ∉ s.stood := fun I hI =>
      absurd (h.stood_term v _ I hI) (by omega)
    exact { h with
      led_term := hled_term
      led_now := hled_now fun L hL =>
        absurd (by simpa [State.stand] using hL) (h.led_above (Nat.lt_succ_self (s.term v)) L)
      stood_term := forall_insert (by simp [State.stand]) hstood_term
      stood_now := hstood_now fun _ => by simp [State.stand]
      stood_unique := related_of_insert h.stood_unique rfl fun I hI => absurd hI (hfresh I)
      log_sound := hsound
      stood_sound := forall_insert ((h.log_sound v).mono subset_rfl (Nat.le_succ _)) h.stood_sound }
  | lead quorum hrole hmaj hvotes =>
    -- `v` is a candidate of its term, so it has not led it yet
    have hfresh := h.led_fresh (v := v) (by simp [hrole])
    refine { h with
      led_term := forall_insert le_rfl h.led_term
      led_now := hled_now fun L hL => ⟨Function.update_self .., ?_⟩
      led_chain := related_of_insert h.led_chain (Or.inl (List.prefix_refl _))
        fun L hL => absurd hL (hfresh L)
      stood_now := hstood_now fun hcand => absurd hcand (by simp [State.lead])
      log_sound := hsound
      led_sound := forall_insert (hsound v) hled_sound
      stood_sound := hstood_sound }
    rcases hL with hL | hL
    · cases hL
      exact List.prefix_refl _
    · exact absurd hL (hfresh L)
  | propose entry hrole hentry =>
    have hnew := (h.log_sound v).concat hgrows.led hentry (Set.mem_insert _ _)
    have hgrown : ∀ L, (v, s.term v, L) ∈ s.led → L <+: s.log v ++ [entry] := fun L hL =>
      (h.led_now v L hL).2.trans (List.prefix_append _ _)
    refine { h with
      led_term := forall_insert le_rfl h.led_term
      led_now := hled_now fun L hL => ⟨hrole, ?_⟩
      led_chain := related_of_insert h.led_chain (Or.inl (List.prefix_refl _))
        fun L hL => ⟨Or.inr (hgrown L hL), Or.inl (hgrown L hL)⟩
      stood_now := hstood_now fun hcand => absurd (hrole.symm.trans hcand) (by decide)
      log_sound := ?_
      led_sound := forall_insert hnew hled_sound
      stood_sound := hstood_sound }
    · simp only [State.propose, Function.update_self]
      rcases hL with hL | hL
      · cases hL
        exact List.prefix_refl _
      · exact hgrown L hL
    · exact (Function.forall_update_iff s.log fun w log => Sound termOf _ (s.term w) log).mpr
        ⟨hnew, fun w _ => hsound w⟩
  | concede l log hne hled =>
    exact { h with
      led_now := hled_now fun L hL => absurd (hv.led_unique hled hL) hne
      stood_now := hstood_now fun hcand => absurd hcand (by simp [State.concede]) }
  | adopt l log hrole hled hconflict =>
    exact { h with
      led_now := hled_now fun L hL => absurd hL (h.led_fresh (by simp [hrole]) L)
      stood_now := hstood_now fun hcand => absurd (hrole.symm.trans hcand) (by decide)
      log_sound := (Function.forall_update_iff s.log fun w log => Sound termOf _ (s.term w) log).mpr
        ⟨h.led_sound l _ log hled, fun w _ => h.log_sound w⟩ }
  | grant | offer | ack | decide | learn => exact { h with }

end Blut.Lib.Replication
