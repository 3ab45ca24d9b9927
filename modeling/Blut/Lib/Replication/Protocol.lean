/-
  Leader-based replication of a log, as an abstract protocol.

  The state keeps, beside what each member holds, everything that was ever said: who stood in a
  term and with which log, who voted for whom, which logs a leader had, what it offered and what
  was acknowledged. These sets only grow, so a message that is lost, repeated or late is one that
  stays in its set. `Step` lists the moves; `Grows` says what every one of them keeps.
-/
import Mathlib.Tactic

namespace Blut.Lib.Replication

/-! ## Majorities -/

section Majority

variable {M : Type}

/-- Distinct members, more than half of them. -/
structure Majority (members quorum : List M) : Prop where
  nodup : quorum.Nodup
  subset : quorum ⊆ members
  half : members.length / 2 + 1 ≤ quorum.length

/-- Two majorities share a member: apart they would be too many. -/
theorem Majority.inter {members Q Q' : List M} (h : Majority members Q) (h' : Majority members Q') :
    ∃ q, q ∈ Q ∧ q ∈ Q' := by
  by_contra hnone
  push Not at hnone
  have hdisj : (Q ++ Q').Nodup := by
    rw [List.nodup_append']
    exact ⟨h.nodup, h'.nodup, fun q hq hq' => hnone q hq hq'⟩
  have hsub : Q ++ Q' ⊆ members := List.append_subset.mpr ⟨h.subset, h'.subset⟩
  have hle := (hdisj.subperm hsub).length_le
  have hh := h.half
  have hh' := h'.half
  rw [List.length_append] at hle
  omega

end Majority

/-! ## Logs -/

section Logs

variable {E : Type} (termOf : E → ℕ)

/-- The term of the last entry, 0 for the empty log. -/
def lastTerm (log : List E) : ℕ := (log.getLast?.map termOf).getD 0

/-- The first log is at least as recent as the second: by last term, then by length. -/
def UpToDate (log log' : List E) : Prop :=
  lastTerm termOf log' < lastTerm termOf log
    ∨ (lastTerm termOf log' = lastTerm termOf log ∧ log'.length ≤ log.length)

variable {termOf}

variable {P log : List E} {e : E}

/-- Prefixes of comparable logs are comparable. -/
theorem comparable_of_prefix {P' L L' : List E} (h : P <+: L) (h' : P' <+: L')
    (hL : L <+: L' ∨ L' <+: L) : P <+: P' ∨ P' <+: P := by
  rcases hL with hL | hL
  · exact List.prefix_or_prefix_of_prefix (h.trans hL) h'
  · exact List.prefix_or_prefix_of_prefix h (h'.trans hL)

theorem prefix_of_comparable {P' : List E} (h : P <+: P' ∨ P' <+: P) (hlen : P.length ≤ P'.length) :
    P <+: P' := by
  rcases h with h | h
  · exact h
  · rw [h.eq_of_length (le_antisymm h.length_le hlen)]

/-- Of an append of one entry, a prefix is an old prefix or the whole. -/
theorem prefix_concat {L : List E} (h : P <+: L ++ [e]) : P <+: L ∨ P = L ++ [e] := by
  rcases List.prefix_concat_iff.mp h with h | h
  · exact Or.inr h
  · exact Or.inl h

theorem lastTerm_of_getLast? (h : log.getLast? = some e) : lastTerm termOf log = termOf e := by
  unfold lastTerm
  rw [h]
  rfl

theorem exists_last_of_ne_nil (termOf : E → ℕ) (h : log ≠ []) :
    ∃ e, log[log.length - 1]? = some e ∧ lastTerm termOf log = termOf e := by
  refine ⟨log.getLast h, ?_, lastTerm_of_getLast? (List.getLast?_eq_some_getLast h)⟩
  rw [← List.getLast?_eq_getElem?, List.getLast?_eq_some_getLast h]

/-- In a log of ascending terms no entry is from a later term than the last. -/
theorem le_lastTerm (hord : log.Pairwise fun a b => termOf a ≤ termOf b) (he : e ∈ log) :
    termOf e ≤ lastTerm termOf log := by
  obtain ⟨init, last, rfl⟩ := List.eq_nil_or_concat log |>.resolve_left (List.ne_nil_of_mem he)
  rw [List.concat_eq_append] at he hord ⊢
  rw [lastTerm_of_getLast? (List.getLast?_concat ..)]
  rw [List.pairwise_append] at hord
  rcases List.mem_append.mp he with he | he
  · exact hord.2.2 e he last List.mem_cons_self
  · rw [List.mem_singleton.mp he]

end Logs

/-! ## States and moves -/

inductive Role where
  | follower
  | candidate
  | leader
  deriving DecidableEq, Repr

structure State (M E : Type) where
  term : M → ℕ
  /-- The candidate a member has voted for in its term. -/
  ballot : M → Option M
  role : M → Role
  log : M → List E
  commit : M → ℕ
  /-- Candidate, term and the candidate's log. -/
  stood : Set (M × ℕ × List E)
  /-- Voter, term and candidate. -/
  cast : Set (M × ℕ × M)
  /-- Leader, term and a log it had in it. -/
  led : Set (M × ℕ × List E)
  /-- Leader, term, the log offered and the commit index that came with it. -/
  offers : Set (M × ℕ × List E × ℕ)
  /-- Follower, term and the length of log it claims to share with the leader. -/
  acks : Set (M × ℕ × ℕ)

section Steps

variable {M E : Type} [DecidableEq M]

def State.empty : State M E where
  term := fun _ => 0
  ballot := fun _ => none
  role := fun _ => .follower
  log := fun _ => []
  commit := fun _ => 0
  stood := ∅
  cast := ∅
  led := ∅
  offers := ∅
  acks := ∅

open Function

/-- The member goes on to term `t`. -/
def State.stepDown (s : State M E) (v : M) (t : ℕ) : State M E :=
  { s with
    term := update s.term v t
    ballot := update s.ballot v none
    role := update s.role v .follower }

/-- The member stands in the next term and votes for itself. -/
def State.stand (s : State M E) (v : M) : State M E :=
  { s with
    term := update s.term v (s.term v + 1)
    ballot := update s.ballot v (some v)
    role := update s.role v .candidate
    stood := insert (v, s.term v + 1, s.log v) s.stood
    cast := insert (v, s.term v + 1, v) s.cast }

def State.grant (s : State M E) (v c : M) : State M E :=
  { s with
    ballot := update s.ballot v (some c)
    cast := insert (v, s.term v, c) s.cast }

def State.lead (s : State M E) (v : M) : State M E :=
  { s with
    role := update s.role v .leader
    led := insert (v, s.term v, s.log v) s.led }

def State.propose (s : State M E) (v : M) (entry : E) : State M E :=
  { s with
    log := update s.log v (s.log v ++ [entry])
    led := insert (v, s.term v, s.log v ++ [entry]) s.led }

def State.offer (s : State M E) (v : M) : State M E :=
  { s with offers := insert (v, s.term v, s.log v, s.commit v) s.offers }

def State.concede (s : State M E) (v : M) : State M E :=
  { s with role := update s.role v .follower }

def State.adopt (s : State M E) (v : M) (log : List E) : State M E :=
  { s with log := update s.log v log }

def State.ack (s : State M E) (v : M) : State M E :=
  { s with acks := insert (v, s.term v, (s.log v).length) s.acks }

def State.commitAt (s : State M E) (v : M) (index : ℕ) : State M E :=
  { s with commit := update s.commit v index }

/-- One move of the member `v`. -/
inductive Step (termOf : E → ℕ) (members : List M) (v : M) : State M E → State M E → Prop
  /-- A later term was heard of. -/
  | stepDown {s : State M E} (t : ℕ) (hterm : s.term v < t) :
    Step termOf members v s (s.stepDown v t)
  | stand {s : State M E} (hrole : s.role v ≠ .leader) :
    Step termOf members v s (s.stand v)
  | grant {s : State M E} (c : M) (log : List E) (hstood : (c, s.term v, log) ∈ s.stood)
      (hfree : s.ballot v = none ∨ s.ballot v = some c) (hrecent : UpToDate termOf log (s.log v)) :
    Step termOf members v s (s.grant v c)
  | lead {s : State M E} (quorum : List M) (hrole : s.role v = .candidate)
      (hmaj : Majority members quorum) (hvotes : ∀ q ∈ quorum, (q, s.term v, v) ∈ s.cast) :
    Step termOf members v s (s.lead v)
  | propose {s : State M E} (entry : E) (hrole : s.role v = .leader)
      (hentry : termOf entry = s.term v) :
    Step termOf members v s (s.propose v entry)
  | offer {s : State M E} (hrole : s.role v = .leader) :
    Step termOf members v s (s.offer v)
  /-- Another member leads the term. -/
  | concede {s : State M E} (l : M) (log : List E) (hne : l ≠ v)
      (hled : (l, s.term v, log) ∈ s.led) :
    Step termOf members v s (s.concede v)
  /-- The leader's log replaces one that does not extend it. -/
  | adopt {s : State M E} (l : M) (log : List E) (hrole : s.role v = .follower)
      (hled : (l, s.term v, log) ∈ s.led) (hconflict : ¬ log <+: s.log v) :
    Step termOf members v s (s.adopt v log)
  | ack {s : State M E} (l : M) (log : List E) (hled : (l, s.term v, log) ∈ s.led)
      (hpre : log <+: s.log v) :
    Step termOf members v s (s.ack v)
  /-- The leader counts the members that acknowledged an entry of its term. -/
  | decide {s : State M E} (index : ℕ) (quorum : List M) (hrole : s.role v = .leader)
      (hlow : s.commit v < index) (hhigh : index ≤ (s.log v).length)
      (hcurrent : lastTerm termOf ((s.log v).take index) = s.term v)
      (hmaj : Majority members quorum)
      (hacks : ∀ q ∈ quorum, q = v ∨ ∃ m, index ≤ m ∧ (q, s.term v, m) ∈ s.acks) :
    Step termOf members v s (s.commitAt v index)
  | learn {s : State M E} (l : M) (log : List E) (index : ℕ)
      (hoffer : (l, s.term v, log, index) ∈ s.offers) (hpre : log <+: s.log v)
      (hlow : s.commit v < index) :
    Step termOf members v s (s.commitAt v (min index (s.log v).length))

/-- What every move keeps: terms rise, nothing said is taken back, and a member leads or
    acknowledges only in the term it is in. -/
structure Grows (s s' : State M E) : Prop where
  term : ∀ v, s.term v ≤ s'.term v
  stood : s.stood ⊆ s'.stood
  cast : s.cast ⊆ s'.cast
  led : s.led ⊆ s'.led
  offers : s.offers ⊆ s'.offers
  acks : s.acks ⊆ s'.acks
  led_new : ∀ v t L, (v, t, L) ∈ s'.led → (v, t, L) ∈ s.led ∨ s.term v = t
  acks_new : ∀ v t m, (v, t, m) ∈ s'.acks → (v, t, m) ∈ s.acks ∨ s.term v = t

omit [DecidableEq M] in
theorem Grows.refl (s : State M E) : Grows s s where
  term := fun _ => le_rfl
  stood := subset_rfl
  cast := subset_rfl
  led := subset_rfl
  offers := subset_rfl
  acks := subset_rfl
  led_new := fun _ _ _ h => Or.inl h
  acks_new := fun _ _ _ h => Or.inl h

variable {v : M}

theorem le_update {f : M → ℕ} {t : ℕ} (h : f v ≤ t) (w : M) : f w ≤ Function.update f v t w := by
  by_cases hw : w = v
  · subst hw
    rw [Function.update_self]
    exact h
  · rw [Function.update_of_ne hw]

omit [DecidableEq M] in
/-- What is new after an insertion was inserted. -/
theorem new_of_insert {A : Type} {S : Set (M × ℕ × A)} {w : M} {t u : ℕ} {a b : A}
    (h : (w, u, b) ∈ insert (v, t, a) S) : (w, u, b) ∈ S ∨ (v = w ∧ t = u) := by
  rcases h with heq | hmem
  · cases heq
    exact Or.inr ⟨rfl, rfl⟩
  · exact Or.inl hmem

section Inserted

variable {A : Type} {S : Set (M × ℕ × A)} {t : ℕ} {a : A}

omit [DecidableEq M] in
theorem forall_insert {P : M → ℕ → A → Prop} (hnew : P v t a) (h : ∀ w u b, (w, u, b) ∈ S → P w u b)
    (w : M) (u : ℕ) (b : A) (hb : (w, u, b) ∈ insert (v, t, a) S) : P w u b := by
  rcases hb with hb | hb
  · cases hb
    exact hnew
  · exact h w u b hb

omit [DecidableEq M] in
/-- A relation between the elements of one member and one term, after an insertion. -/
theorem related_of_insert {R : A → A → Prop} (h : ∀ w u b c, (w, u, b) ∈ S → (w, u, c) ∈ S → R b c)
    (hself : R a a) (hnew : ∀ b, (v, t, b) ∈ S → R a b ∧ R b a) (w : M) (u : ℕ) (b c : A)
    (hb : (w, u, b) ∈ insert (v, t, a) S) (hc : (w, u, c) ∈ insert (v, t, a) S) : R b c := by
  rcases hb with hb | hb <;> rcases hc with hc | hc
  · cases hb
    cases hc
    exact hself
  · cases hb
    exact (hnew c hc).1
  · cases hc
    exact (hnew b hb).2
  · exact h w u b c hb hc

end Inserted

theorem Step.grows {termOf : E → ℕ} {members : List M} {s s' : State M E}
    (h : Step termOf members v s s') : Grows s s' := by
  -- each move changes the one or two parts it names
  have hrefl := Grows.refl s
  cases h with
  | stepDown t hterm => exact { hrefl with term := le_update hterm.le }
  | stand _ =>
    exact { hrefl with
      term := le_update (Nat.le_succ _)
      stood := Set.subset_insert _ _
      cast := Set.subset_insert _ _ }
  | grant c log _ _ _ => exact { hrefl with cast := Set.subset_insert _ _ }
  | lead | propose =>
    refine { hrefl with led := Set.subset_insert _ _, led_new := ?_ }
    intro w t L hmem
    exact (new_of_insert hmem).imp_right fun ⟨hw, ht⟩ => hw ▸ ht
  | ack l log _ _ =>
    refine { hrefl with acks := Set.subset_insert _ _, acks_new := ?_ }
    intro w t m hmem
    exact (new_of_insert hmem).imp_right fun ⟨hw, ht⟩ => hw ▸ ht
  | offer _ => exact { hrefl with offers := Set.subset_insert _ _ }
  | concede | adopt | decide | learn => exact { hrefl with }

/-- The part of one member is as it was. -/
structure Same (s s' : State M E) (w : M) : Prop where
  term : s'.term w = s.term w
  ballot : s'.ballot w = s.ballot w
  role : s'.role w = s.role w
  log : s'.log w = s.log w
  commit : s'.commit w = s.commit w

section

variable {termOf : E → ℕ} {members : List M} {s s' : State M E} {w : M}
  (h : Step termOf members v s s') (hw : w ≠ v)
include h hw

theorem Step.same : Same s s' w := by
  cases h <;> constructor <;> first | rfl | exact Function.update_of_ne hw _ _

/-- The votes and the logs led with that a move adds are the mover's. -/
theorem Step.of_other : (∀ t c, (w, t, c) ∈ s'.cast → (w, t, c) ∈ s.cast) ∧
    ∀ t L, (w, t, L) ∈ s'.led → (w, t, L) ∈ s.led := by
  cases h <;> refine ⟨fun t c hc => ?_, fun t L hL => ?_⟩ <;>
    first
    | assumption
    | exact (new_of_insert hc).resolve_right fun h => hw h.1.symm
    | exact (new_of_insert hL).resolve_right fun h => hw h.1.symm

end

end Steps

end Blut.Lib.Replication
