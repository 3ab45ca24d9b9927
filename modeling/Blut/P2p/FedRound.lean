/-
  The end of a federated round (`p2p/fedround.rs`).

  `finalizeRound` keeps the deltas whose bytes hash to what was claimed, counts them, and pays the
  sum of their costs into the ledger as one round. It looks neither at who sent a delta nor at the
  sign of a single cost: `finalizeRound_sound_iff` says which inputs that leaves uncovered.
-/
import Blut.P2p.Ledger

namespace Blut.P2p

open Blut.Lib Blut.Types

variable {H K V S P : Type}

/-! ## Model -/

/-- The round's differential-privacy settings are not read here. -/
structure FedRoundConfig where
  corpusId : String
  minClients : Nat

structure CollectedDelta (H P : Type) where
  peer : P
  claimedHash : H
  epsilonCost : ℚ
  bytes : List (Fin 256)

def CollectedDelta.verify [DecidableEq H] (prims : Primitives H K V S) (d : CollectedDelta H P) :
    Bool :=
  prims.ofBytes d.bytes == d.claimedHash

inductive RoundOutcome (P : Type) where
  | aggregate (participants dropped : List P)
  | insufficient (got needed : Nat)
  deriving DecidableEq

inductive RoundError where
  | minClients
  | ledger (e : LedgerError)
  deriving DecidableEq

/-- The deltas that pass the integrity check. -/
def validDeltas [DecidableEq H] (prims : Primitives H K V S)
    (collected : List (CollectedDelta H P)) : List (CollectedDelta H P) :=
  collected.filter fun d => d.verify prims

def totalEpsilon (deltas : List (CollectedDelta H P)) : ℚ :=
  (deltas.map CollectedDelta.epsilonCost).sum

def finalizeRound [DecidableEq H] [DecidableEq P] (prims : Primitives H K V S)
    (config : FedRoundConfig) (dispatched : List P) (collected : List (CollectedDelta H P))
    (owner : K) (ledger : PrivacyLedger H S) :
    Except RoundError (RoundOutcome P) × PrivacyLedger H S :=
  if config.minClients < 2 then (.error .minClients, ledger)
  else
    let valid := validDeltas prims collected
    if valid.length < config.minClients then
      (.ok (.insufficient valid.length config.minClients), ledger)
    else
      match ledger.record prims owner config.corpusId (totalEpsilon valid) with
      | (.error e, ledger) => (.error (.ledger e), ledger)
      | (.ok (), ledger) =>
        let participants := valid.map CollectedDelta.peer
        let dropped := dispatched.filter fun p => !participants.contains p
        (.ok (.aggregate participants dropped), ledger)

/-! ## What a call does -/

/-- The round is large enough and the ledger takes its cost. -/
def Aggregates [DecidableEq H] (prims : Primitives H K V S) (config : FedRoundConfig)
    (collected : List (CollectedDelta H P)) (ledger : PrivacyLedger H S) : Prop :=
  2 ≤ config.minClients ∧ config.minClients ≤ (validDeltas prims collected).length ∧
    ledger.admits config.corpusId (totalEpsilon (validDeltas prims collected)) = .ok () ∧
    ledger.Signable

section

variable [DecidableEq H] [DecidableEq P] (prims : Primitives H K V S) (config : FedRoundConfig)
  (dispatched : List P) (collected : List (CollectedDelta H P)) (owner : K)
  (ledger : PrivacyLedger H S)

/-- A round aggregates exactly when it may, and otherwise leaves the ledger alone. -/
theorem finalizeRound_cases :
    (¬ Aggregates prims config collected ledger ∧
      (finalizeRound prims config dispatched collected owner ledger).2 = ledger ∧
      ∀ participants dropped, (finalizeRound prims config dispatched collected owner ledger).1 ≠
        .ok (.aggregate participants dropped)) ∨
    (Aggregates prims config collected ledger ∧ ∃ round,
      round.corpusId = config.corpusId ∧
      round.epsilonCost = totalEpsilon (validDeltas prims collected) ∧
      finalizeRound prims config dispatched collected owner ledger =
        (.ok (.aggregate ((validDeltas prims collected).map CollectedDelta.peer)
          (dispatched.filter fun p =>
            !((validDeltas prims collected).map CollectedDelta.peer).contains p)),
          ledger.append round)) := by
  unfold finalizeRound Aggregates
  by_cases hmin : config.minClients < 2
  · refine .inl ⟨fun h => absurd h.1 (not_le.mpr hmin), ?_, ?_⟩ <;> simp [hmin]
  by_cases hfew : (validDeltas prims collected).length < config.minClients
  · refine .inl ⟨fun h => absurd h.2.1 (not_le.mpr hfew), ?_, ?_⟩ <;> simp [hmin, hfew]
  obtain ⟨e, hrec, hnot⟩ | ⟨round, hrec, hadmits, hsign, hcorpus, hcost⟩ :=
    ledger.record_cases prims owner config.corpusId (totalEpsilon (validDeltas prims collected))
  · refine .inl ⟨fun h => hnot ⟨h.2.2.1, h.2.2.2⟩, ?_, ?_⟩ <;> simp [hmin, hfew, hrec]
  · refine .inr ⟨⟨not_lt.mp hmin, not_lt.mp hfew, hadmits, hsign⟩, round, hcorpus, hcost, ?_⟩
    simp only [hmin, hfew, if_false, hrec]

theorem finalizeRound_ledger :
    (finalizeRound prims config dispatched collected owner ledger).2 = ledger ∨
    ∃ cost, (finalizeRound prims config dispatched collected owner ledger).2 =
      (ledger.record prims owner config.corpusId cost).2 := by
  dsimp only [finalizeRound]
  split_ifs
  · exact .inl rfl
  · exact .inl rfl
  · refine .inr ⟨totalEpsilon (validDeltas prims collected), ?_⟩
    split <;> simp_all

/-! ## Real federations -/

/-- What an aggregated round has to be: its participants are distinct dispatched peers, enough of
    them, each with a delta of its own that hashes as claimed and costs no less than zero; the
    other dispatched peers are dropped; and the ledger has one more round, which costs what these
    deltas cost. Any other outcome leaves the ledger alone. -/
def RoundSound (result : Except RoundError (RoundOutcome P) × PrivacyLedger H S) : Prop :=
  match result.1 with
  | .ok (.aggregate participants dropped) =>
    participants.Nodup ∧ (∀ p ∈ participants, p ∈ dispatched) ∧
      config.minClients ≤ participants.length ∧
      (∀ p, p ∈ dropped ↔ p ∈ dispatched ∧ p ∉ participants) ∧
      ∃ deltas, deltas.Sublist collected ∧ deltas.map CollectedDelta.peer = participants ∧
        (∀ d ∈ deltas, d.verify prims = true ∧ 0 ≤ d.epsilonCost) ∧
        ∃ round, result.2.rounds = ledger.rounds ++ [round] ∧
          round.corpusId = config.corpusId ∧ round.epsilonCost = totalEpsilon deltas
  | _ => result.2 = ledger

/-- The deltas that hash as claimed come from distinct dispatched peers and none has a negative
    cost. -/
structure Genuine : Prop where
  distinct : ((validDeltas prims collected).map CollectedDelta.peer).Nodup
  dispatched : ∀ d ∈ validDeltas prims collected, d.peer ∈ dispatched
  nonneg : ∀ d ∈ validDeltas prims collected, 0 ≤ d.epsilonCost

instance : Decidable (Genuine prims dispatched collected) :=
  decidable_of_iff
    (((validDeltas prims collected).map CollectedDelta.peer).Nodup ∧
      (∀ d ∈ validDeltas prims collected, d.peer ∈ dispatched) ∧
      ∀ d ∈ validDeltas prims collected, 0 ≤ d.epsilonCost)
    ⟨fun h => ⟨h.1, h.2.1, h.2.2⟩, fun h => ⟨h.1, h.2, h.3⟩⟩

omit [DecidableEq P] in
variable {prims collected} in
/-- As many valid deltas as there are: they are the valid deltas. -/
theorem eq_validDeltas {deltas : List (CollectedDelta H P)} (hsub : deltas.Sublist collected)
    (hvalid : ∀ d ∈ deltas, d.verify prims = true)
    (hpeers : deltas.map CollectedDelta.peer =
      (validDeltas prims collected).map CollectedDelta.peer) :
    deltas = validDeltas prims collected := by
  have hkept : deltas.Sublist (validDeltas prims collected) := by
    have hfilter := hsub.filter fun d => d.verify prims
    rwa [List.filter_eq_self.mpr hvalid] at hfilter
  refine hkept.eq_of_length ?_
  simpa using congrArg List.length hpeers

theorem finalizeRound_sound_iff :
    RoundSound prims config dispatched collected ledger
        (finalizeRound prims config dispatched collected owner ledger) ↔
      (Aggregates prims config collected ledger → Genuine prims dispatched collected) := by
  obtain ⟨hnot, hsame, hother⟩ | ⟨hagg, round, hcorpus, hcost, hresult⟩ :=
    finalizeRound_cases prims config dispatched collected owner ledger
  · refine iff_of_true ?_ fun h => absurd h hnot
    unfold RoundSound
    split
    · exact absurd ‹_› (hother _ _)
    · exact hsame
  rw [hresult]
  unfold RoundSound
  constructor
  · rintro ⟨hnodup, hmem, -, -, deltas, hsub, hpeers, hgood, -⟩ -
    have heq := eq_validDeltas hsub (fun d hd => (hgood d hd).1) hpeers
    subst heq
    exact ⟨hnodup, fun d hd => hmem _ (List.mem_map_of_mem hd), fun d hd => (hgood d hd).2⟩
  · intro h
    have hgenuine := h hagg
    refine ⟨hgenuine.distinct, ?_, by simpa using hagg.2.1, by simp, validDeltas prims collected,
      List.filter_sublist, rfl, ?_, round, rfl, hcorpus, hcost⟩
    · intro p hp
      obtain ⟨d, hd, rfl⟩ := List.mem_map.mp hp
      exact hgenuine.dispatched d hd
    · exact fun d hd => ⟨(List.mem_filter.mp hd).2, hgenuine.nonneg d hd⟩

end

/-- One peer answers twice: the round counts two participants and its single peer twice, and the
    other dispatched peer is dropped. -/
theorem one_peer_aggregates_alone :
    let ledger := (PrivacyLedger.newForTenant Tenant.default).setBudget "corpus" 10
    let delta : CollectedDelta (List (Fin 256)) Nat := ⟨7, [1], 1, [1]⟩
    ¬ RoundSound samplePrims ⟨"corpus", 2⟩ [7, 8] [delta, delta] ledger
      (finalizeRound samplePrims ⟨"corpus", 2⟩ [7, 8] [delta, delta] () ledger) := by
  intro ledger delta h
  have hresult : (finalizeRound samplePrims ⟨"corpus", 2⟩ [7, 8] [delta, delta] () ledger).1 =
      .ok (.aggregate [7, 7] [8]) := by decide +kernel
  unfold RoundSound at h
  rw [hresult] at h
  exact absurd h.1 (by decide)

end Blut.P2p
