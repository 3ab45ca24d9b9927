/-
  The differential-privacy budget ledger (`p2p/privacy.rs`).

  A ledger is a chain of signed rounds and, beside it, a budget entry per corpus. A round is
  admitted against the entry's running total `epsilon_spent`; the chain is what the signatures
  cover. Epsilons are rationals, so the finiteness test of `admits` (the source's `admit`) always
  passes. The hash, the signature scheme, the bytes of an epsilon and the JSON reader are
  parameters. Error values carry what the messages of the source render.
-/
import Blut.Lib.BTreeMap
import Blut.Lib.Codec
import Blut.Types.Tenant

namespace Blut.P2p

open Blut.Lib Blut.Types

/-! ## Primitives -/

/-- The hash, the signature scheme of a key pair `K` with verifying key `V`, and the eight bytes
    of an epsilon. -/
structure Primitives (H K V S : Type) where
  ofBytes : List (Fin 256) → H
  hashBytes : H → List (Fin 256)
  /-- The previous hash of the first round. -/
  zero : H
  sign : K → List (Fin 256) → S
  verify : V → List (Fin 256) → S → Bool
  signatureBytes : S → List (Fin 256)
  costBytes : ℚ → List (Fin 256)

/-- Primitives to run the model with: texts are their own hashes and their own signatures. -/
def samplePrims : Primitives (List (Fin 256)) Unit Unit (List (Fin 256)) where
  ofBytes := id
  hashBytes := id
  zero := []
  sign := fun _ bytes => bytes
  verify := fun _ bytes signature => bytes == signature
  signatureBytes := id
  costBytes := fun cost => leBytes 4 cost.num.natAbs ++ leBytes 4 cost.den

inductive LedgerError where
  | io
  | corrupt
  | invalidTenant (stored : String)
  | tenantMismatch (stored expected : Tenant)
  | unsupportedSchema (version : Nat)
  | wrongIndex (round index : Nat)
  | chainBreak (round : Nat)
  | signatureInvalid (round : Nat)
  | invalidCost (cost : ℚ)
  | noBudget (corpus : String)
  | exhausted (corpus : String) (spent cost budget : ℚ)
  deriving DecidableEq

variable {H K V S : Type}

/-! ## Rounds -/

structure LedgerRound (H S : Type) where
  corpusId : String
  epsilonCost : ℚ
  index : Nat
  prevHash : H
  signature : S
  deriving DecidableEq

def ledgerSchemaV2 : Nat := 2

/-- A string behind its byte length. -/
def lengthPrefixed (s : String) : List (Fin 256) :=
  leBytes 8 s.utf8ByteSize ++ utf8Bytes s

/-- The fields both layouts end with. -/
def roundBytes (prims : Primitives H K V S) (corpus : String) (cost : ℚ) (index : Nat)
    (prev : H) : List (Fin 256) :=
  lengthPrefixed corpus ++ prims.costBytes cost ++ leBytes 8 index ++ prims.hashBytes prev

/-- The first layout does not hold the tenant. -/
def signingBytes (prims : Primitives H K V S) (corpus : String) (cost : ℚ) (index : Nat)
    (prev : H) : List (Fin 256) :=
  utf8Bytes "blut-privacy-ledger-v1" ++ roundBytes prims corpus cost index prev

def signingBytesV2 (prims : Primitives H K V S) (tenant corpus : String) (cost : ℚ) (index : Nat)
    (prev : H) : List (Fin 256) :=
  utf8Bytes "blut-privacy-ledger-v2" ++ lengthPrefixed tenant ++
    roundBytes prims corpus cost index prev

def signingBytesFor (prims : Primitives H K V S) (schema : Nat) (tenant corpus : String) (cost : ℚ)
    (index : Nat) (prev : H) : Except LedgerError (List (Fin 256)) :=
  if schema = 1 then .ok (signingBytes prims corpus cost index prev)
  else if schema = ledgerSchemaV2 then .ok (signingBytesV2 prims tenant corpus cost index prev)
  else .error (.unsupportedSchema schema)

/-- The hash the next round points back to. -/
def LedgerRound.hash (prims : Primitives H K V S) (schema : Nat) (tenant : String)
    (round : LedgerRound H S) : Except LedgerError H := do
  let bytes ← signingBytesFor prims schema tenant round.corpusId round.epsilonCost round.index
    round.prevHash
  return prims.ofBytes (bytes ++ prims.signatureBytes round.signature)

/-! ## The ledger -/

structure CorpusBudget where
  epsilonBudget : ℚ
  epsilonSpent : ℚ
  deriving DecidableEq

structure PrivacyLedger (H S : Type) where
  schemaVersion : Nat
  tenant : String
  budgets : BTreeMap String CorpusBudget
  rounds : List (LedgerRound H S)
  deriving DecidableEq

namespace PrivacyLedger

def newForTenant (tenant : Tenant) : PrivacyLedger H S where
  schemaVersion := ledgerSchemaV2
  tenant := tenant.toString
  budgets := .empty
  rounds := []

/-- Only the ceiling moves; an entry that is not there yet starts with nothing spent. -/
def setBudget (corpus : String) (budget : ℚ) (ledger : PrivacyLedger H S) : PrivacyLedger H S :=
  let entry := (ledger.budgets.get? corpus).getD ⟨budget, 0⟩
  { ledger with budgets := ledger.budgets.insert corpus { entry with epsilonBudget := budget } }

/-- `admit`: the cost fits into what is left of the corpus's budget. -/
def admits (ledger : PrivacyLedger H S) (corpus : String) (cost : ℚ) : Except LedgerError Unit :=
  if cost < 0 then .error (.invalidCost cost)
  else
    match ledger.budgets.get? corpus with
    | none => .error (.noBudget corpus)
    | some b =>
      if b.epsilonSpent + cost > b.epsilonBudget then
        .error (.exhausted corpus b.epsilonSpent cost b.epsilonBudget)
      else .ok ()

/-- The hash the next round will point back to. -/
def lastHash (prims : Primitives H K V S) (ledger : PrivacyLedger H S) : Except LedgerError H :=
  match ledger.rounds.getLast? with
  | some round => round.hash prims ledger.schemaVersion ledger.tenant
  | none => .ok prims.zero

/-- Appends a signed round and debits its corpus. -/
def append (ledger : PrivacyLedger H S) (round : LedgerRound H S) : PrivacyLedger H S :=
  { ledger with
    rounds := ledger.rounds ++ [round]
    budgets :=
      match ledger.budgets.get? round.corpusId with
      | some b =>
        ledger.budgets.insert round.corpusId
          { b with epsilonSpent := b.epsilonSpent + round.epsilonCost }
      | none => ledger.budgets }

/-- The round that `record` signs. -/
def signedRound (prims : Primitives H K V S) (owner : K) (ledger : PrivacyLedger H S)
    (corpus : String) (cost : ℚ) : Except LedgerError (LedgerRound H S) := do
  ledger.admits corpus cost
  let prev ← ledger.lastHash prims
  let index := ledger.rounds.length
  let bytes ← signingBytesFor prims ledger.schemaVersion ledger.tenant corpus cost index prev
  return ⟨corpus, cost, index, prev, prims.sign owner bytes⟩

/-- Every error is returned before the ledger is touched. -/
def record (prims : Primitives H K V S) (owner : K) (corpus : String) (cost : ℚ)
    (ledger : PrivacyLedger H S) : Except LedgerError Unit × PrivacyLedger H S :=
  match ledger.signedRound prims owner corpus cost with
  | .error e => (.error e, ledger)
  | .ok round => (.ok (), ledger.append round)

/-! ## Loading -/

def verifyTenant (ledger : PrivacyLedger H S) (expected : Tenant) : Except LedgerError Unit :=
  match (Tenant.parse ledger.tenant).filter fun t => t.toString == ledger.tenant with
  | none => .error (.invalidTenant ledger.tenant)
  | some actual => if actual ≠ expected then .error (.tenantMismatch actual expected) else .ok ()

/-- The loop over the rounds, from position `i` on; `prev` is the hash of the round before. -/
def verifyRounds [DecidableEq H] (prims : Primitives H K V S) (owner : V) (schema : Nat)
    (tenant : String) (i : Nat) (prev : H) : List (LedgerRound H S) → Except LedgerError Unit
  | [] => .ok ()
  | round :: rest =>
    if round.index ≠ i then .error (.wrongIndex i round.index)
    else if round.prevHash ≠ prev then .error (.chainBreak i)
    else do
      let bytes ← signingBytesFor prims schema tenant round.corpusId round.epsilonCost round.index
        round.prevHash
      if prims.verify owner bytes round.signature then do
        let prev ← round.hash prims schema tenant
        verifyRounds prims owner schema tenant (i + 1) prev rest
      else .error (.signatureInvalid i)

def verifyChain [DecidableEq H] (prims : Primitives H K V S) (ledger : PrivacyLedger H S)
    (owner : V) : Except LedgerError Unit :=
  if ledger.schemaVersion = 1 ∨ ledger.schemaVersion = ledgerSchemaV2 then
    verifyRounds prims owner ledger.schemaVersion ledger.tenant 0 prims.zero ledger.rounds
  else .error (.unsupportedSchema ledger.schemaVersion)

/-- What is found at the ledger's path. -/
inductive File where
  | absent
  | unreadable
  | content (text : String)

/-- `decode` is `serde_json::from_str`, defaults of missing fields included. -/
def loadForTenant [DecidableEq H] (prims : Primitives H K V S)
    (decode : String → Option (PrivacyLedger H S)) (file : File) (owner : V) (expected : Tenant) :
    Except LedgerError (PrivacyLedger H S) :=
  match file with
  | .absent => .ok (newForTenant expected)
  | .unreadable => .error .io
  | .content text =>
    match decode text with
    | none => .error .corrupt
    | some ledger => do
      ledger.verifyTenant expected
      ledger.verifyChain prims owner
      return ledger

/-- `save`: what is written, `encode` being `serde_json`. A failed write leaves the file alone. -/
def save (encode : PrivacyLedger H S → String) (ledger : PrivacyLedger H S) :
    Except LedgerError String :=
  match Tenant.parse ledger.tenant with
  | none => .error (.invalidTenant ledger.tenant)
  | some tenant => do
    ledger.verifyTenant tenant
    return encode ledger

/-! ## What a call does -/

variable {prims : Primitives H K V S} {round : LedgerRound H S}

/-- The cost of a corpus's rounds in the chain. -/
def total (ledger : PrivacyLedger H S) (corpus : String) : ℚ :=
  ((ledger.rounds.filter fun round => round.corpusId = corpus).map LedgerRound.epsilonCost).sum

/-- What the budget entry of a corpus says is spent; nothing when there is no entry. -/
def spent (ledger : PrivacyLedger H S) (corpus : String) : ℚ :=
  ((ledger.budgets.get? corpus).map CorpusBudget.epsilonSpent).getD 0

/-- The schema has a layout to sign. -/
def Signable (ledger : PrivacyLedger H S) : Prop :=
  ledger.schemaVersion = 1 ∨ ledger.schemaVersion = ledgerSchemaV2

instance (ledger : PrivacyLedger H S) : Decidable ledger.Signable :=
  inferInstanceAs (Decidable (_ ∨ _))

variable {ledger : PrivacyLedger H S} {corpus : String} {cost : ℚ}

theorem admits_eq_ok : ledger.admits corpus cost = .ok () ↔
      0 ≤ cost ∧ ∃ b, ledger.budgets.get? corpus = some b ∧
        b.epsilonSpent + cost ≤ b.epsilonBudget := by
  unfold admits
  by_cases hneg : cost < 0
  · simp [hneg]
  · cases hget : ledger.budgets.get? corpus with
    | none => simp [hneg]
    | some b =>
      by_cases hover : b.epsilonSpent + cost > b.epsilonBudget
      · simp [hneg, hover]
      · simp [hneg, hover, not_lt.mp hneg, not_lt.mp hover]

theorem signingBytesFor_eq_ok (prims : Primitives H K V S) {schema : Nat}
    (h : schema = 1 ∨ schema = ledgerSchemaV2) (tenant corpus : String) (cost : ℚ) (index : Nat)
    (prev : H) : ∃ bytes, signingBytesFor prims schema tenant corpus cost index prev =
      .ok bytes := by
  unfold signingBytesFor
  rcases h with h | h <;> simp [h, ledgerSchemaV2]

theorem signingBytesFor_signable {schema index : Nat} {tenant : String} {prev : H}
    {bytes : List (Fin 256)}
    (h : signingBytesFor prims schema tenant corpus cost index prev = .ok bytes) :
    schema = 1 ∨ schema = ledgerSchemaV2 := by
  unfold signingBytesFor at h
  split at h
  · exact .inl ‹_›
  · split at h
    · exact .inr ‹_›
    · cases h

theorem lastHash_eq_ok (prims : Primitives H K V S) (h : ledger.Signable) :
    ∃ prev, ledger.lastHash prims = .ok prev := by
  unfold lastHash
  cases ledger.rounds.getLast? with
  | none => exact ⟨_, rfl⟩
  | some round =>
    obtain ⟨bytes, hbytes⟩ := signingBytesFor_eq_ok prims h ledger.tenant round.corpusId
      round.epsilonCost round.index round.prevHash
    exact ⟨_, by simp only [LedgerRound.hash, hbytes]; rfl⟩

theorem signedRound_eq_ok {owner : K} (h : ledger.signedRound prims owner corpus cost = .ok round) :
    ledger.admits corpus cost = .ok () ∧ ∃ prev bytes, ledger.lastHash prims = .ok prev ∧
      signingBytesFor prims ledger.schemaVersion ledger.tenant corpus cost ledger.rounds.length
        prev = .ok bytes ∧
      round = ⟨corpus, cost, ledger.rounds.length, prev, prims.sign owner bytes⟩ := by
  unfold signedRound at h
  obtain ⟨_, hadmits, h⟩ := bind_eq_ok.mp h
  obtain ⟨prev, hprev, h⟩ := bind_eq_ok.mp h
  obtain ⟨bytes, hbytes, h⟩ := bind_eq_ok.mp h
  exact ⟨hadmits, prev, bytes, hprev, hbytes, (Except.ok.inj h).symm⟩

/-- A call of `record` either fails and leaves the ledger alone, or appends one round of the
    admitted cost. -/
theorem record_cases (prims : Primitives H K V S) (owner : K) (corpus : String) (cost : ℚ)
    (ledger : PrivacyLedger H S) :
    (∃ e, ledger.record prims owner corpus cost = (.error e, ledger) ∧
      ¬ (ledger.admits corpus cost = .ok () ∧ ledger.Signable)) ∨
    (∃ round, ledger.record prims owner corpus cost = (.ok (), ledger.append round) ∧
      ledger.admits corpus cost = .ok () ∧ ledger.Signable ∧
      round.corpusId = corpus ∧ round.epsilonCost = cost) := by
  unfold record
  cases hround : ledger.signedRound prims owner corpus cost with
  | error e =>
    refine .inl ⟨e, rfl, fun ⟨hadmits, hsign⟩ => ?_⟩
    obtain ⟨prev, hprev⟩ := lastHash_eq_ok prims hsign
    obtain ⟨bytes, hbytes⟩ := signingBytesFor_eq_ok prims hsign ledger.tenant corpus cost
      ledger.rounds.length prev
    simp [signedRound, hadmits, hprev, hbytes, bind, Except.bind, pure, Except.pure] at hround
  | ok round =>
    obtain ⟨hadmits, prev, bytes, -, hbytes, rfl⟩ := signedRound_eq_ok hround
    exact .inr ⟨_, rfl, hadmits, signingBytesFor_signable hbytes, rfl, rfl⟩

@[simp] theorem rounds_append (ledger : PrivacyLedger H S) (round : LedgerRound H S) :
    (ledger.append round).rounds = ledger.rounds ++ [round] := rfl

theorem total_append (ledger : PrivacyLedger H S) (round : LedgerRound H S) (corpus : String) :
    (ledger.append round).total corpus =
      ledger.total corpus + if round.corpusId = corpus then round.epsilonCost else 0 := by
  unfold total
  rw [rounds_append, List.filter_append, List.map_append, List.sum_append]
  by_cases h : round.corpusId = corpus <;> simp [h]

theorem spent_append_of_some {b : CorpusBudget} (hb : ledger.budgets.get? round.corpusId = some b)
    (corpus : String) :
    (ledger.append round).spent corpus =
      ledger.spent corpus + if round.corpusId = corpus then round.epsilonCost else 0 := by
  unfold spent append
  rw [hb]
  simp only [BTreeMap.get?_insert]
  by_cases h : corpus = round.corpusId
  · subst h
    simp [hb]
  · simp [h, Ne.symm h]

end PrivacyLedger

end Blut.P2p
