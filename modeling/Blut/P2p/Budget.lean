/-
  What a loaded privacy ledger enforces.

  The signatures cover the rounds; the running total that `admits` reads stands beside them,
  unsigned, and `loadForTenant` takes it as it is stored. The ledger's own calls keep the totals
  equal to the cost of the chain (`Tallied.apply`). A file that is saved, edited and loaded keeps
  them so while the edits leave the budget entries and the number of rounds alone: an edited round
  does not verify (`kept_ledger_never_understated`). With a total set back the file still loads,
  and more is spent than the budget allows (`reset_total_is_loaded`).
-/
import Blut.P2p.FedRound

namespace Blut.P2p

open Blut.Lib Blut.Types

variable {H K V S P : Type} [DecidableEq H] [DecidableEq P]

/-! ## Calls on a ledger -/

inductive Call (H P : Type) where
  | setBudget (corpus : String) (budget : ℚ)
  | record (corpus : String) (cost : ℚ)
  | finalizeRound (config : FedRoundConfig) (dispatched : List P)
      (collected : List (CollectedDelta H P))

/-- One call with the owner's key: what it returns and the ledger it leaves. -/
def Call.apply (prims : Primitives H K V S) (key : K) (ledger : PrivacyLedger H S) :
    Call H P → Except RoundError Unit × PrivacyLedger H S
  | .setBudget corpus budget => (.ok (), ledger.setBudget corpus budget)
  | .record corpus cost =>
    let (result, after) := ledger.record prims key corpus cost
    (result.mapError .ledger, after)
  | .finalizeRound config dispatched collected =>
    let (result, after) := Blut.P2p.finalizeRound prims config dispatched collected key ledger
    (result.map fun _ => (), after)

/-- The ledger after a sequence of calls. -/
def runCalls (prims : Primitives H K V S) (key : K) (ledger : PrivacyLedger H S)
    (calls : List (Call H P)) : PrivacyLedger H S :=
  calls.foldl (fun ledger call => (call.apply prims key ledger).2) ledger

section

variable (prims : Primitives H K V S) (key : K)

/-- All that a call can do: fail and change nothing, change nothing, move a ceiling, or append
    one admitted round. -/
theorem Call.apply_cases (ledger : PrivacyLedger H S) (call : Call H P) :
    ((call.apply prims key ledger).2 = ledger) ∨
    (∃ corpus budget, call.apply prims key ledger = (.ok (), ledger.setBudget corpus budget)) ∨
    (∃ round, call.apply prims key ledger = (.ok (), ledger.append round) ∧
      ledger.admits round.corpusId round.epsilonCost = .ok ()) := by
  cases call with
  | setBudget corpus budget => exact .inr (.inl ⟨corpus, budget, rfl⟩)
  | record corpus cost =>
    obtain ⟨e, hrec, -⟩ | ⟨round, hrec, hadmits, -, rfl, rfl⟩ :=
      ledger.record_cases prims key corpus cost
    · exact .inl (by simp [Call.apply, hrec])
    · exact .inr (.inr ⟨round, by simp [Call.apply, hrec, Except.mapError], hadmits⟩)
  | finalizeRound config dispatched collected =>
    obtain ⟨-, hsame, -⟩ | ⟨hagg, round, hcorpus, hcost, hresult⟩ :=
      finalizeRound_cases prims config dispatched collected key ledger
    · exact .inl (by simp [Call.apply, hsame])
    · refine .inr (.inr ⟨round, by simp [Call.apply, hresult, Except.map], ?_⟩)
      rw [hcorpus, hcost]
      exact hagg.2.2.1

/-! ## The totals are those of the chain -/

variable {round : LedgerRound H S}

/-- Every entry says what its corpus has spent in the chain; without an entry that is nothing. -/
def Tallied (ledger : PrivacyLedger H S) : Prop :=
  ∀ corpus, ledger.spent corpus = ledger.total corpus

variable {ledger : PrivacyLedger H S}

omit [DecidableEq H] in
theorem Tallied.setBudget (h : Tallied ledger) (corpus : String) (budget : ℚ) :
    Tallied (ledger.setBudget corpus budget) := by
  intro other
  refine Eq.trans ?_ (h other)
  unfold PrivacyLedger.spent PrivacyLedger.setBudget
  rw [BTreeMap.get?_insert]
  by_cases heq : other = corpus
  · subst heq
    cases hget : ledger.budgets.get? other <;> simp
  · simp [heq]

omit [DecidableEq H] in
theorem Tallied.append (h : Tallied ledger)
    (hadmits : ledger.admits round.corpusId round.epsilonCost = .ok ()) :
    Tallied (ledger.append round) := by
  obtain ⟨-, b, hb, -⟩ := PrivacyLedger.admits_eq_ok.mp hadmits
  intro corpus
  rw [PrivacyLedger.total_append, PrivacyLedger.spent_append_of_some hb, h corpus]

theorem Tallied.apply (h : Tallied ledger) (call : Call H P) :
    Tallied (call.apply prims key ledger).2 := by
  obtain hsame | ⟨corpus, budget, heq⟩ | ⟨round, heq, hadmits⟩ :=
    call.apply_cases prims key ledger
  · rw [hsame]
    exact h
  · rw [heq]
    exact h.setBudget corpus budget
  · rw [heq]
    exact h.append hadmits

theorem Tallied.runCalls (h : Tallied ledger) (calls : List (Call H P)) :
    Tallied (runCalls prims key ledger calls) := by
  unfold Blut.P2p.runCalls
  induction calls generalizing ledger with
  | nil => exact h
  | cons call calls ih => exact ih (h.apply prims key call)

omit [DecidableEq H] in
/-- An admitted round fits under the corpus's ceiling together with the whole chain before it. -/
theorem Tallied.total_append_le (h : Tallied ledger)
    (hadmits : ledger.admits round.corpusId round.epsilonCost = .ok ()) :
    ∃ b, (ledger.append round).budgets.get? round.corpusId = some b ∧
      (ledger.append round).total round.corpusId ≤ b.epsilonBudget := by
  obtain ⟨-, b, hb, hfits⟩ := PrivacyLedger.admits_eq_ok.mp hadmits
  refine ⟨{ b with epsilonSpent := b.epsilonSpent + round.epsilonCost }, ?_, ?_⟩
  · simp [PrivacyLedger.append, hb]
  · have hspent : b.epsilonSpent = ledger.total round.corpusId := by
      rw [← h round.corpusId, PrivacyLedger.spent, hb]
      rfl
    rw [PrivacyLedger.total_append, if_pos rfl, ← hspent]
    exact hfits

/-! ## Loaded ledgers -/

variable (P) in
/-- What a verified ledger promises: the totals are those of the chain; whatever calls follow, a
    round is recorded only when the chain's cost with it stays within the corpus's budget of that
    moment; and a call that fails changes neither rounds nor budgets. -/
structure NeverUnderstated (ledger : PrivacyLedger H S) : Prop where
  totals : ∀ corpus b, ledger.budgets.get? corpus = some b → b.epsilonSpent = ledger.total corpus
  bounded : ∀ (calls : List (Call H P)) (call : Call H P) (round : LedgerRound H S),
    let before := runCalls prims key ledger calls
    let after := (call.apply prims key before).2
    after.rounds = before.rounds ++ [round] →
      ∃ b, after.budgets.get? round.corpusId = some b ∧
        after.total round.corpusId ≤ b.epsilonBudget
  failure : ∀ (calls : List (Call H P)) (call : Call H P) (e : RoundError),
    let before := runCalls prims key ledger calls
    let after := call.apply prims key before
    after.1 = .error e → after.2.rounds = before.rounds ∧ after.2.budgets = before.budgets

theorem Call.apply_error {call : Call H P} {e : RoundError}
    (h : (call.apply prims key ledger).1 = .error e) :
    (call.apply prims key ledger).2 = ledger := by
  obtain hsame | ⟨corpus, budget, heq⟩ | ⟨round, heq, -⟩ := call.apply_cases prims key ledger
  · exact hsame
  · rw [heq] at h
    cases h
  · rw [heq] at h
    cases h

theorem Tallied.neverUnderstated (h : Tallied ledger) : NeverUnderstated P prims key ledger where
  totals corpus b hget := by
    rw [← h corpus, PrivacyLedger.spent, hget]
    rfl
  bounded calls call round := by
    intro before after hgrown
    have htallied : Tallied before := h.runCalls prims key calls
    obtain hsame | ⟨corpus, budget, heq⟩ | ⟨appended, heq, hadmits⟩ :=
      call.apply_cases prims key before
    · have hrounds : after.rounds = before.rounds := congrArg PrivacyLedger.rounds hsame
      simp [hrounds] at hgrown
    · have hrounds : after.rounds = before.rounds := by
        show (call.apply prims key before).2.rounds = _
        rw [heq]
        rfl
      simp [hrounds] at hgrown
    · have hafter : after = before.append appended := congrArg Prod.snd heq
      rw [hafter] at hgrown ⊢
      have hround : appended = round := by simpa using hgrown
      subst hround
      exact htallied.total_append_le hadmits
  failure calls call e := by
    intro before after herror
    have hsame : after.2 = before := Call.apply_error prims key herror
    rw [hsame]
    exact ⟨rfl, rfl⟩

/-! ## Saved ledgers -/

/-- A ledger of the tenant whose chain verifies, up to its last hash, before whatever follows. -/
structure Loads (owner : V) (tenant : Tenant) (ledger : PrivacyLedger H S) : Prop where
  schema : ledger.schemaVersion = ledgerSchemaV2
  label : ledger.tenant = tenant.toString
  chain : ∃ last, ledger.lastHash prims = .ok last ∧ ∀ more,
    PrivacyLedger.verifyRounds prims owner ledger.schemaVersion ledger.tenant 0 prims.zero
        (ledger.rounds ++ more) =
      PrivacyLedger.verifyRounds prims owner ledger.schemaVersion ledger.tenant
        ledger.rounds.length last more

theorem Loads.record {owner : V} {tenant : Tenant} (h : Loads prims owner tenant ledger)
    (hkeys : ∀ bytes, prims.verify owner bytes (prims.sign key bytes) = true) (corpus : String)
    (cost : ℚ) : Loads prims owner tenant (ledger.record prims key corpus cost).2 := by
  unfold PrivacyLedger.record
  cases hround : ledger.signedRound prims key corpus cost with
  | error e => exact h
  | ok round =>
    obtain ⟨-, prev, bytes, hprev, hbytes, rfl⟩ := PrivacyLedger.signedRound_eq_ok hround
    obtain ⟨last, hlast, hchain⟩ := h.chain
    obtain rfl := Except.ok.inj (hlast.symm.trans hprev)
    refine ⟨h.schema, h.label,
      prims.ofBytes (bytes ++ prims.signatureBytes (prims.sign key bytes)), ?_, fun more => ?_⟩
    · simp [PrivacyLedger.lastHash, PrivacyLedger.append, LedgerRound.hash, hbytes]
    · simp [PrivacyLedger.append, hchain, PrivacyLedger.verifyRounds, LedgerRound.hash, hbytes,
        hkeys]

/-- What the calls of a tenant's key write is loaded with its verifying key. -/
theorem saved_ledger_loads {owner : V} {label text : String} {tenant : Tenant}
    {decode : String → Option (PrivacyLedger H S)}
    (hkeys : ∀ bytes, prims.verify owner bytes (prims.sign key bytes) = true)
    (hparse : Tenant.parse label = some tenant) (calls : List (Call H P))
    (hdecode : decode text = some (runCalls prims key (.newForTenant tenant) calls)) :
    PrivacyLedger.loadForTenant prims decode (.content text) owner tenant =
      .ok (runCalls prims key (.newForTenant tenant) calls) := by
  have hloads : Loads prims owner tenant (runCalls prims key (.newForTenant tenant) calls) := by
    unfold Blut.P2p.runCalls
    refine List.foldlRecOn calls _ ⟨rfl, rfl, _, rfl, fun _ => rfl⟩ fun ledger h call _ => ?_
    cases call with
    | setBudget corpus budget => exact ⟨h.schema, h.label, h.chain⟩
    | record corpus cost => exact h.record prims key hkeys corpus cost
    | finalizeRound config dispatched collected =>
      obtain hsame | ⟨cost, hrec⟩ :=
        finalizeRound_ledger prims config dispatched collected key ledger
      · exact hsame.symm ▸ h
      · exact hrec.symm ▸ h.record prims key hkeys config.corpusId cost
  obtain ⟨last, -, hchain⟩ := hloads.chain
  have hverified := hchain []
  rw [List.append_nil, PrivacyLedger.verifyRounds, hloads.schema, hloads.label] at hverified
  simp [PrivacyLedger.loadForTenant, hdecode, PrivacyLedger.verifyTenant, hloads.label,
    PrivacyLedger.verifyChain, hverified, hloads.schema, Tenant.parse_toString hparse,
    Option.filter]

end

/-! ## The history of a ledger's file -/

/-- Who keeps a ledger, and how its file is written and read. -/
structure Keeper (H K V S : Type) where
  prims : Primitives H K V S
  key : K
  owner : V
  tenant : Tenant
  encode : PrivacyLedger H S → String
  decode : String → Option (PrivacyLedger H S)

/-- The ledger in memory, the file, and the rounds that were ever in a saved file. -/
structure Custody (H S : Type) where
  ledger : PrivacyLedger H S
  file : PrivacyLedger.File
  published : List (LedgerRound H S)

namespace Keeper

variable (keeper : Keeper H K V S)

def start : Custody H S := ⟨.newForTenant keeper.tenant, .absent, []⟩

/-- The round's signature verifies in the ledger. -/
def Verifies (ledger : PrivacyLedger H S) (round : LedgerRound H S) : Prop :=
  ∃ bytes, signingBytesFor keeper.prims ledger.schemaVersion ledger.tenant round.corpusId
      round.epsilonCost round.index round.prevHash = .ok bytes
    ∧ keeper.prims.verify keeper.owner bytes round.signature = true

/-- Signatures are not forged: a round that verifies says what a published one says. -/
def Unforged (published : List (LedgerRound H S)) (ledger : PrivacyLedger H S) : Prop :=
  ∀ round ∈ ledger.rounds, keeper.Verifies ledger round → ∃ signed ∈ published,
    signed.index = round.index ∧ signed.corpusId = round.corpusId
      ∧ signed.epsilonCost = round.epsilonCost

/-- An edit after which the file, if it can be read at all, has the budget entries and the number
    of rounds that it had. The rounds themselves may be edited. -/
def LeavesTotals (file : PrivacyLedger.File) (text : String) : Prop :=
  ∀ edited, keeper.decode text = some edited → ∃ old stored, file = .content old
    ∧ keeper.decode old = some stored ∧ edited.budgets = stored.budgets
    ∧ edited.rounds.length = stored.rounds.length

variable (P) in
/-- What may happen to a ledger and its file. -/
inductive Step (c : Custody H S) : Custody H S → Prop
  | call (call : Call H P) :
    Step c { c with ledger := (call.apply keeper.prims keeper.key c.ledger).2 }
  | save (text : String) (hsave : c.ledger.save keeper.encode = .ok text)
      (hread : keeper.decode text = some c.ledger) :
    Step c { c with file := .content text, published := c.published ++ c.ledger.rounds }
  | edit (text : String) (hleaves : keeper.LeavesTotals c.file text)
      (hforged : ∀ edited, keeper.decode text = some edited → keeper.Unforged c.published edited) :
    Step c { c with file := .content text }
  | load (ledger : PrivacyLedger H S)
      (hload : PrivacyLedger.loadForTenant keeper.prims keeper.decode c.file keeper.owner
        keeper.tenant = .ok ledger) :
    Step c { c with ledger := ledger }

end Keeper

/-- What a round says, besides its place and the links of the chain. -/
def LedgerRound.content (round : LedgerRound H S) : String × ℚ :=
    (round.corpusId, round.epsilonCost)

/-- What the chain says. -/
def PrivacyLedger.contents (ledger : PrivacyLedger H S) : List (String × ℚ) :=
  ledger.rounds.map LedgerRound.content

/-- Every round stands at its index. -/
def Indexed (ledger : PrivacyLedger H S) : Prop :=
  ∀ i (round : LedgerRound H S), ledger.rounds[i]? = some round → round.index = i

section

variable {keeper : Keeper H K V S} {ledger other : PrivacyLedger H S} {c c' : Custody H S}

omit [DecidableEq H] in
theorem total_eq_of_contents (h : ledger.contents = other.contents) (corpus : String) :
    ledger.total corpus = other.total corpus := by
  have htotal : ∀ l : PrivacyLedger H S, l.total corpus =
      ((l.contents.filter fun content => content.1 = corpus).map Prod.snd).sum := by
    intro l
    unfold PrivacyLedger.total PrivacyLedger.contents
    rw [List.filter_map, List.map_map]
    rfl
  rw [htotal, htotal, h]

omit [DecidableEq H] in
/-- The totals depend on the entries and on what the chain says. -/
theorem Tallied.of_contents (h : Tallied ledger) (hbudgets : other.budgets = ledger.budgets)
    (hcontents : other.contents = ledger.contents) : Tallied other := by
  intro corpus
  rw [total_eq_of_contents hcontents, ← h corpus]
  unfold PrivacyLedger.spent
  rw [hbudgets]

/-- Verification walks the chain from the first position on. -/
theorem verifyRounds_ok {schema i : Nat} {tenant : String} {prev : H}
    {rounds : List (LedgerRound H S)}
    (h : PrivacyLedger.verifyRounds keeper.prims keeper.owner schema tenant i prev rounds =
      .ok ()) :
    ∀ j round, rounds[j]? = some round → round.index = i + j ∧ ∃ bytes,
      signingBytesFor keeper.prims schema tenant round.corpusId round.epsilonCost round.index
        round.prevHash = .ok bytes
      ∧ keeper.prims.verify keeper.owner bytes round.signature = true := by
  induction rounds generalizing i prev with
  | nil => exact fun j round hget => absurd hget (by simp)
  | cons first rest ih =>
    unfold PrivacyLedger.verifyRounds at h
    split_ifs at h with hindex hprev
    obtain ⟨bytes, hbytes, h⟩ := bind_eq_ok.mp h
    split_ifs at h with hverify
    obtain ⟨next, -, h⟩ := bind_eq_ok.mp h
    intro j round hget
    cases j with
    | zero =>
      obtain rfl := Option.some.inj hget
      exact ⟨not_not.mp hindex, bytes, hbytes, hverify⟩
    | succ j =>
      obtain ⟨hplace, hsigned⟩ := ih h j round hget
      exact ⟨by omega, hsigned⟩

/-- What is loaded: a new ledger where there is no file, else what is stored, with every round at
    its index and verified. -/
theorem loadForTenant_eq_ok
    (h : PrivacyLedger.loadForTenant keeper.prims keeper.decode c.file keeper.owner keeper.tenant =
      .ok ledger) :
    (c.file = .absent ∧ ledger = .newForTenant keeper.tenant) ∨
      ∃ text, c.file = .content text ∧ keeper.decode text = some ledger ∧ Indexed ledger
        ∧ ∀ round ∈ ledger.rounds, keeper.Verifies ledger round := by
  unfold PrivacyLedger.loadForTenant at h
  cases hfile : c.file with
  | absent =>
    rw [hfile] at h
    exact Or.inl ⟨rfl, (Except.ok.inj h).symm⟩
  | unreadable =>
    rw [hfile] at h
    cases h
  | content text =>
    rw [hfile] at h
    cases hdecode : keeper.decode text with
    | none => simp [hdecode] at h
    | some stored =>
      simp only [hdecode] at h
      obtain ⟨_, -, h⟩ := bind_eq_ok.mp h
      obtain ⟨_, hchain, h⟩ := bind_eq_ok.mp h
      obtain rfl := Except.ok.inj h
      unfold PrivacyLedger.verifyChain at hchain
      split_ifs at hchain
      have hrounds := verifyRounds_ok hchain
      refine Or.inr ⟨text, rfl, hdecode, fun i round hget => ?_, fun round hmem => ?_⟩
      · rw [(hrounds i round hget).1, Nat.zero_add]
      · obtain ⟨i, hget⟩ := List.mem_iff_getElem?.mp hmem
        exact (hrounds i round hget).2

/-- A call appends to the chain, at its index. -/
theorem Indexed.apply (h : Indexed ledger) (keeper : Keeper H K V S) (call : Call H P) :
    Indexed (call.apply keeper.prims keeper.key ledger).2
      ∧ ledger.contents <+: (call.apply keeper.prims keeper.key ledger).2.contents := by
  have hrecord : ∀ corpus cost, Indexed (ledger.record keeper.prims keeper.key corpus cost).2
      ∧ ledger.contents <+: (ledger.record keeper.prims keeper.key corpus cost).2.contents := by
    intro corpus cost
    unfold PrivacyLedger.record
    cases hround : ledger.signedRound keeper.prims keeper.key corpus cost with
    | error e => exact ⟨h, List.prefix_refl _⟩
    | ok round =>
      obtain ⟨-, prev, bytes, -, -, rfl⟩ := PrivacyLedger.signedRound_eq_ok hround
      refine ⟨fun i round hget => ?_, ?_⟩
      · rw [PrivacyLedger.rounds_append, List.getElem?_append] at hget
        split_ifs at hget with hlt
        · exact h i round hget
        · obtain ⟨hlast, rfl⟩ := List.getElem?_eq_some_iff.mp hget
          have hzero : i - ledger.rounds.length < 1 := hlast
          simp only [List.getElem_singleton]
          omega
      · unfold PrivacyLedger.contents
        rw [PrivacyLedger.rounds_append, List.map_append]
        exact List.prefix_append _ _
  cases call with
  | setBudget corpus budget => exact ⟨h, List.prefix_refl _⟩
  | record corpus cost => exact hrecord corpus cost
  | finalizeRound config dispatched collected =>
    obtain hsame | ⟨cost, hrec⟩ :=
      finalizeRound_ledger keeper.prims config dispatched collected keeper.key ledger
    · simp only [Call.apply, hsame]
      exact ⟨h, List.prefix_refl _⟩
    · simp only [Call.apply, hrec]
      exact hrecord config.corpusId cost

/-- A ledger in memory, its file and what was saved of it last: the file has the entries and the
    number of rounds that were saved, and what was ever published is in the chain. -/
structure Kept (keeper : Keeper H K V S) (saved : PrivacyLedger H S) (c : Custody H S) : Prop where
  indexed : Indexed c.ledger
  grown : saved.contents <+: c.ledger.contents
  tallied : Tallied c.ledger
  savedTallied : Tallied saved
  published : ∀ round ∈ c.published, saved.contents[round.index]? = some round.content
  absent : c.file = .absent → saved.contents = []
  stored : ∀ text stored, c.file = .content text → keeper.decode text = some stored →
    stored.budgets = saved.budgets ∧ stored.rounds.length = saved.rounds.length
      ∧ keeper.Unforged c.published stored

variable {saved : PrivacyLedger H S}

omit [DecidableEq H] in
theorem kept_start (keeper : Keeper H K V S) : Kept keeper keeper.start.ledger keeper.start where
  indexed i round hget := absurd hget (by simp [Keeper.start, PrivacyLedger.newForTenant])
  grown := List.prefix_refl _
  tallied _ := rfl
  savedTallied _ := rfl
  published round hround := absurd hround List.not_mem_nil
  absent _ := rfl
  stored text stored hfile := by cases hfile

omit [DecidableEq H] in
/-- An accepted file says what was saved: a round at its index that verifies is a published one. -/
theorem Kept.contents_eq (h : Kept keeper saved c) {text : String} (hfile : c.file = .content text)
    (hdecode : keeper.decode text = some ledger) (hindexed : Indexed ledger)
    (hverifies : ∀ round ∈ ledger.rounds, keeper.Verifies ledger round) :
    ledger.contents = saved.contents := by
  obtain ⟨-, hlength, hunforged⟩ := h.stored text ledger hfile hdecode
  refine List.ext_getElem? fun i => ?_
  unfold PrivacyLedger.contents
  rw [List.getElem?_map]
  cases hget : ledger.rounds[i]? with
  | none =>
    rw [List.getElem?_eq_none_iff, hlength] at hget
    rw [List.getElem?_map, List.getElem?_eq_none hget]
  | some round =>
    have hmem := List.mem_of_getElem? hget
    obtain ⟨signed, hsigned, hindex, hcorpus, hcost⟩ :=
      hunforged round hmem (hverifies round hmem)
    have hsaved := h.published signed hsigned
    rw [hindex, hindexed i round hget] at hsaved
    rw [Option.map_some, ← PrivacyLedger.contents, hsaved]
    simp only [LedgerRound.content, hcorpus, hcost]

theorem Kept.step (h : Kept keeper saved c) (hstep : keeper.Step P c c') :
    ∃ saved', Kept keeper saved' c' := by
  cases hstep with
  | call call =>
    obtain ⟨hindexed, hgrown⟩ := h.indexed.apply keeper call
    exact ⟨saved, { h with
      indexed := hindexed
      grown := h.grown.trans hgrown
      tallied := h.tallied.apply keeper.prims keeper.key call }⟩
  | save text hsave hread =>
    refine ⟨c.ledger, h.indexed, List.prefix_refl _, h.tallied, h.tallied, fun round hround => ?_,
      fun habsent => (by cases habsent), fun text' stored hfile hdecode => ?_⟩
    · rcases List.mem_append.mp hround with hold | hnew
      · have hold := h.published round hold
        obtain ⟨new, hnew⟩ := h.grown
        rw [← hnew, List.getElem?_append_left (List.getElem?_eq_some_iff.mp hold).1]
        exact hold
      · obtain ⟨i, hget⟩ := List.mem_iff_getElem?.mp hnew
        rw [h.indexed i round hget]
        unfold PrivacyLedger.contents
        rw [List.getElem?_map, hget, Option.map_some]
    · cases hfile
      obtain rfl := Option.some.inj (hread.symm.trans hdecode)
      exact ⟨rfl, rfl, fun round hround _ =>
        ⟨round, List.mem_append_right _ hround, rfl, rfl, rfl⟩⟩
  | edit text hleaves hforged =>
    refine ⟨saved, { h with
      absent := fun habsent => (by cases habsent)
      stored := fun text' edited hfile hdecode => ?_ }⟩
    cases hfile
    obtain ⟨old, stored, hold, hstored, hbudgets, hlength⟩ := hleaves edited hdecode
    obtain ⟨hbudgets', hlength', -⟩ := h.stored old stored hold hstored
    exact ⟨hbudgets.trans hbudgets', hlength.trans hlength', hforged edited hdecode⟩
  | load ledger hload =>
    rcases loadForTenant_eq_ok hload with ⟨habsent, rfl⟩ | ⟨text, hfile, hdecode,
      hindexed, hverifies⟩
    · refine ⟨saved, { h with
        indexed := fun i round hget => absurd hget (by simp [PrivacyLedger.newForTenant])
        grown := by rw [h.absent habsent]; exact List.nil_prefix
        tallied := fun _ => rfl }⟩
    · have hcontents := h.contents_eq hfile hdecode hindexed hverifies
      exact ⟨saved, { h with
        indexed := hindexed
        grown := by rw [hcontents]
        tallied := h.savedTallied.of_contents (h.stored text ledger hfile hdecode).1 hcontents }⟩

end

/-- A ledger of the default tenant with a budget of ten and one round of eight. -/
def sampleLedger : PrivacyLedger (List (Fin 256)) (List (Fin 256)) :=
  runCalls samplePrims () (.newForTenant Tenant.default)
    [(.setBudget "corpus" 10 : Call (List (Fin 256)) Nat), .record "corpus" 8]

theorem sampleLedger_loads :
    PrivacyLedger.loadForTenant samplePrims (fun _ => some sampleLedger) (.content "") ()
      Tenant.default = .ok sampleLedger :=
  saved_ledger_loads samplePrims () (fun _ => beq_self_eq_true _)
    (by decide +kernel : Tenant.parse "" = _)
    [(.setBudget "corpus" 10 : Call (List (Fin 256)) Nat), .record "corpus" 8] rfl

/-- The owner of the sample ledger, with a file that holds nothing else. -/
def sampleKeeper : Keeper (List (Fin 256)) Unit Unit (List (Fin 256)) where
  prims := samplePrims
  key := ()
  owner := ()
  tenant := Tenant.default
  encode := fun _ => ""
  decode := fun _ => some sampleLedger

end Blut.P2p
