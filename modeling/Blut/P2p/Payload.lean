/-
  What the signatures of the peer protocol cover (`p2p/task.rs`, `p2p/introduction.rs`).

  A payload is a concatenation of fixed-width words, length-prefixed texts and tagged options, so
  it determines the fields it is made of (`Message.payload_eq_iff`), and payloads of different
  kinds never coincide (the rest of a result behind its task id is too short for a manifest, an
  introduction is too short for the task id its domain tag would announce). It is not made of all
  fields: a manifest's schema, VRAM request and encrypted input, a result's encrypted output and
  the part of an introduction's expiry below a second are left out.

  Signatures themselves are not a field here. Arguments are JSON values whose objects have
  distinct keys; serde writes their members in the order of the keys.
-/
import Blut.Framework.CacheKey

namespace Blut.P2p

open Blut.Lib Blut.Framework

variable {N : Type}

/-! ## Objects -/

inductive DataClass where
  | publicData
  | internal
  | restricted
  deriving DecidableEq

inductive TrustLevel where
  | anonymous
  | registered
  | trusted
  deriving DecidableEq

def TrustLevel.level : TrustLevel → Fin 256
  | .anonymous => 0
  | .registered => 1
  | .trusted => 2

structure ResourceRequest where
  cpuCores : Fin (2 ^ 32)
  memoryGib : Fin (2 ^ 32)
  gpu : Bool
  gpuVramGib : Option (Fin (2 ^ 32))
  deriving DecidableEq

structure ExecutionDeadline where
  softUnixMs : Option (Fin (2 ^ 64))
  hardUnixMs : Fin (2 ^ 64)
  deriving DecidableEq

structure EncryptedPayload where
  ciphertext : List (Fin 256)
  sealedKey : List (Fin 256)
  nonce : { bytes : List (Fin 256) // bytes.length = 12 }
  deriving DecidableEq

/-- `serde_json::Value`. -/
abbrev Args (N : Type) := { value : Json N // value.DistinctKeys }

structure TaskManifest (N : Type) where
  protocolVersion : Fin (2 ^ 16)
  taskId : String
  coordinatorId : Digest
  stageName : String
  stageSchema : Fin (2 ^ 32)
  inputContentId : Digest
  invocationKey : Digest
  argsHash : Digest
  expectedContentId : Option Digest
  args : Args N
  resources : ResourceRequest
  dataClass : DataClass
  timeoutSecs : Fin (2 ^ 64)
  deadline : ExecutionDeadline
  encryptedInput : Option EncryptedPayload

structure TaskResult where
  protocolVersion : Fin (2 ^ 16)
  taskId : String
  peerId : Digest
  contentId : Digest
  encryptedOutput : Option EncryptedPayload
  wallTimeMs : Fin (2 ^ 64)
  deriving DecidableEq

/-- `DateTime<Utc>`: the second, as a signed word, and what is below it. -/
structure DateTime where
  timestamp : BitVec 64
  nanos : Fin (2 ^ 32)
  deriving DecidableEq

/-- A key is its 32 compressed bytes. -/
structure Introduction where
  introducer : Digest
  subject : Digest
  subjectPubkey : Digest
  maxTrust : TrustLevel
  expiresAt : DateTime
  deriving DecidableEq

/-! ## Payloads -/

/-- Bytes behind the four low bytes of their length. -/
def writeLpBytes (bytes : List (Fin 256)) : List (Fin 256) := leBytes 4 bytes.length ++ bytes

def writeLpString (s : String) : List (Fin 256) := writeLpBytes (utf8Bytes s)

def DataClass.byte : DataClass → Fin 256
  | .publicData => 0
  | .internal => 1
  | .restricted => 2

def gpuByte (gpu : Bool) : Fin 256 := if gpu then 1 else 0

def TaskManifest.signPayload (numerals : Numerals N) (m : TaskManifest N) : List (Fin 256) :=
  leBytes 2 m.protocolVersion ++ writeLpString m.taskId ++ writeLpString m.stageName
    ++ m.inputContentId.1 ++ m.invocationKey.1 ++ m.argsHash.1
    ++ writeLpBytes (canonicalJsonBytes numerals m.args.1)
    ++ tagged 0 1 Subtype.val m.expectedContentId
    ++ m.coordinatorId.1
    ++ leBytes 4 m.resources.cpuCores ++ leBytes 4 m.resources.memoryGib
    ++ [gpuByte m.resources.gpu] ++ [m.dataClass.byte]
    ++ leBytes 8 m.timeoutSecs
    ++ tagged 0 1 (fun soft : Fin (2 ^ 64) => leBytes 8 soft) m.deadline.softUnixMs
    ++ leBytes 8 m.deadline.hardUnixMs

def TaskResult.signPayload (r : TaskResult) : List (Fin 256) :=
  leBytes 2 r.protocolVersion ++ writeLpString r.taskId ++ r.peerId.1 ++ r.contentId.1
    ++ leBytes 8 r.wallTimeMs

def introSigDomain : List (Fin 256) := utf8Bytes "blut-introduction-v1"

def Introduction.signPayload (i : Introduction) : List (Fin 256) :=
  introSigDomain ++ i.introducer.1 ++ i.subject.1 ++ i.subjectPubkey.1 ++ [i.maxTrust.level]
    ++ leBytes 8 i.expiresAt.timestamp.toNat

/-- Whatever a peer signs. -/
inductive Message (N : Type) where
  | manifest (m : TaskManifest N)
  | result (r : TaskResult)
  | introduction (i : Introduction)

def Message.payload (numerals : Numerals N) : Message N → List (Fin 256)
  | .manifest m => m.signPayload numerals
  | .result r => r.signPayload
  | .introduction i => i.signPayload

/-- Texts and byte fields are shorter than `2 ^ 32`. -/
def Message.Short (numerals : Numerals N) : Message N → Prop
  | .manifest m =>
    m.taskId.utf8ByteSize < 2 ^ 32 ∧ m.stageName.utf8ByteSize < 2 ^ 32 ∧
      (canonicalJsonBytes numerals m.args.1).length < 2 ^ 32
  | .result r => r.taskId.utf8ByteSize < 2 ^ 32
  | .introduction _ => True

/-! ## Fields -/

/-- The fields a manifest's payload is made of agree. -/
structure TaskManifest.SignedSame (m m' : TaskManifest N) : Prop where
  protocolVersion : m.protocolVersion = m'.protocolVersion
  taskId : m.taskId = m'.taskId
  stageName : m.stageName = m'.stageName
  inputContentId : m.inputContentId = m'.inputContentId
  invocationKey : m.invocationKey = m'.invocationKey
  argsHash : m.argsHash = m'.argsHash
  args : Json.Same m.args.1 m'.args.1
  expectedContentId : m.expectedContentId = m'.expectedContentId
  coordinatorId : m.coordinatorId = m'.coordinatorId
  cpuCores : m.resources.cpuCores = m'.resources.cpuCores
  memoryGib : m.resources.memoryGib = m'.resources.memoryGib
  gpu : m.resources.gpu = m'.resources.gpu
  dataClass : m.dataClass = m'.dataClass
  timeoutSecs : m.timeoutSecs = m'.timeoutSecs
  deadline : m.deadline = m'.deadline

/-- The fields a payload is made of agree; objects of different kinds never do. -/
def Message.SignedSame : Message N → Message N → Prop
  | .manifest m, .manifest m' => m.SignedSame m'
  | .result r, .result r' =>
    r.protocolVersion = r'.protocolVersion ∧ r.taskId = r'.taskId ∧ r.peerId = r'.peerId ∧
      r.contentId = r'.contentId ∧ r.wallTimeMs = r'.wallTimeMs
  | .introduction i, .introduction i' =>
    i.introducer = i'.introducer ∧ i.subject = i'.subject ∧ i.subjectPubkey = i'.subjectPubkey ∧
      i.maxTrust = i'.maxTrust ∧ i.expiresAt.timestamp = i'.expiresAt.timestamp
  | _, _ => False

/-- The fields a payload leaves out agree. -/
def Message.OmittedSame : Message N → Message N → Prop
  | .manifest m, .manifest m' =>
    m.stageSchema = m'.stageSchema ∧ m.resources.gpuVramGib = m'.resources.gpuVramGib ∧
      m.encryptedInput = m'.encryptedInput
  | .result r, .result r' => r.encryptedOutput = r'.encryptedOutput
  | .introduction i, .introduction i' => i.expiresAt.nanos = i'.expiresAt.nanos
  | _, _ => True

/-- One and the same object: of one kind, and equal in every field, arguments up to the order of
    members. -/
def Message.Same : Message N → Message N → Prop
  | .manifest m, .manifest m' =>
    Json.Same m.args.1 m'.args.1 ∧ { m with args := m'.args } = m'
  | .result r, .result r' => r = r'
  | .introduction i, .introduction i' => i = i'
  | _, _ => False

theorem Message.same_iff {x y : Message N} : x.Same y ↔ x.SignedSame y ∧ x.OmittedSame y := by
  match x, y with
  | .manifest m, .manifest m' =>
    constructor
    · rintro ⟨hargs, heq⟩
      rw [← heq]
      exact ⟨⟨rfl, rfl, rfl, rfl, rfl, rfl, heq ▸ hargs, rfl, rfl, rfl, rfl, rfl, rfl, rfl, rfl⟩,
        rfl, rfl, rfl⟩
    · rintro ⟨h, hschema, hvram, hinput⟩
      refine ⟨h.args, ?_⟩
      obtain ⟨_, _, _, _, _, _, _, _, _, _, ⟨_, _, _, _⟩, _, _, _, _⟩ := m
      obtain ⟨_, _, _, _, _, _, _, _, _, _, ⟨_, _, _, _⟩, _, _, _, _⟩ := m'
      obtain ⟨rfl, rfl, rfl, rfl, rfl, rfl, -, rfl, rfl, rfl, rfl, rfl, rfl, rfl, rfl⟩ := h
      cases hschema
      cases hvram
      cases hinput
      rfl
  | .result ⟨_, _, _, _, _, _⟩, .result ⟨_, _, _, _, _, _⟩ =>
    simp only [Message.Same, Message.SignedSame, Message.OmittedSame, TaskResult.mk.injEq]
    tauto
  | .introduction ⟨_, _, _, _, ⟨_, _⟩⟩, .introduction ⟨_, _, _, _, ⟨_, _⟩⟩ =>
    simp only [Message.Same, Message.SignedSame, Message.OmittedSame, Introduction.mk.injEq,
      DateTime.mk.injEq]
    tauto
  | .manifest _, .result _ | .manifest _, .introduction _ | .result _, .manifest _
  | .result _, .introduction _ | .introduction _, .manifest _ | .introduction _, .result _ =>
    simp [Message.Same, Message.SignedSame]

/-! ## A payload determines its fields -/

theorem writeLpString_unambiguous :
    Unambiguous (fun s : String => s.utf8ByteSize < 2 ^ 32) writeLpString :=
  (length_framed_unambiguous (leBytes_unambiguous 4) fun _ _ => utf8Bytes_injective).mono
    fun s hs => by simpa [length_utf8Bytes] using hs

theorem dataClassByte_injective : Function.Injective DataClass.byte := by
  intro a b h
  cases a <;> cases b <;> first | rfl | exact absurd h (by decide)

theorem level_injective : Function.Injective TrustLevel.level := by
  intro a b h
  cases a <;> cases b <;> first | rfl | exact absurd h (by decide)

theorem softDeadline_unambiguous :
    Unambiguous (fun _ => True)
      (tagged (0 : Fin 256) 1 (fun soft : Fin (2 ^ 64) => leBytes 8 soft)) :=
  (tagged_unambiguous (by decide) (leBytes_fin_unambiguous (by norm_num))).mono
    fun _ _ _ _ => trivial

theorem expectedContent_unambiguous :
    Unambiguous (fun _ => True) (tagged (0 : Fin 256) 1 (Subtype.val : Digest → List (Fin 256))) :=
  (tagged_unambiguous (by decide) (fixed_unambiguous 32)).mono fun _ _ _ _ => trivial

variable {m : TaskManifest N} {r : TaskResult}

theorem TaskManifest.signPayload_eq_iff (numerals : Numerals N) {m' : TaskManifest N}
    (hm : (Message.manifest m).Short numerals) (hm' : (Message.manifest m').Short numerals) :
    m.signPayload numerals = m'.signPayload numerals ↔ m.SignedSame m' := by
  constructor
  · intro h
    -- the fields are read off from the front, one after the other
    simp only [TaskManifest.signPayload, List.append_assoc] at h
    obtain ⟨hversion, h⟩ := leBytes_fin_unambiguous (by norm_num) _ _ _ _ trivial trivial h
    obtain ⟨htask, h⟩ := writeLpString_unambiguous _ _ _ _ hm.1 hm'.1 h
    obtain ⟨hstage, h⟩ := writeLpString_unambiguous _ _ _ _ hm.2.1 hm'.2.1 h
    obtain ⟨hinput, h⟩ := fixed_unambiguous 32 _ _ _ _ trivial trivial h
    obtain ⟨hkey, h⟩ := fixed_unambiguous 32 _ _ _ _ trivial trivial h
    obtain ⟨hargsHash, h⟩ := fixed_unambiguous 32 _ _ _ _ trivial trivial h
    obtain ⟨hargs, h⟩ := length_framed_unambiguous (leBytes_unambiguous 4)
      (fun _ _ h => h) _ _ _ _ hm.2.2 hm'.2.2 h
    obtain ⟨hexpected, h⟩ := expectedContent_unambiguous _ _ _ _ trivial trivial h
    obtain ⟨hcoordinator, h⟩ := fixed_unambiguous 32 _ _ _ _ trivial trivial h
    obtain ⟨hcpu, h⟩ := leBytes_fin_unambiguous (by norm_num) _ _ _ _ trivial trivial h
    obtain ⟨hmemory, h⟩ := leBytes_fin_unambiguous (by norm_num) _ _ _ _ trivial trivial h
    obtain ⟨hgpu, h⟩ := symbol_unambiguous (f := gpuByte) (by decide) _ _ _ _ trivial trivial h
    obtain ⟨hclass, h⟩ := symbol_unambiguous dataClassByte_injective _ _ _ _ trivial trivial h
    obtain ⟨htimeout, h⟩ := leBytes_fin_unambiguous (by norm_num) _ _ _ _ trivial trivial h
    obtain ⟨hsoft, h⟩ := softDeadline_unambiguous _ _ _ _ trivial trivial h
    have hhard := (leBytes_fin_unambiguous (by norm_num)).of_eq trivial trivial h
    exact
      { protocolVersion := hversion, taskId := htask, stageName := hstage
        inputContentId := hinput, invocationKey := hkey, argsHash := hargsHash
        args := (canonicalJsonBytes_eq_iff numerals m.args.2 m'.args.2).mp hargs
        expectedContentId := hexpected, coordinatorId := hcoordinator, cpuCores := hcpu
        memoryGib := hmemory, gpu := hgpu, dataClass := hclass, timeoutSecs := htimeout
        deadline := by
          rcases hd : m.deadline with ⟨soft, hard⟩
          rcases hd' : m'.deadline with ⟨soft', hard'⟩
          rw [hd, hd'] at hsoft hhard
          rw [show soft = soft' from hsoft, show hard = hard' from hhard] }
  · intro h
    have hargs := (canonicalJsonBytes_eq_iff numerals m.args.2 m'.args.2).mpr h.args
    unfold TaskManifest.signPayload
    rw [h.protocolVersion, h.taskId, h.stageName, h.inputContentId, h.invocationKey, h.argsHash,
      hargs, h.expectedContentId, h.coordinatorId, h.cpuCores, h.memoryGib, h.gpu, h.dataClass,
      h.timeoutSecs, h.deadline]

theorem TaskResult.signPayload_eq_iff (numerals : Numerals N) {r' : TaskResult}
    (hr : (Message.result r).Short numerals) (hr' : (Message.result r').Short numerals) :
    r.signPayload = r'.signPayload ↔ (Message.result r : Message N).SignedSame (.result r') := by
  constructor
  · intro h
    simp only [TaskResult.signPayload, List.append_assoc] at h
    obtain ⟨hversion, h⟩ := leBytes_fin_unambiguous (by norm_num) _ _ _ _ trivial trivial h
    obtain ⟨htask, h⟩ := writeLpString_unambiguous _ _ _ _ hr hr' h
    obtain ⟨hpeer, h⟩ := fixed_unambiguous 32 _ _ _ _ trivial trivial h
    obtain ⟨hcontent, h⟩ := fixed_unambiguous 32 _ _ _ _ trivial trivial h
    exact ⟨hversion, htask, hpeer, hcontent,
      (leBytes_fin_unambiguous (by norm_num)).of_eq trivial trivial h⟩
  · rintro ⟨hversion, htask, hpeer, hcontent, hwall⟩
    unfold TaskResult.signPayload
    rw [hversion, htask, hpeer, hcontent, hwall]

theorem Introduction.signPayload_eq_iff {i i' : Introduction} :
    i.signPayload = i'.signPayload ↔
      (Message.introduction i : Message N).SignedSame (.introduction i') := by
  constructor
  · intro h
    simp only [Introduction.signPayload, List.append_assoc] at h
    have h := List.append_cancel_left h
    obtain ⟨hintroducer, h⟩ := fixed_unambiguous 32 _ _ _ _ trivial trivial h
    obtain ⟨hsubject, h⟩ := fixed_unambiguous 32 _ _ _ _ trivial trivial h
    obtain ⟨hpubkey, h⟩ := fixed_unambiguous 32 _ _ _ _ trivial trivial h
    obtain ⟨htrust, h⟩ := symbol_unambiguous level_injective _ _ _ _ trivial trivial h
    refine ⟨hintroducer, hsubject, hpubkey, htrust, BitVec.eq_of_toNat_eq ?_⟩
    exact leBytes_injective (by simpa using i.expiresAt.timestamp.isLt)
      (by simpa using i'.expiresAt.timestamp.isLt) h
  · rintro ⟨hintroducer, hsubject, hpubkey, htrust, htime⟩
    unfold Introduction.signPayload
    rw [hintroducer, hsubject, hpubkey, htrust, htime]

/-! ## Payloads of different kinds -/

theorem length_writeLpString (s : String) : (writeLpString s).length = 4 + s.utf8ByteSize := by
  simp [writeLpString, writeLpBytes, length_leBytes, length_utf8Bytes]

/-- A manifest goes on behind its task id for longer than a result. -/
theorem TaskManifest.signPayload_ne_result (numerals : Numerals N)
    (hm : (Message.manifest m).Short numerals) (hr : (Message.result r).Short numerals) :
    m.signPayload numerals ≠ r.signPayload := by
  intro h
  simp only [TaskManifest.signPayload, TaskResult.signPayload, List.append_assoc] at h
  obtain ⟨-, h⟩ := leBytes_fin_unambiguous (by norm_num) _ _ _ _ trivial trivial h
  obtain ⟨-, h⟩ := writeLpString_unambiguous _ _ _ _ hm.1 hr h
  have hlen := congrArg List.length h
  simp only [List.length_append, length_leBytes, m.inputContentId.2, m.invocationKey.2,
    m.argsHash.2, m.coordinatorId.2, r.peerId.2, r.contentId.2, writeLpBytes] at hlen
  omega

theorem length_introduction (i : Introduction) : i.signPayload.length = 125 := by
  have hdomain : introSigDomain.length = 20 := by decide +kernel
  simp [Introduction.signPayload, length_leBytes, hdomain, i.introducer.2, i.subject.2,
    i.subjectPubkey.2]

/-- A task id whose length the domain tag spells is longer than an introduction. -/
theorem headed_ne_introduction (version : Fin (2 ^ 16)) {taskId : String}
    (htask : taskId.utf8ByteSize < 2 ^ 32) (tail : List (Fin 256)) (i : Introduction) :
    leBytes 2 version ++ writeLpString taskId ++ tail ≠ i.signPayload := by
  intro h
  have hlen := congrArg List.length h
  rw [length_introduction, List.length_append, List.length_append, length_leBytes,
    length_writeLpString] at hlen
  have hdomain : introSigDomain =
      leBytes 2 27746 ++ leBytes 4 1764586613 ++ introSigDomain.drop 6 := by decide +kernel
  simp only [Introduction.signPayload, List.append_assoc, writeLpString, writeLpBytes] at h
  rw [hdomain, List.append_assoc, List.append_assoc] at h
  obtain ⟨-, h⟩ := List.append_inj h (by simp [length_leBytes])
  obtain ⟨hcount, -⟩ := List.append_inj h (by simp [length_leBytes])
  have hlength := leBytes_injective (by simpa [length_utf8Bytes] using htask) (by norm_num) hcount
  rw [length_utf8Bytes] at hlength
  omega

theorem TaskManifest.signPayload_ne_introduction (numerals : Numerals N)
    (hm : (Message.manifest m).Short numerals) (i : Introduction) :
    m.signPayload numerals ≠ i.signPayload := by
  have h := headed_ne_introduction m.protocolVersion hm.1
  simp only [TaskManifest.signPayload, List.append_assoc] at h ⊢
  exact h _ i

theorem TaskResult.signPayload_ne_introduction (numerals : Numerals N)
    (hr : (Message.result r).Short numerals) (i : Introduction) :
    r.signPayload ≠ i.signPayload := by
  have h := headed_ne_introduction r.protocolVersion hr
  simp only [TaskResult.signPayload, List.append_assoc] at h ⊢
  exact h _ i

/-- Two objects have one payload exactly when they are of one kind and agree in the fields it is
    made of. -/
theorem Message.payload_eq_iff (numerals : Numerals N) {x y : Message N} (hx : x.Short numerals)
    (hy : y.Short numerals) : x.payload numerals = y.payload numerals ↔ x.SignedSame y := by
  match x, y with
  | .manifest m, .manifest m' => exact TaskManifest.signPayload_eq_iff numerals hx hy
  | .result r, .result r' => exact TaskResult.signPayload_eq_iff numerals hx hy
  | .introduction i, .introduction i' => exact Introduction.signPayload_eq_iff
  | .manifest m, .result r =>
    exact iff_of_false (m.signPayload_ne_result numerals hx hy) id
  | .result r, .manifest m =>
    exact iff_of_false (m.signPayload_ne_result numerals hy hx).symm id
  | .manifest m, .introduction i =>
    exact iff_of_false (m.signPayload_ne_introduction numerals hx i) id
  | .introduction i, .manifest m =>
    exact iff_of_false (m.signPayload_ne_introduction numerals hy i).symm id
  | .result r, .introduction i =>
    exact iff_of_false (r.signPayload_ne_introduction numerals hx i) id
  | .introduction i, .result r =>
    exact iff_of_false (r.signPayload_ne_introduction numerals hy i).symm id

/-! ## Binding -/

/-- A signature scheme under one key, in which a signature verifies for the text it was made for
    and for no other. -/
structure SignatureScheme (S : Type) where
  sign : List (Fin 256) → S
  verify : List (Fin 256) → S → Bool
  verify_sign : ∀ text text', verify text' (sign text) = true ↔ text = text'

/-- The signature of one object binds it: no other object has its payload, and its signature
    verifies for no other. -/
def Message.Bound {S : Type} (numerals : Numerals N) (scheme : SignatureScheme S)
    (x y : Message N) : Prop :=
  (x.payload numerals = y.payload numerals → x.Same y) ∧
    (scheme.verify (y.payload numerals) (scheme.sign (x.payload numerals)) = true → x.Same y)

theorem signature_binds_iff {S : Type} (numerals : Numerals N) (scheme : SignatureScheme S)
    {x y : Message N} (hx : x.Short numerals) (hy : y.Short numerals) :
    Message.Bound numerals scheme x y ↔ (x.SignedSame y → x.OmittedSame y) := by
  unfold Message.Bound
  rw [scheme.verify_sign, and_self_iff, Message.payload_eq_iff numerals hx hy, Message.same_iff]
  tauto

/-- Texts as their own signatures. -/
def plainScheme : SignatureScheme (List (Fin 256)) where
  sign := id
  verify := fun text signature => signature == text
  verify_sign := by simp

def zeroDigest : Digest := ⟨List.replicate 32 0, rfl⟩

def sampleManifest : TaskManifest Bool where
  protocolVersion := 3
  taskId := "blut-job-0"
  coordinatorId := zeroDigest
  stageName := "fit"
  stageSchema := 1
  inputContentId := zeroDigest
  invocationKey := zeroDigest
  argsHash := zeroDigest
  expectedContentId := none
  args := ⟨.null, by simp [Json.DistinctKeys]⟩
  resources := ⟨1, 4, false, none⟩
  dataClass := .publicData
  timeoutSecs := 60
  deadline := ⟨none, 0⟩
  encryptedInput := none

theorem signature_binds_timeout :
    Message.Bound bits plainScheme (.manifest sampleManifest)
      (.manifest { sampleManifest with timeoutSecs := 61 }) := by
  refine (signature_binds_iff bits plainScheme ?_ ?_).mpr fun h => ?_
  · exact ⟨by decide +kernel, by decide +kernel, by decide +kernel⟩
  · exact ⟨by decide +kernel, by decide +kernel, by decide +kernel⟩
  · exact absurd h.timeoutSecs (by decide)

/-- The schema of a manifest's stage, a result's output and the last second of an introduction
    can be exchanged under the signature. -/
theorem signature_leaves_fields_open :
    (¬ Message.Bound bits plainScheme (.manifest sampleManifest)
      (.manifest { sampleManifest with stageSchema := 2 })) ∧
    (¬ Message.Bound bits plainScheme
      (.result ⟨3, "blut-job-0", zeroDigest, zeroDigest, none, 5⟩)
      (.result ⟨3, "blut-job-0", zeroDigest, zeroDigest,
        some ⟨[1], [], ⟨List.replicate 12 0, rfl⟩⟩, 5⟩)) ∧
    ¬ Message.Bound bits plainScheme
      (.introduction ⟨zeroDigest, zeroDigest, zeroDigest, .registered, ⟨7, 0⟩⟩)
      (.introduction ⟨zeroDigest, zeroDigest, zeroDigest, .registered, ⟨7, 999999999⟩⟩) := by
  refine ⟨fun h => ?_, fun h => ?_, fun h => ?_⟩
  · have hsame := (Message.same_iff.mp (h.1 rfl)).2.1
    exact absurd hsame (by decide)
  · exact absurd (Message.same_iff.mp (h.1 rfl)).2 (by simp [Message.OmittedSame])
  · exact absurd (Message.same_iff.mp (h.1 rfl)).2 (by simp [Message.OmittedSame])

end Blut.P2p
