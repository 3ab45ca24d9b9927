/-
  The encoders of the content identities tell their inputs apart.

  Every `put_*` and `hash_*` encoder is unambiguous on the values whose numbers fit the width
  they are written with and whose strings and lists are shorter than 2^32 (`Fits`). A record is
  its fields one after the other, so they are read off its text from the front
  (`Encodes.append_iff`).
-/
import Blut.GraphCore.Identity

namespace Blut.GraphCore

open Blut.Lib

/-! ## What fits its encoding -/

abbrev StrFits (value : String) : Prop := (utf8Bytes value).length < 2 ^ 32

abbrev I64Fits (value : Int) : Prop := -2 ^ 63 ≤ value ∧ value < 2 ^ 63

abbrev ListFits {α : Type} (P : α → Prop) (values : List α) : Prop :=
  values.length < 2 ^ 32 ∧ ∀ value ∈ values, P value

abbrev OptionFits {α : Type} (P : α → Prop) (value : Option α) : Prop := ∀ a ∈ value, P a

variable {α : Type} {P : α → Prop}

theorem listFits_sortBy {κ : Type} [LinearOrder κ] (key : α → κ) {values : List α}
    (h : ListFits P values) : ListFits P (sortBy key values) :=
  ⟨by rw [length_sortBy]; exact h.1, fun value hmem => h.2 value (mem_sortBy.mp hmem)⟩

theorem listFits_sortDedup {κ : Type} [LinearOrder κ] {P : κ → Prop} {values : List κ}
    (h : ListFits P values) : ListFits P (sortDedup values) :=
  ⟨lt_of_le_of_lt (sortDedup_length_le values) h.1, fun value hmem =>
    h.2 value (mem_sortDedup.mp hmem)⟩

theorem listFits_and {Q : α → Prop} {values : List α} (h : ListFits P values)
    (hq : ∀ value ∈ values, Q value) : ListFits (fun value => P value ∧ Q value) values :=
  ⟨h.1, fun value hmem => ⟨h.2 value hmem, hq value hmem⟩⟩

/-! ## Primitives -/

variable {put : α → List Byte}

instance putU8_encodes : Encodes (· < 2 ^ 8) putU8 :=
  ⟨(leBytes_unambiguous 1).mono fun n hn => by simpa using hn⟩

instance putU32_encodes : Encodes (· < 2 ^ 32) putU32 :=
  ⟨(leBytes_unambiguous 4).mono fun n hn => by simpa using hn⟩

instance putU64_encodes : Encodes (· < 2 ^ 64) putU64 :=
  ⟨(leBytes_unambiguous 8).mono fun n hn => by simpa using hn⟩

instance putI64_encodes : Encodes I64Fits putI64 := ⟨by
  refine putU64_encodes.unambiguous.view (fun value : Int => (value % 2 ^ 64).toNat) ?_ ?_
  · intro value _
    omega
  · intro value value' hv hv' h
    omega⟩

instance putBool_encodes : Encodes (fun _ => True) putBool := ⟨by
  refine putU8_encodes.unambiguous.view Bool.toNat ?_ ?_
  · intro value _
    cases value <;> decide
  · intro value value' _ _ h
    cases value <;> cases value' <;> simp_all⟩

instance putDigest_encodes : Encodes (fun _ => True) putDigest :=
  ⟨unambiguous_of_length 32 (fun digest => digest.property) fun _ _ _ _ h => Subtype.ext h⟩

instance putBytes_encodes : Encodes (fun bytes : List Byte => bytes.length < 2 ^ 32)
    (fun bytes => putU32 bytes.length ++ bytes) :=
  ⟨length_framed_unambiguous putU32_encodes.unambiguous fun _ _ h => h⟩

instance putStr_encodes : Encodes StrFits putStr :=
  ⟨length_framed_unambiguous putU32_encodes.unambiguous fun _ _ h => utf8Bytes_injective h⟩

instance [h : Encodes P put] : Encodes (ListFits P) (putList put) :=
  ⟨counted_unambiguous putU32_encodes.unambiguous h.unambiguous⟩

instance [h : Encodes P put] : Encodes (OptionFits P) (putOption put) :=
  ⟨tagged_unambiguous (by decide) h.unambiguous⟩

/-- A small enumeration, written by the place of a value among all of them. -/
theorem putOrdinal_unambiguous {ordinal : α → Nat} (values : List α)
    (hplace : ∀ a, values[ordinal a]? = some a) (hlen : values.length < 2 ^ 32) :
    Unambiguous (fun _ => True) (fun a => putU32 (ordinal a)) := by
  refine putU32_encodes.unambiguous.view ordinal (fun a _ => ?_) fun a a' _ _ h => ?_
  · exact (List.getElem?_eq_some_iff.mp (hplace a)).1.trans hlen
  · exact Option.some.inj ((hplace a).symm.trans (h ▸ hplace a'))

instance putStrSet_encodes : Encodes (ListFits StrFits) putStrSet :=
  inferInstanceAs (Encodes _ (putList putStr))

abbrev PortRef.Fits (port : PortRef) : Prop := port.node < 2 ^ 32 ∧ StrFits port.port

instance : Encodes PortRef.Fits putPortRef := ⟨by
  rintro ⟨⟩ ⟨⟩ s s' ⟨_, _⟩ ⟨_, _⟩ he
  simpa (disch := trivial) [putPortRef, and_assoc, Encodes.append_iff] using he⟩

/-! ## Enumerations -/

theorem determinism_unambiguous :
    Unambiguous (fun _ => True) (fun d : Determinism => putU32 d.ordinal) :=
  putOrdinal_unambiguous [.bitExact, .numericallyEquivalent, .seeded, .nondeterministic]
    (by rintro ⟨⟩ <;> rfl) (by decide)

theorem effect_unambiguous : Unambiguous (fun _ => True) (fun e : Effect => putU32 e.ordinal) :=
  putOrdinal_unambiguous [.pure, .idempotent, .transactional, .atMostOnce, .atLeastOnce]
    (by rintro ⟨⟩ <;> rfl) (by decide)

theorem partiality_unambiguous :
    Unambiguous (fun _ => True) (fun p : Partiality => putU32 p.ordinal) :=
  putOrdinal_unambiguous [.atomic, .explicitGaps] (by rintro ⟨⟩ <;> rfl) (by decide)

theorem leaseAccess_unambiguous :
    Unambiguous (fun _ => True) (fun a : LeaseAccess => putU32 a.ordinal) :=
  putOrdinal_unambiguous [.readOnly, .exclusiveWrite] (by rintro ⟨⟩ <;> rfl) (by decide)

theorem leaseLifetime_unambiguous :
    Unambiguous (fun _ => True) (fun l : LeaseLifetime => putU32 l.ordinal) :=
  putOrdinal_unambiguous [.step, .invocation, .session] (by rintro ⟨⟩ <;> rfl) (by decide)

theorem stateScope_unambiguous :
    Unambiguous (fun _ => True) (fun s : StateScope => putU32 s.ordinal) :=
  putOrdinal_unambiguous [.stateless, .invocation, .session, .durable]
    (by rintro ⟨⟩ <;> rfl) (by decide)

theorem checkpointMode_unambiguous :
    Unambiguous (fun _ => True) (fun m : CheckpointMode => putU32 m.ordinal) :=
  putOrdinal_unambiguous [.disabled, .optional, .required] (by rintro ⟨⟩ <;> rfl) (by decide)

/-! ## Configuration -/

def ConfigValue.Fits : ConfigValue → Prop
  | .bool _ => True
  | .i64 value => I64Fits value
  | .u64 value => value < 2 ^ 64
  | .text value => StrFits value
  | .bytes value => value.length < 2 ^ 32

instance (value : ConfigValue) : Decidable value.Fits :=
  match value with
  | .bool _ => inferInstanceAs (Decidable True)
  | .i64 value => inferInstanceAs (Decidable (I64Fits value))
  | .u64 value => inferInstanceAs (Decidable (value < 2 ^ 64))
  | .text value => inferInstanceAs (Decidable (StrFits value))
  | .bytes value => inferInstanceAs (Decidable (value.length < 2 ^ 32))

instance hashConfigValue_encodes : Encodes ConfigValue.Fits hashConfigValue := ⟨by
  intro a a' s s' ha ha' he
  -- the first byte is the tag; two values of one tag differ in their payload
  cases a with
  | bool value =>
    cases a' with
    | bool value' => exact putBool_encodes.under trivial trivial he
    | _ => simp [hashConfigValue] at he
  | i64 value =>
    cases a' with
    | i64 value' => exact putI64_encodes.under ha ha' he
    | _ => simp [hashConfigValue] at he
  | u64 value =>
    cases a' with
    | u64 value' => exact putU64_encodes.under ha ha' he
    | _ => simp [hashConfigValue] at he
  | text value =>
    cases a' with
    | text value' => exact putStr_encodes.under ha ha' he
    | _ => simp [hashConfigValue] at he
  | bytes value =>
    cases a' with
    | bytes value' => exact putBytes_encodes.under ha ha' he
    | _ => simp [hashConfigValue] at he⟩

abbrev ConfigFits (config : Config) : Prop :=
  ListFits (fun entry : String × ConfigValue => StrFits entry.1 ∧ entry.2.Fits) config.entries

instance hashConfig_encodes : Encodes ConfigFits hashConfig := ⟨by
  refine Unambiguous.view (counted_unambiguous putU32_encodes.unambiguous
    (putStr_encodes.unambiguous.append hashConfigValue_encodes.unambiguous))
    (fun config : Config => config.entries) (fun _ h => h) ?_
  rintro ⟨_, _⟩ ⟨_, _⟩ - - h
  simpa using h⟩

def ConfigType.Fits : ConfigType → Prop
  | .bool => True
  | .i64 minimum maximum => I64Fits minimum ∧ I64Fits maximum
  | .u64 minimum maximum => minimum < 2 ^ 64 ∧ maximum < 2 ^ 64
  | .text maxBytes => maxBytes < 2 ^ 32
  | .choice values => ListFits StrFits values
  | .bytes maxBytes => maxBytes < 2 ^ 32

instance (valueType : ConfigType) : Decidable valueType.Fits :=
  match valueType with
  | .bool => inferInstanceAs (Decidable True)
  | .i64 minimum maximum => inferInstanceAs (Decidable (I64Fits minimum ∧ I64Fits maximum))
  | .u64 minimum maximum => inferInstanceAs (Decidable (minimum < 2 ^ 64 ∧ maximum < 2 ^ 64))
  | .text maxBytes => inferInstanceAs (Decidable (maxBytes < 2 ^ 32))
  | .choice values => inferInstanceAs (Decidable (ListFits StrFits values))
  | .bytes maxBytes => inferInstanceAs (Decidable (maxBytes < 2 ^ 32))

instance : Encodes ConfigType.Fits hashConfigType := ⟨by
  intro a a' s s' ha ha' he
  cases a with
  | bool =>
    cases a' with
    | bool => exact ⟨rfl, (List.cons.inj he).2⟩
    | _ => simp [hashConfigType] at he
  | i64 minimum maximum =>
    cases a' with
    | i64 minimum' maximum' =>
      have ⟨_, _⟩ := ha
      have ⟨_, _⟩ := ha'
      simpa (disch := assumption) [hashConfigType, and_assoc, Encodes.append_iff] using he
    | _ => simp [hashConfigType] at he
  | u64 minimum maximum =>
    cases a' with
    | u64 minimum' maximum' =>
      have ⟨_, _⟩ := ha
      have ⟨_, _⟩ := ha'
      simpa (disch := assumption) [hashConfigType, and_assoc, Encodes.append_iff] using he
    | _ => simp [hashConfigType] at he
  | text maxBytes =>
    cases a' with
    | text maxBytes' => exact putU32_encodes.under ha ha' he
    | _ => simp [hashConfigType] at he
  | choice values =>
    cases a' with
    | choice values' => exact putStrSet_encodes.under ha ha' he
    | _ => simp [hashConfigType] at he
  | bytes maxBytes =>
    cases a' with
    | bytes maxBytes' => exact putU32_encodes.under ha ha' he
    | _ => simp [hashConfigType] at he⟩

abbrev ConfigField.Fits (field : ConfigField) : Prop :=
  StrFits field.name ∧ field.valueType.Fits ∧ OptionFits ConfigValue.Fits field.default

instance : Encodes ConfigField.Fits hashConfigField := ⟨by
  rintro ⟨⟩ ⟨⟩ s s' ⟨_, _, _⟩ ⟨_, _, _⟩ he
  simpa (disch := trivial) [hashConfigField, and_assoc, Encodes.append_iff] using he⟩

abbrev ConfigSchema.Fits (schema : ConfigSchema) : Prop := ListFits ConfigField.Fits schema.fields

instance : Encodes ConfigSchema.Fits hashConfigSchema := ⟨by
  refine (inferInstance : Encodes _ (putList hashConfigField)).unambiguous.view
    (fun schema : ConfigSchema => schema.fields) (fun _ h => h) ?_
  rintro ⟨_⟩ ⟨_⟩ - - h
  simpa using h⟩

/-! ## Contracts -/

abbrev DomainType.Fits (domain : DomainType) : Prop := StrFits domain.root ∧ StrFits domain.view

instance : Encodes DomainType.Fits hashDomainType := ⟨by
  rintro ⟨⟩ ⟨⟩ s s' ⟨_, _⟩ ⟨_, _⟩ he
  simpa (disch := trivial) [hashDomainType, and_assoc, Encodes.append_iff] using he⟩

abbrev ProofContract.Fits (proof : ProofContract) : Prop :=
  (ListFits StrFits proof.requires ∧ ListFits StrFits proof.provides) ∧
    ListFits StrFits proof.invalidates

instance : Encodes ProofContract.Fits hashProof := ⟨by
  rintro ⟨⟩ ⟨⟩ s s' ⟨⟨_, _⟩, _⟩ ⟨⟨_, _⟩, _⟩ he
  simpa (disch := trivial) [hashProof, and_assoc, Encodes.append_iff] using he⟩

abbrev PolicyContract.Fits (policy : PolicyContract) : Prop :=
  ListFits StrFits policy.requires ∧ ListFits StrFits policy.adds

instance : Encodes PolicyContract.Fits hashPolicy := ⟨by
  rintro ⟨⟩ ⟨⟩ s s' ⟨_, _⟩ ⟨_, _⟩ he
  simpa (disch := trivial) [hashPolicy, and_assoc, Encodes.append_iff] using he⟩

abbrev FidelityContract.Fits (fidelity : FidelityContract) : Prop :=
  fidelity.minimumInput < 2 ^ 32 ∧ fidelity.maximumLoss < 2 ^ 32

instance : Encodes FidelityContract.Fits hashFidelity := ⟨by
  rintro ⟨⟩ ⟨⟩ s s' ⟨_, _⟩ ⟨_, _⟩ he
  simpa (disch := trivial) [hashFidelity, and_assoc, Encodes.append_iff] using he⟩

abbrev ExtentContract.Fits (extent : ExtentContract) : Prop :=
  extent.rank < 2 ^ 8 ∧ ListFits (· < 2 ^ 64) extent.maximumShape ∧ extent.maxElements < 2 ^ 64

instance : Encodes ExtentContract.Fits hashExtent := ⟨by
  rintro ⟨⟩ ⟨⟩ s s' ⟨_, _, _⟩ ⟨_, _, _⟩ he
  simpa (disch := trivial) [hashExtent, and_assoc, Encodes.append_iff] using he⟩

instance : Encodes (fun _ => True) hashLease := ⟨by
  rintro ⟨⟩ ⟨⟩ s s' - - he
  simpa (disch := trivial) [hashLease, and_assoc, leaseAccess_unambiguous.append_iff,
    leaseLifetime_unambiguous.append_iff, Encodes.append_iff] using he⟩

abbrev StateContract.Fits (state : StateContract) : Prop :=
  state.maxBytes < 2 ^ 64 ∧ state.checkpoint.maxSnapshotBytes < 2 ^ 64 ∧
    state.checkpoint.maxIntervalInvocations < 2 ^ 32

instance : Encodes StateContract.Fits hashState := ⟨by
  rintro ⟨_, _, _, _, _⟩ ⟨_, _, _, _, _⟩ s s' ⟨_, _, _⟩ ⟨_, _, _⟩ he
  simpa (disch := trivial) [hashState, and_assoc, stateScope_unambiguous.append_iff,
    Encodes.append_iff, checkpointMode_unambiguous.append_iff] using he⟩

abbrev PortMap.Fits (map : PortMap) : Prop := StrFits map.outer ∧ StrFits map.inner

instance : Encodes PortMap.Fits hashPortMap := ⟨by
  rintro ⟨⟩ ⟨⟩ s s' ⟨_, _⟩ ⟨_, _⟩ he
  simpa (disch := trivial) [hashPortMap, and_assoc, Encodes.append_iff] using he⟩

abbrev SubgraphConfigMap.Fits (map : SubgraphConfigMap) : Prop :=
  (StrFits map.outer ∧ map.node < 2 ^ 32) ∧ StrFits map.inner

instance : Encodes SubgraphConfigMap.Fits hashConfigMap := ⟨by
  rintro ⟨⟩ ⟨⟩ s s' ⟨⟨_, _⟩, _⟩ ⟨⟨_, _⟩, _⟩ he
  simpa (disch := trivial) [hashConfigMap, and_assoc, Encodes.append_iff] using he⟩

abbrev SubgraphLowering.Fits (lowering : SubgraphLowering) : Prop :=
  ListFits PortMap.Fits lowering.inputMap ∧ ListFits PortMap.Fits lowering.outputMap ∧
    ListFits SubgraphConfigMap.Fits lowering.configMap

instance : Encodes SubgraphLowering.Fits hashLowering := ⟨by
  rintro ⟨⟩ ⟨⟩ s s' ⟨_, _, _⟩ ⟨_, _, _⟩ he
  simpa (disch := trivial) [hashLowering, hashPortMaps, and_assoc, Encodes.append_iff] using he⟩

instance : Encodes (fun _ => True) hashDelayInitial := ⟨by
  intro a a' s s' _ _ he
  cases a with
  | absent =>
    cases a' with
    | absent => exact ⟨rfl, (List.cons.inj he).2⟩
    | _ => simp [hashDelayInitial] at he
  | zeroed =>
    cases a' with
    | zeroed => exact ⟨rfl, (List.cons.inj he).2⟩
    | _ => simp [hashDelayInitial] at he
  | contentId id =>
    cases a' with
    | contentId id' => exact putDigest_encodes.under trivial trivial he
    | _ => simp [hashDelayInitial] at he⟩

abbrev SessionContract.Fits (session : SessionContract) : Prop :=
  StrFits session.namespaceName ∧ session.maxConcurrentSessions < 2 ^ 32 ∧
    session.maxIdleMillis < 2 ^ 64

instance : Encodes SessionContract.Fits hashSessionContract := ⟨by
  rintro ⟨⟩ ⟨⟩ s s' ⟨_, _, _⟩ ⟨_, _, _⟩ he
  simpa (disch := trivial) [hashSessionContract, and_assoc, Encodes.append_iff] using he⟩

instance : Encodes (OptionFits SessionContract.Fits) hashSession :=
  inferInstanceAs (Encodes _ (putOption hashSessionContract))

abbrev ResourceEnvelope.Fits (resources : ResourceEnvelope) : Prop :=
  ((resources.peakBytes < 2 ^ 64 ∧ resources.scratchBytes < 2 ^ 64) ∧ resources.threads < 2 ^ 32) ∧
    OptionFits StrFits resources.device

instance : Encodes ResourceEnvelope.Fits hashResources := ⟨by
  rintro ⟨⟩ ⟨⟩ s s' ⟨⟨⟨_, _⟩, _⟩, _⟩ ⟨⟨⟨_, _⟩, _⟩, _⟩ he
  simpa (disch := trivial) [hashResources, and_assoc, Encodes.append_iff] using he⟩

/-! ## Graphs and schemas -/

abbrev Edge.Fits (edge : Edge) : Prop := edge.src.Fits ∧ edge.dst.Fits

instance : Encodes Edge.Fits hashEdge := ⟨by
  rintro ⟨⟩ ⟨⟩ s s' ⟨_, _⟩ ⟨_, _⟩ he
  simpa (disch := trivial) [hashEdge, and_assoc, Encodes.append_iff] using he⟩

abbrev FeedbackEdge.Fits (edge : FeedbackEdge) : Prop :=
  edge.src.Fits ∧ edge.dst.Fits ∧ edge.delay.invocations < 2 ^ 32

instance : Encodes FeedbackEdge.Fits hashFeedbackEdge := ⟨by
  rintro ⟨_, _, _, _⟩ ⟨_, _, _, _⟩ s s' ⟨_, _, _⟩ ⟨_, _, _⟩ he
  simpa (disch := trivial) [hashFeedbackEdge, and_assoc, Encodes.append_iff] using he⟩

abbrev SubgraphNode.Fits (node : SubgraphNode) : Prop :=
  node.id < 2 ^ 32 ∧ StrFits node.nodeType.typeName ∧ node.nodeType.version < 2 ^ 32 ∧
    ConfigFits node.config

instance : Encodes SubgraphNode.Fits hashSubgraphNode := ⟨by
  rintro ⟨_, ⟨_, _⟩, _, _⟩ ⟨_, ⟨_, _⟩, _, _⟩ s s' ⟨_, _, _, _⟩ ⟨_, _, _, _⟩ he
  simpa (disch := first | trivial | exact fun _ _ => trivial) [hashSubgraphNode, and_assoc,
    Encodes.append_iff] using he⟩

abbrev SubgraphInterfacePort.Fits (port : SubgraphInterfacePort) : Prop :=
  StrFits port.name ∧ port.inner.Fits

instance : Encodes SubgraphInterfacePort.Fits hashInterfacePort := ⟨by
  rintro ⟨⟩ ⟨⟩ s s' ⟨_, _⟩ ⟨_, _⟩ he
  simpa (disch := trivial) [hashInterfacePort, and_assoc, Encodes.append_iff] using he⟩

/-! ## Compiled plans -/

def CompiledPortContract.Fits (port : CompiledPortContract) : Prop :=
  StrFits port.name ∧ StrFits port.semanticType ∧ port.layout < 2 ^ 32 ∧ port.maxBytes < 2 ^ 64 ∧
    port.domain.Fits ∧ port.proof.Fits ∧ port.policy.Fits ∧ port.fidelity.Fits ∧ port.extent.Fits

instance : DecidablePred CompiledPortContract.Fits := fun port => by
  delta CompiledPortContract.Fits
  infer_instance

instance : Encodes CompiledPortContract.Fits hashCompiledPort := ⟨by
  rintro ⟨⟩ ⟨⟩ s s' ⟨_, _, _, _, _, _, _, _, _⟩ ⟨_, _, _, _, _, _, _, _, _⟩ he
  simpa (disch := trivial) [hashCompiledPort, and_assoc, Encodes.append_iff] using he⟩

abbrev NodeTypeRef.Fits (nodeType : NodeTypeRef) : Prop :=
  StrFits nodeType.typeName ∧ nodeType.version < 2 ^ 32

instance : Encodes NodeTypeRef.Fits hashNodeTypeRef := ⟨by
  rintro ⟨⟩ ⟨⟩ s s' ⟨_, _⟩ ⟨_, _⟩ he
  simpa (disch := trivial) [hashNodeTypeRef, and_assoc, Encodes.append_iff] using he⟩

abbrev LayoutConversion.Fits (conversion : LayoutConversion) : Prop :=
  (((StrFits conversion.semanticType ∧ conversion.src < 2 ^ 32) ∧ conversion.dst < 2 ^ 32) ∧
    conversion.maxInputBytes < 2 ^ 64) ∧ conversion.maxOutputBytes < 2 ^ 64

instance : Encodes LayoutConversion.Fits hashConversion := ⟨by
  rintro ⟨⟩ ⟨⟩ s s' ⟨⟨⟨⟨_, _⟩, _⟩, _⟩, _⟩ ⟨⟨⟨⟨_, _⟩, _⟩, _⟩, _⟩ he
  simpa (disch := trivial) [hashConversion, and_assoc, Encodes.append_iff] using he⟩

def InputBinding.Fits : InputBinding → Prop
  | .buffer id => id < 2 ^ 32
  | .invocation port => port < 2 ^ 32
  | .feedback id => id < 2 ^ 32
  | .absent => True

instance (binding : InputBinding) : Decidable binding.Fits :=
  match binding with
  | .buffer id => inferInstanceAs (Decidable (id < 2 ^ 32))
  | .invocation port => inferInstanceAs (Decidable (port < 2 ^ 32))
  | .feedback id => inferInstanceAs (Decidable (id < 2 ^ 32))
  | .absent => inferInstanceAs (Decidable True)

instance : Encodes InputBinding.Fits hashInputBinding := ⟨by
  intro a a' s s' ha ha' he
  cases a with
  | buffer id =>
    cases a' with
    | buffer id' => exact putU32_encodes.under ha ha' he
    | _ => simp [hashInputBinding] at he
  | invocation port =>
    cases a' with
    | invocation port' => exact putU32_encodes.under ha ha' he
    | _ => simp [hashInputBinding] at he
  | feedback id =>
    cases a' with
    | feedback id' => exact putU32_encodes.under ha ha' he
    | _ => simp [hashInputBinding] at he
  | absent =>
    cases a' with
    | absent => exact ⟨rfl, (List.cons.inj he).2⟩
    | _ => simp [hashInputBinding] at he⟩

def OutputBinding.Fits : OutputBinding → Prop
  | .buffer id => id < 2 ^ 32
  | .terminal => True

instance (binding : OutputBinding) : Decidable binding.Fits :=
  match binding with
  | .buffer id => inferInstanceAs (Decidable (id < 2 ^ 32))
  | .terminal => inferInstanceAs (Decidable True)

instance : Encodes OutputBinding.Fits hashOutputBinding := ⟨by
  intro a a' s s' ha ha' he
  cases a with
  | buffer id =>
    cases a' with
    | buffer id' => exact putU32_encodes.under ha ha' he
    | _ => simp [hashOutputBinding] at he
  | terminal =>
    cases a' with
    | terminal => exact ⟨rfl, (List.cons.inj he).2⟩
    | _ => simp [hashOutputBinding] at he⟩

/-- The failure domains are written sorted, so they are compared only when they are so. -/
abbrev FailureContract.Sorted (failure : FailureContract) : Prop :=
  failure.domains.Pairwise (· < ·)

def CompiledNode.Fits (node : CompiledNode) : Prop :=
  (node.id < 2 ^ 32 ∧ ListFits (· < 2 ^ 32) node.semanticNodes ∧
    ListFits NodeTypeRef.Fits node.semanticTypes ∧ ListFits ConfigFits node.semanticConfigs ∧
    node.kernel < 2 ^ 32 ∧ node.resources.Fits ∧ StrFits node.lowering ∧
    OptionFits LayoutConversion.Fits node.conversion) ∧
  (ListFits StrFits node.inputPorts ∧ ListFits StrFits node.outputPorts ∧
    ListFits CompiledPortContract.Fits node.inputContracts ∧
    ListFits CompiledPortContract.Fits node.outputContracts ∧
    ListFits InputBinding.Fits node.inputBindings ∧
    ListFits OutputBinding.Fits node.outputBindings) ∧
  ListFits StrFits node.failure.domains ∧ node.retryLimit < 2 ^ 32 ∧ node.state.Fits ∧
    node.subgraphPath.length < 2 ^ 32

instance : DecidablePred CompiledNode.Fits := fun node => by
  delta CompiledNode.Fits
  infer_instance

instance : Encodes (fun node => CompiledNode.Fits node ∧ node.failure.Sorted) hashCompiledNode :=
    ⟨by
  rintro node node' s s' ⟨⟨⟨_, _, _, _, _, _, _, _⟩, ⟨_, _, _, _, _, _⟩, _, _, _, hpath⟩, hsorted⟩
    ⟨⟨⟨_, _, _, _, _, _, _, _⟩, ⟨_, _, _, _, _, _⟩, _, _, _, hpath'⟩, hsorted'⟩ he
  have hpath : ListFits (fun _ => True) node.subgraphPath := ⟨hpath, fun _ _ => trivial⟩
  have hpath' : ListFits (fun _ => True) node'.subgraphPath := ⟨hpath', fun _ _ => trivial⟩
  unfold hashCompiledNode hashCompiledPorts at he
  simp (disch := first | assumption | exact trivial) only [List.append_assoc, Encodes.append_iff,
    sortDedup_of_sorted hsorted, sortDedup_of_sorted hsorted', determinism_unambiguous.append_iff,
    partiality_unambiguous.append_iff, effect_unambiguous.append_iff] at he
  obtain ⟨_, _, _, _, _, _, _, _, _, _, _, _, _, _, _, _, _, ⟨_⟩, _, _, _, _⟩ := node
  obtain ⟨_, _, _, _, _, _, _, _, _, _, _, _, _, _, _, _, _, ⟨_⟩, _, _, _, _⟩ := node'
  simpa [and_assoc] using he⟩

def BufferPlan.Fits (buffer : BufferPlan) : Prop :=
  (((((buffer.id < 2 ^ 32 ∧ buffer.layout < 2 ^ 32) ∧ buffer.capacityBytes < 2 ^ 64) ∧
    buffer.producer < 2 ^ 32) ∧ ListFits (· < 2 ^ 32) buffer.consumers) ∧
    buffer.lastConsumer < 2 ^ 32) ∧ OptionFits (· < 2 ^ 32) buffer.aliases

instance : DecidablePred BufferPlan.Fits := fun buffer => by
  delta BufferPlan.Fits
  infer_instance

instance : Encodes BufferPlan.Fits hashBuffer := ⟨by
  rintro ⟨⟩ ⟨⟩ s s' ⟨⟨⟨⟨⟨⟨_, _⟩, _⟩, _⟩, _⟩, _⟩, _⟩ ⟨⟨⟨⟨⟨⟨_, _⟩, _⟩, _⟩, _⟩, _⟩, _⟩ he
  simpa (disch := trivial) [hashBuffer, and_assoc, Encodes.append_iff] using he⟩

def FeedbackPlan.Fits (feedback : FeedbackPlan) : Prop :=
  feedback.id < 2 ^ 32 ∧ feedback.fromStep < 2 ^ 32 ∧ feedback.fromPort < 2 ^ 32 ∧
    feedback.toStep < 2 ^ 32 ∧ feedback.toPort < 2 ^ 32 ∧
    feedback.delay.invocations < 2 ^ 32 ∧ feedback.stateBytes < 2 ^ 64

instance : DecidablePred FeedbackPlan.Fits := fun feedback => by
  delta FeedbackPlan.Fits
  infer_instance

instance : Encodes FeedbackPlan.Fits hashFeedbackPlan := ⟨by
  rintro ⟨_, _, _, _, _, ⟨_, _⟩, _⟩ ⟨_, _, _, _, _, ⟨_, _⟩, _⟩ s s' ⟨_, _, _, _, _, _, _⟩
    ⟨_, _, _, _, _, _, _⟩ he
  simpa (disch := trivial) [hashFeedbackPlan, and_assoc, Encodes.append_iff] using he⟩

end Blut.GraphCore
