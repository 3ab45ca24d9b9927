/-
  Node configuration (`config.rs`): schema normalization and the canonical form of an
  instance's configuration.

  `canonicalize_eq_ok` says exactly when an instance is accepted and what it becomes;
  it becomes a fixed point (`canonicalize_fixed`).
-/
import Blut.GraphCore.Model

namespace Blut.GraphCore

open Blut.Lib

inductive ConfigError where
  | duplicateField (name : String)
  | invalidField (name : String)
  | unknownField (name : String)
  | missingField (name : String)
  | invalidValue (name : String)
  deriving DecidableEq

def validType : ConfigType → Bool
  | .i64 minimum maximum => minimum ≤ maximum
  | .u64 minimum maximum => minimum ≤ maximum
  | .text maxBytes => 0 < maxBytes
  | .bytes maxBytes => 0 < maxBytes
  | .choice values =>
    !values.isEmpty && values.all (fun value => value ≠ "") && !hasDuplicates values
  | .bool => true

def validValue : ConfigType → ConfigValue → Bool
  | .bool, .bool _ => true
  | .i64 minimum maximum, .i64 value => value ≥ minimum && value ≤ maximum
  | .u64 minimum maximum, .u64 value => value ≥ minimum && value ≤ maximum
  | .text maxBytes, .text value => value.utf8ByteSize ≤ maxBytes
  | .choice values, .text value => values.contains value
  | .bytes maxBytes, .bytes value => value.length ≤ maxBytes
  | _, _ => false

/-- `values.sort_unstable(); values.dedup()` on a choice, nothing elsewhere. -/
def ConfigType.normalized : ConfigType → ConfigType
  | .choice values => .choice (sortDedup values)
  | other => other

/-- A choice without values or with an empty one. -/
def ConfigType.emptyChoice : ConfigType → Bool
  | .choice values => values.isEmpty || values.any (fun value => value = "")
  | _ => false

/-- The body of the field loop of `ConfigSchema::normalize`. -/
def ConfigField.normalize (field : ConfigField) : Outcome ConfigError ConfigField := do
  reject (field.name = "" || (field.required && field.default.isSome)) (.invalidField field.name)
  let valueType := field.valueType.normalized
  reject valueType.emptyChoice (.invalidField field.name)
  reject (!validType valueType ||
      field.default.any (fun value => !validValue valueType value)) (.invalidField field.name)
  return { field with valueType := valueType }

namespace ConfigSchema

/-- `ConfigSchema::normalize`. The schema is dropped by the caller when this fails. -/
def normalize (schema : ConfigSchema) : Outcome ConfigError ConfigSchema := do
  let fields := sortBy ConfigField.name schema.fields
  match windowsFind (fun a b => decide (a.name = b.name)) fields with
  | some field => fail (.duplicateField field.name)
  | none =>
    let fields ← fields.mapM ConfigField.normalize
    return { fields := fields }

/-- The value an instance gives a field: the supplied one, else the default. -/
def chosen (supplied : Config) (field : ConfigField) : Option ConfigValue :=
  (supplied.get? field.name).or field.default

/-- The body of the field loop of `ConfigSchema::canonicalize`. -/
def canonicalStep (supplied normalized : Config) (field : ConfigField) :
    Outcome ConfigError Config :=
  match chosen supplied field with
  | some value =>
    if validValue field.valueType value then .ok (normalized.insert field.name value)
    else fail (.invalidValue field.name)
  | none => if field.required then fail (.missingField field.name) else .ok normalized

/-- `ConfigSchema::canonicalize`. -/
def canonicalize (schema : ConfigSchema) (supplied : Config) : Outcome ConfigError Config :=
  match supplied.keys.find? (fun name => !(schema.fields.map ConfigField.name).contains name) with
  | some unknown => fail (.unknownField unknown)
  | none => schema.fields.foldlM (canonicalStep supplied) BTreeMap.empty

/-! ## What canonicalization accepts and returns -/

variable {fields : List ConfigField}

/-- Every supplied key is a field, every value used is valid, every required field has one. -/
structure Accepts (schema : ConfigSchema) (supplied : Config) : Prop where
  known : ∀ name ∈ supplied.keys, name ∈ schema.fields.map ConfigField.name
  valid : ∀ field ∈ schema.fields, ∀ value, chosen supplied field = some value →
    validValue field.valueType value = true
  present : ∀ field ∈ schema.fields, field.required = true → (chosen supplied field).isSome = true

/-- The chosen values under their names. -/
def filled (schema : ConfigSchema) (supplied : Config) : Config :=
  BTreeMap.ofList (schema.fields.filterMap fun field =>
    (chosen supplied field).map fun value => (field.name, value))

variable {supplied out : Config} {field : ConfigField} {schema : ConfigSchema}

theorem canonicalStep_eq_ok {normalized : Config} :
    canonicalStep supplied normalized field = .ok out ↔
      (∀ value, chosen supplied field = some value → validValue field.valueType value = true) ∧
      (field.required = true → (chosen supplied field).isSome = true) ∧
      out = ((chosen supplied field).map fun value => (field.name, value)).elim normalized
        fun entry => normalized.insert entry.1 entry.2 := by
  unfold canonicalStep
  cases h : chosen supplied field with
  | none =>
    by_cases hr : field.required = true
    · simp [hr]
    · simp [hr, eq_comm (a := normalized)]
  | some value =>
    by_cases hv : validValue field.valueType value = true
    · simp [hv, eq_comm (b := out)]
    · simp [hv]

theorem foldlM_canonicalStep_eq_ok {start : Config} :
    fields.foldlM (canonicalStep supplied) start = .ok out ↔
      (∀ field ∈ fields, ∀ value, chosen supplied field = some value →
        validValue field.valueType value = true) ∧
      (∀ field ∈ fields, field.required = true → (chosen supplied field).isSome = true) ∧
      out = (fields.filterMap fun field =>
        (chosen supplied field).map fun value => (field.name, value)).foldl
          (fun m e => m.insert e.1 e.2) start := by
  induction fields generalizing start with
  | nil => simp [eq_comm (a := start)]
  | cons field fields ih =>
    rw [foldlM_cons_ok]
    constructor
    · rintro ⟨mid, hmid, hrest⟩
      obtain ⟨hv, hp, rfl⟩ := canonicalStep_eq_ok.mp hmid
      obtain ⟨hvs, hps, rfl⟩ := ih.mp hrest
      refine ⟨by simpa using ⟨hv, hvs⟩, by simpa using ⟨hp, hps⟩, ?_⟩
      cases hc : chosen supplied field <;> simp [hc]
    · rintro ⟨hvs, hps, rfl⟩
      refine ⟨_, canonicalStep_eq_ok.mpr ⟨hvs field List.mem_cons_self,
        hps field List.mem_cons_self, rfl⟩, ih.mpr ⟨fun f hf => hvs f (List.mem_cons_of_mem _ hf),
        fun f hf => hps f (List.mem_cons_of_mem _ hf), ?_⟩⟩
      cases hc : chosen supplied field <;> simp [hc]

/-- Canonicalization returns exactly on accepted instances, and returns the chosen values. -/
theorem canonicalize_eq_ok : schema.canonicalize supplied = .ok out ↔
      schema.Accepts supplied ∧ out = schema.filled supplied := by
  unfold canonicalize
  cases hu : supplied.keys.find?
      (fun name => !(schema.fields.map ConfigField.name).contains name) with
  | some unknown =>
    have hmem := List.mem_of_find?_eq_some hu
    have hnot := List.find?_some hu
    simp only [fail_ne_ok, false_iff]
    rintro ⟨hacc, -⟩
    have := hacc.known unknown hmem
    simp_all
  | none =>
    have hknown : ∀ name ∈ supplied.keys, name ∈ schema.fields.map ConfigField.name := by
      intro name hname
      have := List.find?_eq_none.mp hu name hname
      simpa using this
    show schema.fields.foldlM (canonicalStep supplied) BTreeMap.empty = .ok out ↔ _
    rw [foldlM_canonicalStep_eq_ok]
    constructor
    · rintro ⟨hv, hp, rfl⟩
      exact ⟨⟨hknown, hv, hp⟩, rfl⟩
    · rintro ⟨hacc, rfl⟩
      exact ⟨hacc.valid, hacc.present, rfl⟩

section

variable (hnd : (schema.fields.map ConfigField.name).Nodup)
include hnd

theorem nodup_filled_keys (supplied : Config) : ((schema.fields.filterMap fun field =>
      (chosen supplied field).map fun value => (field.name, value)).map Prod.fst).Nodup := by
  have hsub : ((schema.fields.filterMap fun field =>
      (chosen supplied field).map fun value => (field.name, value)).map Prod.fst).Sublist
        (schema.fields.map ConfigField.name) := by
    induction schema.fields with
    | nil => simp
    | cons field fields ih =>
      cases hc : chosen supplied field with
      | none => simpa [hc] using ih.cons field.name
      | some value => simpa [hc] using ih.cons_cons field.name
  exact hnd.sublist hsub

/-- The canonical form of a field is its chosen value. -/
theorem get?_filled (supplied : Config) (hf : field ∈ schema.fields) :
    (schema.filled supplied).get? field.name = chosen supplied field := by
  apply Option.ext
  intro value
  rw [filled, BTreeMap.get?_ofList_eq_some (nodup_filled_keys hnd supplied), List.mem_filterMap]
  constructor
  · rintro ⟨other, hother, hentry⟩
    obtain ⟨v, hv, he⟩ := Option.map_eq_some_iff.mp hentry
    have hname : other.name = field.name := congrArg Prod.fst he
    have : other = field := List.inj_on_of_nodup_map hnd hother hf hname
    have hvalue : v = value := congrArg Prod.snd he
    rw [← this, hv, hvalue]
  · intro hv
    exact ⟨field, hf, by rw [hv]; rfl⟩

omit hnd in
theorem mem_keys_filled (supplied : Config) {name : String}
    (h : name ∈ (schema.filled supplied).keys) : name ∈ schema.fields.map ConfigField.name := by
  obtain ⟨value, hv⟩ := (BTreeMap.mem_keys_iff _).mp h
  obtain ⟨field, hf, hentry⟩ := List.mem_filterMap.mp (BTreeMap.mem_of_get?_ofList hv)
  obtain ⟨v, -, he⟩ := Option.map_eq_some_iff.mp hentry
  exact List.mem_map.mpr ⟨field, hf, congrArg Prod.fst he⟩

theorem chosen_filled (supplied : Config) (hf : field ∈ schema.fields) :
    chosen (schema.filled supplied) field = chosen supplied field := by
  unfold chosen
  rw [get?_filled hnd supplied hf]
  unfold chosen
  cases supplied.get? field.name <;> cases field.default <;> rfl

theorem filled_filled (supplied : Config) :
    schema.filled (schema.filled supplied) = schema.filled supplied := by
  unfold filled
  congr 1
  refine List.filterMap_congr fun field hf => ?_
  have := chosen_filled hnd supplied hf
  unfold filled at this
  rw [this]

/-- A canonical configuration is a fixed point. -/
theorem canonicalize_fixed
    (h : schema.canonicalize supplied = .ok out) : schema.canonicalize out = .ok out := by
  obtain ⟨hacc, rfl⟩ := canonicalize_eq_ok.mp h
  refine canonicalize_eq_ok.mpr ⟨⟨fun name => mem_keys_filled supplied, ?_, ?_⟩,
    (filled_filled hnd supplied).symm⟩
  · intro field hf value hv
    rw [chosen_filled hnd supplied hf] at hv
    exact hacc.valid field hf value hv
  · intro field hf hr
    rw [chosen_filled hnd supplied hf]
    exact hacc.present field hf hr

/-- An accepted instance with another valid value for one of the fields is accepted. -/
theorem Accepts.insert
    (hacc : schema.Accepts supplied) (hf : field ∈ schema.fields) {value : ConfigValue}
    (hv : validValue field.valueType value = true) :
    schema.Accepts (supplied.insert field.name value) := by
  have hchosen : ∀ other ∈ schema.fields, chosen (supplied.insert field.name value) other =
      if other = field then some value else chosen supplied other := by
    intro other hother
    unfold chosen
    by_cases h : other = field
    · rw [if_pos h, h, BTreeMap.get?_insert_self]
      rfl
    · have hne : other.name ≠ field.name := fun he =>
        h (List.inj_on_of_nodup_map hnd hother hf he)
      rw [if_neg h, BTreeMap.get?_insert_ne _ _ hne]
  refine ⟨fun name hname => ?_, fun other hother v hv' => ?_, fun other hother hr => ?_⟩
  · obtain ⟨v, hget⟩ := (BTreeMap.mem_keys_iff _).mp hname
    rcases BTreeMap.get?_insert_cases hget with hold | ⟨hn, -⟩
    · exact hacc.known name ((BTreeMap.mem_keys_iff _).mpr ⟨v, hold⟩)
    · rw [hn]
      exact List.mem_map_of_mem hf
  · rw [hchosen other hother] at hv'
    split_ifs at hv' with h
    · rw [h, ← Option.some.inj hv']
      exact hv
    · exact hacc.valid other hother v hv'
  · rw [hchosen other hother]
    split_ifs with h
    · rfl
    · exact hacc.present other hother hr

end

/-! ## Normalized schemas -/

variable {out : ConfigSchema}

theorem normalize_field_ok {out : ConfigField} (h : field.normalize = .ok out) :
    out.name = field.name ∧ out.normalize = .ok out ∧
      (out.required = true → out.default = none) := by
  have hidem : field.valueType.normalized.normalized = field.valueType.normalized := by
    cases field.valueType <;> simp [ConfigType.normalized]
  simp only [ConfigField.normalize, bind_eq_ok, reject_eq_ok, pure_eq_ok, Except.ok.injEq] at h ⊢
  obtain ⟨_, hname, _, hchoice, _, hvalid, rfl⟩ := h
  refine ⟨rfl, ⟨(), hname, (), by rwa [hidem], (), by rwa [hidem], by rw [hidem]⟩,
    fun hrequired => ?_⟩
  simpa [show field.required = true from hrequired] using (Bool.or_eq_false_iff.mp hname).2

theorem map_name_of_mapM {out : List ConfigField}
    (h : fields.mapM ConfigField.normalize = .ok out) :
    out.map ConfigField.name = fields.map ConfigField.name :=
  (map_eq_of_forall₂ (mapM_ok_forall₂ h) fun _ _ _ _ hf => (normalize_field_ok hf).1.symm).symm

theorem normalize_eq_ok (h : schema.normalize = .ok out) :
    (sortBy ConfigField.name schema.fields).mapM ConfigField.normalize = .ok out.fields ∧
      (schema.fields.map ConfigField.name).Nodup := by
  unfold normalize at h
  cases hd : windowsFind (fun a b => decide (a.name = b.name))
      (sortBy ConfigField.name schema.fields) with
  | some field => simp [hd] at h
  | none =>
    simp only [hd, bind_eq_ok, pure_eq_ok, Except.ok.injEq] at h
    obtain ⟨fields, hm, rfl⟩ := h
    refine ⟨hm, ?_⟩
    have hnd :=
      (windowsAny_key_eq_false (by simp) (sortBy_sorted ConfigField.name schema.fields)).mp
      (windowsFind_eq_none.mp hd)
    exact ((sortBy_perm ConfigField.name schema.fields).map ConfigField.name).nodup_iff.mp hnd

/-- The fields of a normalized schema have distinct names. -/
theorem normalize_nodup (h : schema.normalize = .ok out) :
    (out.fields.map ConfigField.name).Nodup := by
  obtain ⟨hm, hnd⟩ := normalize_eq_ok h
  rw [map_name_of_mapM hm]
  exact ((sortBy_perm ConfigField.name schema.fields).map ConfigField.name).nodup_iff.mpr hnd

theorem mem_normalize {out : ConfigSchema} (h : schema.normalize = .ok out)
    (hf : field ∈ out.fields) :
    field.normalize = .ok field ∧ (field.required = true → field.default = none) := by
  obtain ⟨source, -, hsource⟩ := exists_left_of_forall₂ (mapM_ok_forall₂ (normalize_eq_ok h).1) hf
  exact (normalize_field_ok hsource).2

/-- A normalized schema is a fixed point. -/
theorem normalize_fixed (h : schema.normalize = .ok out) : out.normalize = .ok out := by
  have hsorted : out.fields.Pairwise fun a b => a.name ≤ b.name := by
    have hnames := List.pairwise_map.mpr (sortBy_sorted ConfigField.name schema.fields)
    rw [← map_name_of_mapM (normalize_eq_ok h).1] at hnames
    exact List.pairwise_map.mp hnames
  have hdistinct : windowsFind (fun a b => decide (a.name = b.name)) out.fields = none :=
    windowsFind_eq_none.mpr ((windowsAny_key_eq_false (by simp) hsorted).mpr (normalize_nodup h))
  unfold normalize
  dsimp only
  rw [sortBy_eq_of_sorted hsorted, hdistinct]
  dsimp only
  rw [mapM_eq_map (g := id) fun field hf => (mem_normalize h hf).1, List.map_id]
  rfl

end ConfigSchema

/-! ## Binding a value through a lowering -/

/-- `config_type_satisfies`: every value of `outer` may be bound to a field of type `inner`. -/
def configTypeSatisfies : ConfigType → ConfigType → Bool
  | .bool, .bool => true
  | .i64 outerMin outerMax, .i64 innerMin innerMax => outerMin ≥ innerMin && outerMax ≤ innerMax
  | .u64 outerMin outerMax, .u64 innerMin innerMax => outerMin ≥ innerMin && outerMax ≤ innerMax
  | .text outerMax, .text innerMax => outerMax ≤ innerMax
  | .bytes outerMax, .bytes innerMax => outerMax ≤ innerMax
  | .choice outerValues, .choice innerValues =>
    outerValues.all (fun value => innerValues.contains value)
  | .choice outerValues, .text maxBytes =>
    outerValues.all (fun value => value.utf8ByteSize ≤ maxBytes)
  | _, _ => false

theorem validValue_of_satisfies {outer inner : ConfigType} {value : ConfigValue}
    (h : configTypeSatisfies outer inner = true) (hv : validValue outer value = true) :
    validValue inner value = true := by
  cases outer <;> cases inner <;> cases value <;>
    simp_all [configTypeSatisfies, validValue]
  all_goals omega

/-- A value may be bound along `config_type_satisfies`, and over a normalized schema
    canonicalization accepts what its checks ask for and is a projection. -/
theorem config_binding_sound :
    (∀ outer inner value, configTypeSatisfies outer inner = true →
      validValue outer value = true → validValue inner value = true) ∧
    ∀ declared schema : ConfigSchema, declared.normalize = .ok schema →
      schema.normalize = .ok schema ∧ ∀ supplied : Config,
        ((∃ out, schema.canonicalize supplied = .ok out) ↔
          (∀ name ∈ supplied.keys, name ∈ schema.fields.map ConfigField.name) ∧
          (∀ field ∈ schema.fields, ∀ value,
            (supplied.get? field.name).or field.default = some value →
            validValue field.valueType value = true) ∧
          ∀ field ∈ schema.fields, field.required = true →
            (supplied.get? field.name).isSome = true) ∧
        ∀ out, schema.canonicalize supplied = .ok out → schema.canonicalize out = .ok out := by
  refine ⟨fun _ _ _ => validValue_of_satisfies, fun declared schema h =>
    ⟨ConfigSchema.normalize_fixed h,
    fun supplied =>
      ⟨?_, fun _ => ConfigSchema.canonicalize_fixed (ConfigSchema.normalize_nodup h)⟩⟩⟩
  -- a required field has no default, so its value is a supplied one
  have hsupplied : ∀ field ∈ schema.fields, field.required = true →
      (ConfigSchema.chosen supplied field).isSome = (supplied.get? field.name).isSome := by
    intro field hf hrequired
    rw [ConfigSchema.chosen, (ConfigSchema.mem_normalize h hf).2 hrequired, Option.or_none]
  simp only [ConfigSchema.canonicalize_eq_ok, exists_and_left, exists_eq, and_true]
  constructor
  · intro hacc
    refine ⟨hacc.known, hacc.valid, fun field hf hrequired => ?_⟩
    rw [← hsupplied field hf hrequired]
    exact hacc.present field hf hrequired
  · rintro ⟨hknown, hvalid, hpresent⟩
    refine ⟨hknown, hvalid, fun field hf hrequired => ?_⟩
    rw [hsupplied field hf hrequired]
    exact hpresent field hf hrequired

end Blut.GraphCore
