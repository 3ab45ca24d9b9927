/-
  Cache keys (`framework/cache.rs`).

  A key is the digest of a byte string: name, schema, input hash, code hash, canonical arguments
  and, for a cell of a partition, its key. What identifies an invocation is that byte string, so
  the functions here return it. Canonical JSON sorts the members of every object; serde's rendering
  of numbers is a parameter (`Numerals`), its rendering of strings is `quote`.

  `writeCanonical_unambiguous` reads canonical text back: up to a comma, a bracket or the end it
  determines the value up to the order of members. It has no control character
  (`writeCanonical_printable`), hence no zero byte, which is what follows it when there is a
  partition.
-/
import Mathlib.Data.String.Basic
import Blut.Lib.Json
import Blut.Lib.Sorting

namespace Blut.Framework

open Blut.Lib

/-- The characters of a JSON number. -/
def isNumeral (c : Char) : Bool := c.isDigit || c = '-' || c = '+' || c = '.' || c = 'e' || c = 'E'

/-- How numbers are rendered. -/
structure Numerals (N : Type) where
  text : N → String
  injective : ∀ n m, text n = text m → n = m
  nonempty : ∀ n, (text n).toList ≠ []
  numeral : ∀ n, ∀ c ∈ (text n).toList, isNumeral c = true

variable {N : Type}

section Canonical

variable (numerals : Numerals N)

mutual

def writeCanonical : Json N → List Char
  | .null => "null".toList
  | .bool value => if value then "true".toList else "false".toList
  | .number value => (numerals.text value).toList
  | .string value => quote value
  | .array items => '[' :: separated ',' id (writeItems items) ++ [']']
  | .object members =>
    '{' :: separated ',' (fun entry => quote entry.1 ++ ':' :: entry.2)
      (sortBy Prod.fst (writeMembers members)) ++ ['}']

def writeItems : List (Json N) → List (List Char)
  | [] => []
  | item :: items => writeCanonical item :: writeItems items

/-- The members with their values' texts, in the order of the map. -/
def writeMembers : List (String × Json N) → List (String × List Char)
  | [] => []
  | (key, value) :: members => (key, writeCanonical value) :: writeMembers members

end

def canonicalJson (value : Json N) : String := String.ofList (writeCanonical numerals value)

def canonicalJsonBytes (value : Json N) : List (Fin 256) := utf8Bytes (canonicalJson numerals value)

end Canonical

structure PartitionValue where
  dimension : String
  value : String
  deriving DecidableEq, Repr

structure PartitionKey where
  values : List PartitionValue
  deriving DecidableEq, Repr

/-- `serde_json::to_value`. -/
def PartitionValue.toValue (value : PartitionValue) : Json N :=
  .object [("dimension", .string value.dimension), ("value", .string value.value)]

def PartitionKey.toValue (key : PartitionKey) : Json N :=
  .object [("values", .array (key.values.map PartitionValue.toValue))]

/-- A byte slice: its length is a machine word. -/
abbrev Slice := { bytes : List (Fin 256) // bytes.length < 2 ^ 64 }

abbrev Digest := { bytes : List (Fin 256) // bytes.length = 32 }

def versionTag : List (Fin 256) := utf8Bytes "blut.cache.v2"

/-- What a partition adds, after a zero. -/
def partitionSuffix (numerals : Numerals N) : Option PartitionKey → List (Fin 256)
  | none => []
  | some key =>
    let canonical := canonicalJsonBytes numerals key.toValue
    [0] ++ utf8Bytes "partition" ++ leBytes 8 canonical.length ++ canonical

/-- The bytes of the digest. -/
def keyForCanonBytesPartitioned (numerals : Numerals N) (stageName : String)
    (stageSchema : Fin (2 ^ 32)) (inputHash : Digest) (canonArgs : List (Fin 256)) (codeSha : Slice)
    (partition : Option PartitionKey) : List (Fin 256) :=
  versionTag ++ [0] ++ utf8Bytes stageName ++ [0] ++ leBytes 4 stageSchema ++ inputHash.1
    ++ leBytes 8 codeSha.1.length ++ codeSha.1 ++ canonArgs
    ++ partitionSuffix numerals partition

def keyForPartitioned (numerals : Numerals N) (stageName : String) (stageSchema : Fin (2 ^ 32))
    (inputHash : Digest) (args : Json N) (codeSha : Slice) (partition : Option PartitionKey) :
    List (Fin 256) :=
  keyForCanonBytesPartitioned numerals stageName stageSchema inputHash
    (utf8Bytes (canonicalJson numerals args)) codeSha partition

/-! ## Canonical text -/

section Text

variable {numerals : Numerals N}

theorem writeItems_eq (items : List (Json N)) :
    writeItems numerals items = items.map (writeCanonical numerals) := by
  induction items with
  | nil => rfl
  | cons item items ih => rw [writeItems, ih, List.map_cons]

theorem writeMembers_eq (members : List (String × Json N)) :
    writeMembers numerals members
      = members.map fun member => (member.1, writeCanonical numerals member.2) := by
  induction members with
  | nil => rfl
  | cons member members ih => rw [writeMembers, ih, List.map_cons]

theorem writeCanonical_array (items : List (Json N)) :
    writeCanonical numerals (.array items)
      = '[' :: separated ',' (writeCanonical numerals) items ++ [']'] := by
  rw [writeCanonical, writeItems_eq, separated_map]
  rfl

/-- The text of a member. -/
def writeMember (numerals : Numerals N) (member : String × Json N) : List Char :=
  quote member.1 ++ ':' :: writeCanonical numerals member.2

theorem writeCanonical_object (members : List (String × Json N)) :
    writeCanonical numerals (.object members)
      = '{' :: separated ',' (writeMember numerals) (sortBy Prod.fst members) ++ ['}'] := by
  rw [writeCanonical, writeMembers_eq, sortBy_map, separated_map]
  rfl

/-- The character after a value, if there is one. -/
def Closes (c : Char) : Prop := c = ',' ∨ c = ']' ∨ c = '}'

theorem not_closes_of_isNumeral {c : Char} (h : isNumeral c = true) : ¬ Closes c := by
  rintro (rfl | rfl | rfl) <;> revert h <;> decide

/-- The kind of a value. -/
def kind : Json N → Nat
  | .null => 0
  | .bool _ => 1
  | .number _ => 2
  | .string _ => 3
  | .array _ => 4
  | .object _ => 5

/-- The kind of value a text starts. -/
def kindOf (c : Char) : Option Nat :=
  if c = 'n' then some 0
  else if c = 't' ∨ c = 'f' then some 1
  else if c = '"' then some 3
  else if c = '[' then some 4
  else if c = '{' then some 5
  else if isNumeral c then some 2
  else none

theorem writeCanonical_head (numerals : Numerals N) (value : Json N) : ∃ first rest,
    writeCanonical numerals value = first :: rest ∧ kindOf first = some (kind value) := by
  cases value with
  | null => exact ⟨'n', _, rfl, rfl⟩
  | bool value =>
    cases value
    · exact ⟨'f', _, rfl, rfl⟩
    · exact ⟨'t', _, rfl, rfl⟩
  | number value =>
    rw [writeCanonical]
    cases htext : (numerals.text value).toList with
    | nil => exact absurd htext (numerals.nonempty value)
    | cons first rest =>
      have hfirst := numerals.numeral value first (htext ▸ List.mem_cons_self)
      refine ⟨first, rest, rfl, ?_⟩
      have hne : ∀ c : Char, isNumeral c = false → first ≠ c := by
        rintro c hc rfl
        exact nomatch hfirst.symm.trans hc
      simp [kindOf, kind, hfirst, hne 'n' (by decide), hne 't' (by decide), hne 'f' (by decide),
        hne '"' (by decide), hne '[' (by decide), hne '{' (by decide)]
  | string value =>
    rw [writeCanonical]
    exact ⟨'"', _, rfl, rfl⟩
  | array items =>
    rw [writeCanonical]
    exact ⟨'[', _, rfl, rfl⟩
  | object members =>
    rw [writeCanonical]
    exact ⟨'{', _, rfl, rfl⟩

variable {value value' : Json N}

/-- Equal texts start values of one kind. -/
theorem kind_eq {s s' : List Char}
    (h : writeCanonical numerals value ++ s = writeCanonical numerals value' ++ s') :
    kind value = kind value' := by
  obtain ⟨first, rest, htext, hkind⟩ := writeCanonical_head numerals value
  obtain ⟨first', rest', htext', hkind'⟩ := writeCanonical_head numerals value'
  rw [htext, htext'] at h
  rw [List.head_eq_of_cons_eq h] at hkind
  exact Option.some_inj.mp (hkind.symm.trans hkind')

/-- No value starts with a character that closes one. -/
theorem writeCanonical_ne_close {close : Char} (hclose : kindOf close = none) (value : Json N)
    (s s' : List Char) : writeCanonical numerals value ++ s ≠ close :: s' := by
  obtain ⟨first, rest, htext, hkind⟩ := writeCanonical_head numerals value
  rw [htext]
  intro h
  rw [List.head_eq_of_cons_eq h, hclose] at hkind
  cases hkind

theorem writeCanonical_unambiguous (numerals : Numerals N) :
    UnambiguousBefore Closes Json.Same (fun _ => True) (writeCanonical numerals) := by
  intro value
  -- induction on the first value; the second has the same kind
  induction value using Json.induction with
  | null =>
    intro value' s s' _ _ _ _ h
    cases value' with
    | null =>
      refine ⟨?_, List.append_cancel_left h⟩
      rw [Json.Same]
      trivial
    | _ => exact absurd (kind_eq h) (by simp [kind])
  | bool value =>
    intro value' s s' _ _ _ _ h
    cases value' with
    | bool value' =>
      rw [Json.Same]
      cases value <;> cases value'
      · exact ⟨rfl, List.append_cancel_left h⟩
      · exact absurd (List.head_eq_of_cons_eq h) (by decide)
      · exact absurd (List.head_eq_of_cons_eq h) (by decide)
      · exact ⟨rfl, List.append_cancel_left h⟩
    | _ => exact absurd (kind_eq h) (by simp [kind])
  | number value =>
    intro value' s s' _ _ hs hs' h
    cases value' with
    | number value' =>
      rw [writeCanonical, writeCanonical] at h
      rw [Json.Same]
      have hfree := fun n c hc => not_closes_of_isNumeral (numerals.numeral n c hc)
      obtain ⟨htext, hrest⟩ := eq_of_append_eq_of_free (hfree value) (hfree value') hs hs' h
      exact ⟨numerals.injective value value' (String.toList_inj.mp htext), hrest⟩
    | _ => exact absurd (kind_eq h) (by simp [kind])
  | string value =>
    intro value' s s' _ _ _ _ h
    cases value' with
    | string value' =>
      rw [writeCanonical, writeCanonical] at h
      rw [Json.Same]
      exact quote_unambiguous value value' s s' trivial trivial h
    | _ => exact absurd (kind_eq h) (by simp [kind])
  | array items ih =>
    intro value' s s' _ _ _ _ h
    cases value' with
    | array items' =>
      rw [Json.same_array]
      rw [writeCanonical_array, writeCanonical_array, List.append_assoc, List.append_assoc,
        List.cons_append, List.cons_append] at h
      have htail := List.tail_eq_of_cons_eq h
      refine separated_unambiguous (D := Closes) (Or.inl rfl) (Or.inr (Or.inl rfl)) (by decide)
        (fun item rest => writeCanonical_ne_close rfl item rest _)
        (fun item rest => writeCanonical_ne_close rfl item rest _) ?_ htail
      exact fun item hitem item' _ rest rest' hrest hrest' heq =>
        ih item hitem item' rest rest' trivial trivial hrest hrest' heq
    | _ => exact absurd (kind_eq h) (by simp [kind])
  | object members ih =>
    intro value' s s' _ _ _ _ h
    cases value' with
    | object members' =>
      rw [writeCanonical_object, writeCanonical_object, List.append_assoc, List.append_assoc,
        List.cons_append, List.cons_append] at h
      have htail := List.tail_eq_of_cons_eq h
      have hstart : ∀ (member : String × Json N) (rest rest' : List Char),
          writeMember numerals member ++ rest ≠ '}' :: rest' := fun member rest rest' heq =>
        absurd (List.head_eq_of_cons_eq heq) (by decide)
      obtain ⟨hall, hs⟩ := separated_unambiguous (D := Closes)
        (R := fun a b => a.1 = b.1 ∧ Json.Same a.2 b.2) (Or.inl rfl) (Or.inr (Or.inr rfl))
        (by decide) (fun member rest => hstart member rest _)
        (fun member rest => hstart member rest _) (by
          intro member hmember member' _ rest rest' hrest hrest' heq
          rw [writeMember, writeMember, List.append_assoc, List.append_assoc] at heq
          obtain ⟨hkey, hvalue⟩ := quote_unambiguous _ _ _ _ trivial trivial heq
          obtain ⟨hsame, hmore⟩ := ih member (mem_sortBy.mp hmember) member'.2 rest rest' trivial
            trivial hrest hrest' (List.tail_eq_of_cons_eq hvalue)
          exact ⟨⟨hkey, hsame⟩, hmore⟩) htail
      refine ⟨Json.same_object.mpr ⟨?_, fun member hmember => ?_⟩, hs⟩
      · have hlength := hall.length_eq
        rwa [length_sortBy, length_sortBy] at hlength
      · obtain ⟨member', hmember', hkey, hsame⟩ :=
          exists_right_of_forall₂ hall (mem_sortBy.mpr hmember)
        exact ⟨member', mem_sortBy.mp hmember', hkey.symm, hsame⟩
    | _ => exact absurd (kind_eq h) (by simp [kind])

/-- The order of members does not matter. -/
theorem writeCanonical_eq_of_same (hvalue : value.DistinctKeys) (hvalue' : value'.DistinctKeys)
    (h : Json.Same value value') :
    writeCanonical numerals value = writeCanonical numerals value' := by
  induction value using Json.induction generalizing value' with
  | null =>
    cases value' <;> simp only [Json.Same] at h
    rfl
  | bool value | number value | string value =>
    cases value' <;> simp only [Json.Same] at h
    rw [h]
  | array items ih =>
    cases value' with
    | array items' =>
      rw [Json.same_array] at h
      rw [Json.distinctKeys_array] at hvalue hvalue'
      have htexts : items.map (writeCanonical numerals) = items'.map (writeCanonical numerals) :=
        map_eq_of_forall₂ h fun item hitem item' hitem' hsame =>
          ih item hitem (hvalue item hitem) (hvalue' item' hitem') hsame
      rw [writeCanonical, writeCanonical, writeItems_eq, writeItems_eq, htexts]
    | _ => simp only [Json.Same] at h
  | object members ih =>
    cases value' with
    | object members' =>
      obtain ⟨hlength, hmembers⟩ := Json.same_object.mp h
      obtain ⟨hkeys, hvalues⟩ := Json.distinctKeys_object.mp hvalue
      obtain ⟨_, hvalues'⟩ := Json.distinctKeys_object.mp hvalue'
      have hnodup : ((writeMembers numerals members).map Prod.fst).Nodup := by
        rw [writeMembers_eq, List.map_map]
        exact hkeys
      -- every written member is one of the others, and there are as many
      have hperm : (writeMembers numerals members).Perm (writeMembers numerals members') := by
        refine (List.subperm_of_subset (List.Nodup.of_map Prod.fst hnodup) ?_).perm_of_length_le ?_
        · intro entry hentry
          rw [writeMembers_eq] at hentry ⊢
          obtain ⟨member, hmember, rfl⟩ := List.mem_map.mp hentry
          obtain ⟨member', hmember', hkey, hsame⟩ := hmembers member hmember
          refine List.mem_map.mpr ⟨member', hmember', ?_⟩
          rw [hkey, ih member hmember (hvalues member hmember) (hvalues' member' hmember') hsame]
        · rw [writeMembers_eq, writeMembers_eq, List.length_map, List.length_map]
          exact hlength.ge
      rw [writeCanonical, writeCanonical, sortBy_eq_of_perm hperm fun _ ha _ hb =>
        List.inj_on_of_nodup_map hnodup ha hb]
    | _ => simp only [Json.Same] at h

theorem separated_printable {α : Type} {opening close : Char} {write : α → List Char}
    {items : List α} (hopening : 32 ≤ opening.toNat) (hclose : 32 ≤ close.toNat)
    (h : ∀ item ∈ items, ∀ c ∈ write item, 32 ≤ c.toNat) :
    ∀ c ∈ opening :: separated ',' write items ++ [close], 32 ≤ c.toNat := by
  refine List.forall_mem_append.mpr ⟨List.forall_mem_cons.mpr ⟨hopening, fun c hc => ?_⟩,
    List.forall_mem_singleton.mpr hclose⟩
  rcases mem_separated hc with rfl | ⟨item, hitem, hc⟩
  · decide
  · exact h item hitem c hc

theorem writeCanonical_printable (value : Json N) :
    ∀ c ∈ writeCanonical numerals value, 32 ≤ c.toNat := by
  have hnumeral : ∀ c : Char, isNumeral c = true → 32 ≤ c.toNat := by
    intro c hc
    simp only [isNumeral, Char.isDigit, Bool.or_eq_true, decide_eq_true_eq, Bool.and_eq_true] at hc
    rcases hc with ((((h | rfl) | rfl) | rfl) | rfl) | rfl
    · have hlow : (48 : Nat) ≤ c.val.toNat := h.1
      exact le_trans (by decide) hlow
    all_goals decide
  induction value using Json.induction with
  | null => exact printable_of_all (show "null".toList.all _ = true from rfl)
  | bool value =>
    cases value
    · exact printable_of_all (show "false".toList.all _ = true from rfl)
    · exact printable_of_all (show "true".toList.all _ = true from rfl)
  | number value => exact fun c hc => hnumeral c (numerals.numeral value c hc)
  | string value => exact fun c hc => quote_printable hc
  | array items ih =>
    rw [writeCanonical_array]
    exact separated_printable (by decide) (by decide) ih
  | object members ih =>
    rw [writeCanonical_object]
    refine separated_printable (by decide) (by decide) fun member hmember c hc => ?_
    rw [writeMember, List.mem_append, List.mem_cons] at hc
    rcases hc with hc | rfl | hc
    · exact quote_printable hc
    · decide
    · exact ih member (mem_sortBy.mp hmember) c hc

theorem canonicalJsonBytes_eq_iff (numerals : Numerals N) (hvalue : value.DistinctKeys)
    (hvalue' : value'.DistinctKeys) :
    canonicalJsonBytes numerals value = canonicalJsonBytes numerals value'
      ↔ Json.Same value value' := by
  constructor
  · intro h
    have htext := String.ofList_injective (utf8Bytes_injective h)
    exact (writeCanonical_unambiguous numerals value value' [] [] trivial trivial (.nil _) (.nil _)
      (by rw [htext])).1
  · intro h
    unfold canonicalJsonBytes canonicalJson
    rw [writeCanonical_eq_of_same hvalue hvalue' h]

theorem zero_notMem_canonicalJsonBytes (value : Json N) :
    (0 : Fin 256) ∉ canonicalJsonBytes numerals value := by
  intro h
  obtain ⟨c, hc, hzero⟩ := zero_mem_utf8Bytes h
  rw [canonicalJson, String.toList_ofList] at hc
  have hprintable := writeCanonical_printable value c hc
  omega

end Text

/-! ## Partitions -/

theorem PartitionValue.eq_of_same {value value' : PartitionValue}
    (h : Json.Same (value.toValue : Json N) value'.toValue) : value = value' := by
  obtain ⟨_, hmembers⟩ := Json.same_object.mp h
  obtain ⟨dimension, content⟩ := value
  obtain ⟨dimension', content'⟩ := value'
  simpa [Json.same_string] using hmembers

theorem PartitionKey.eq_of_same {key key' : PartitionKey}
    (h : Json.Same (key.toValue : Json N) key'.toValue) : key = key' := by
  obtain ⟨_, hmembers⟩ := Json.same_object.mp h
  obtain ⟨member, hmember, _, hsame⟩ := hmembers _ List.mem_cons_self
  rw [List.mem_singleton.mp hmember, Json.same_array, List.forall₂_map_left_iff,
    List.forall₂_map_right_iff] at hsame
  have hvalues := List.forall₂_eq_eq_eq ▸ hsame.imp fun _ _ => PartitionValue.eq_of_same
  cases key
  cases key'
  rw [PartitionKey.mk.injEq]
  exact hvalues

theorem PartitionKey.toValue_distinctKeys (key : PartitionKey) :
    (key.toValue : Json N).DistinctKeys := by
  refine Json.distinctKeys_object.mpr ⟨List.nodup_singleton _, fun member hmember => ?_⟩
  rw [List.mem_singleton.mp hmember]
  refine Json.distinctKeys_array.mpr fun item hitem => ?_
  obtain ⟨value, _, rfl⟩ := List.mem_map.mp hitem
  refine Json.distinctKeys_object.mpr ⟨by simp, fun member hmember => ?_⟩
  simp only [List.mem_cons, List.not_mem_nil, or_false] at hmember
  rcases hmember with rfl | rfl
  · simp only [Json.DistinctKeys]
  · simp only [Json.DistinctKeys]

theorem partitionSuffix_startsWith (numerals : Numerals N) (partition : Option PartitionKey) :
    StartsWith (· = 0) (partitionSuffix numerals partition) := by
  cases partition with
  | none => exact .nil _
  | some key => exact StartsWith.cons (D := (· = 0)) rfl _

theorem partitionSuffix_injective {numerals : Numerals N}
    {partition partition' : Option PartitionKey}
    (h : partitionSuffix numerals partition = partitionSuffix numerals partition') :
    partition = partition' := by
  cases partition with
  | none =>
    cases partition' with
    | none => rfl
    | some key' => cases h
  | some key =>
    cases partition' with
    | none => cases h
    | some key' =>
      simp only [partitionSuffix, List.append_assoc] at h
      have htail := List.append_cancel_left (List.append_cancel_left h)
      obtain ⟨_, hcanonical⟩ := List.append_inj htail (by rw [length_leBytes, length_leBytes])
      have hsame := (canonicalJsonBytes_eq_iff numerals key.toValue_distinctKeys
        key'.toValue_distinctKeys).mp hcanonical
      rw [PartitionKey.eq_of_same hsame]

/-! ## Keys -/

/-- Name, schema, input and code hash are read off what starts with them. -/
theorem stageFields_of_eq {name name' : String} {schema schema' : Fin (2 ^ 32)}
    {input input' : Digest} {codeSha codeSha' : Slice} {rest rest' : List (Fin 256)}
    (hname : (0 : Fin 256) ∉ utf8Bytes name) (hname' : (0 : Fin 256) ∉ utf8Bytes name')
    (h : utf8Bytes name ++ ([0] ++ (leBytes 4 schema ++
        (input.1 ++ (leBytes 8 codeSha.1.length ++ (codeSha.1 ++ rest))))) =
      utf8Bytes name' ++ ([0] ++ (leBytes 4 schema' ++
        (input'.1 ++ (leBytes 8 codeSha'.1.length ++ (codeSha'.1 ++ rest')))))) :
    name = name' ∧ schema = schema' ∧ input = input' ∧ codeSha = codeSha' ∧ rest = rest' := by
  -- the name ends at the first zero
  obtain ⟨hnameEq, hrest⟩ := eq_of_append_eq_of_free (D := (· = 0))
    (fun byte hbyte hzero => hname (hzero ▸ hbyte))
    (fun byte hbyte hzero => hname' (hzero ▸ hbyte))
    (StartsWith.cons (D := (· = 0)) rfl _) (StartsWith.cons (D := (· = 0)) rfl _) h
  obtain ⟨hschema, hrest⟩ := leBytes_unambiguous 4 _ _ _ _ schema.2 schema'.2
    (List.tail_eq_of_cons_eq hrest)
  obtain ⟨hinput, hrest⟩ := List.append_inj hrest (by rw [input.2, input'.2])
  obtain ⟨hlength, hrest⟩ := leBytes_unambiguous 8 _ _ _ _ codeSha.2 codeSha'.2 hrest
  obtain ⟨hsha, hrest⟩ := List.append_inj hrest hlength
  exact ⟨utf8Bytes_injective hnameEq, Fin.ext hschema, Subtype.ext hinput, Subtype.ext hsha, hrest⟩

/-- Two invocations have one key exactly when they are one invocation, and precomputed canonical
    bytes give the same key. -/
theorem key_identifies_invocation (numerals : Numerals N) {name name' : String}
    {schema schema' : Fin (2 ^ 32)} {input input' : Digest} {args args' : Json N}
    {codeSha codeSha' : Slice} {partition partition' : Option PartitionKey}
    (hname : (0 : Fin 256) ∉ utf8Bytes name) (hname' : (0 : Fin 256) ∉ utf8Bytes name')
    (hargs : args.DistinctKeys) (hargs' : args'.DistinctKeys) :
    (keyForPartitioned numerals name schema input args codeSha partition
        = keyForPartitioned numerals name' schema' input' args' codeSha' partition'
      ↔ name = name' ∧ schema = schema' ∧ input = input' ∧ codeSha = codeSha'
        ∧ partition = partition' ∧ Json.Same args args')
    ∧ keyForCanonBytesPartitioned numerals name schema input (canonicalJsonBytes numerals args)
        codeSha partition
      = keyForPartitioned numerals name schema input args codeSha partition := by
  refine ⟨⟨fun h => ?_, ?_⟩, rfl⟩
  · simp only [keyForPartitioned, keyForCanonBytesPartitioned, List.append_assoc] at h
    have hrest := List.append_cancel_left (List.append_cancel_left h)
    obtain ⟨rfl, rfl, rfl, rfl, htail⟩ := stageFields_of_eq hname hname' hrest
    -- the arguments end at a zero too, the first byte of a partition
    obtain ⟨hcanon, hsuffix⟩ := eq_of_append_eq_of_free (D := (· = 0))
      (fun byte hbyte hzero => zero_notMem_canonicalJsonBytes args (hzero ▸ hbyte))
      (fun byte hbyte hzero => zero_notMem_canonicalJsonBytes args' (hzero ▸ hbyte))
      (partitionSuffix_startsWith numerals partition)
      (partitionSuffix_startsWith numerals partition') htail
    exact ⟨rfl, rfl, rfl, rfl, partitionSuffix_injective hsuffix,
      (canonicalJsonBytes_eq_iff numerals hargs hargs').mp hcanon⟩
  · rintro ⟨rfl, rfl, rfl, rfl, rfl, hsame⟩
    have hcanon := (canonicalJsonBytes_eq_iff numerals hargs hargs').mpr hsame
    unfold canonicalJsonBytes at hcanon
    unfold keyForPartitioned
    rw [hcanon]

/-- Two numbers. -/
def bits : Numerals Bool where
  text := fun bit => if bit then "1" else "0"
  injective := by decide
  nonempty := by decide
  numeral bit := by
    cases bit
    · exact List.all_eq_true.mp rfl
    · exact List.all_eq_true.mp rfl

def fitArgs : Json Bool := .object [("seed", .number true), ("tags", .array [.string "a"])]

/-- The same members the other way round. -/
def fitArgsReordered : Json Bool :=
  .object [("tags", .array [.string "a"]), ("seed", .number true)]

theorem fitArgs_distinctKeys : fitArgs.DistinctKeys ∧ fitArgsReordered.DistinctKeys := by
  simp [fitArgs, fitArgsReordered, Json.DistinctKeys, Json.DistinctItems, Json.DistinctMembers]

theorem key_identifies_invocation_fit :
    ∃ (input : Digest) (codeSha : Slice),
      keyForPartitioned bits "fit" 1 input fitArgs codeSha none
          = keyForPartitioned bits "fit" 1 input fitArgsReordered codeSha none
        ∧ keyForPartitioned bits "fit" 1 input fitArgs codeSha none
          ≠ keyForPartitioned bits "fit" 1 input fitArgs codeSha (some ⟨[⟨"day", "1"⟩]⟩) := by
  have hname : (0 : Fin 256) ∉ utf8Bytes "fit" := by decide +kernel
  refine ⟨⟨List.replicate 32 0, rfl⟩, ⟨[1], by decide⟩, ?_, fun h => ?_⟩
  · refine (key_identifies_invocation bits hname hname fitArgs_distinctKeys.1
      fitArgs_distinctKeys.2).1.mpr ⟨rfl, rfl, rfl, rfl, rfl, ?_⟩
    rw [fitArgs, fitArgsReordered, Json.same_object]
    simp [Json.Same, Json.SameItems]
  · obtain ⟨_, _, _, _, hpartition, _⟩ := (key_identifies_invocation bits hname hname
      fitArgs_distinctKeys.1 fitArgs_distinctKeys.1).1.mp h
    cases hpartition

end Blut.Framework
