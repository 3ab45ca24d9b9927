/-
  The texts behind logical hashes (`framework/executor.rs`: `content_hash_from_erased`,
  `gather_input_hash`, `map_element_logical`, `compute_logical_output_hash`).

  The text of an artifact starts with its kind, which nothing ends, so it can be read as that of
  another kind or of one of the tagged texts. Texts identify what they are made of exactly when the
  kinds in use keep apart from each other and from the tags (`preimages_separate_iff`).
-/
import Blut.Framework.CacheKey

namespace Blut.Framework

open Blut.Lib

/-! ## The code -/

/-- What is hashed to a logical hash. -/
inductive PreImage where
  | erased (kind : String) (schema : Fin (2 ^ 32)) (payload : List (Fin 256))
  | tuple (predecessors : List Digest)
  | mapElement (parent : Digest) (index : Fin (2 ^ 64))
  | nondet (stageName : String) (schema : Fin (2 ^ 32)) (inputHash : Digest) (codeSha : Slice)
      (canonArgs : List (Fin 256))

def PreImage.bytes : PreImage → List (Fin 256)
  | .erased kind schema payload => utf8Bytes kind ++ leBytes 4 schema ++ payload
  | .tuple predecessors =>
    utf8Bytes "tuple" ++ [Fin.ofNat 256 predecessors.length] ++ predecessors.flatMap Subtype.val
  | .mapElement parent index => utf8Bytes "map-elem" ++ parent.1 ++ leBytes 8 index
  | .nondet stageName schema inputHash codeSha canonArgs =>
    utf8Bytes "blut.nondet.v2" ++ [0] ++ utf8Bytes stageName ++ [0] ++ leBytes 4 schema
      ++ inputHash.1 ++ leBytes 8 codeSha.1.length ++ codeSha.1 ++ canonArgs

def gatherInputHash (sha : List (Fin 256) → Digest) (nodeId : Nat) (preds : List Nat)
    (logicalOutputs : Nat → Option Digest) : Outcome String Digest :=
  let missing := fun pid => s!"node {nodeId} predecessor {pid} missing logical hash"
  match preds with
  | [] => okOr (logicalOutputs nodeId) s!"node {nodeId} has no logical input hash"
  | [single] => okOr (logicalOutputs single) (missing single)
  | multi => do
    let hashes ← multi.mapM fun pid => okOr (logicalOutputs pid) (missing pid)
    return sha (PreImage.tuple hashes).bytes

/-- What a node's input hash is made of, when `origin` is what the logical outputs are made of. -/
def consumed (sha : List (Fin 256) → Digest) (nodeId : Nat) (origin : Nat → PreImage) :
    List Nat → PreImage
  | [] => origin nodeId
  | [single] => origin single
  | multi => .tuple (multi.map fun pid => sha (origin pid).bytes)

/-! ## Kinds that keep apart -/

/-- The artifact's kind is one of `kinds`; the other texts are as the code feeds them. -/
def PreImage.Over (kinds : String → Prop) : PreImage → Prop
  | .erased kind _ _ => kinds kind
  | .tuple predecessors => 2 ≤ predecessors.length
  | .mapElement _ _ => True
  | .nondet stageName _ _ _ _ => (0 : Fin 256) ∉ utf8Bytes stageName

/-- No kind continues another, and none can be read as one of the tagged texts. -/
structure KindsApart (kinds : String → Prop) : Prop where
  others : ∀ k k', kinds k → kinds k' → utf8Bytes k <+: utf8Bytes k' → k = k'
  tuple : ∀ k, kinds k → ¬ utf8Bytes k <+: utf8Bytes "tuple" ∧ ¬ utf8Bytes "tuple" <+: utf8Bytes k
  mapElement : ∀ k, kinds k → ¬ utf8Bytes k <+: utf8Bytes "map-elem" ∧
    (utf8Bytes "map-elem" <+: utf8Bytes k → 44 < (utf8Bytes k).length)
  nondet : ∀ k, kinds k → ¬ utf8Bytes k <+: utf8Bytes "blut.nondet.v2"

variable {kinds : String → Prop}

theorem exists_leBytes (bytes : List (Fin 256)) :
    ∃ n < 256 ^ bytes.length, leBytes bytes.length n = bytes := by
  induction bytes with
  | nil => exact ⟨0, by decide, rfl⟩
  | cons byte bytes ih =>
    obtain ⟨n, hn, hbytes⟩ := ih
    refine ⟨byte + 256 * n, ?_, ?_⟩
    · rw [List.length_cons, pow_succ]
      omega
    · rw [List.length_cons, leBytes, Nat.add_mul_div_left _ _ (by decide), Nat.div_eq_of_lt byte.2,
        zero_add, hbytes]
      congr 1
      exact Fin.ext (by simp [Fin.ofNat, Nat.mod_eq_of_lt byte.2])

/-- What can be read as an artifact of a kind. -/
theorem exists_erased_iff {k : String} {text : List (Fin 256)} :
    (∃ schema payload, (PreImage.erased k schema payload).bytes = text) ↔
      utf8Bytes k <+: text ∧ (utf8Bytes k).length + 4 ≤ text.length := by
  constructor
  · rintro ⟨schema, payload, rfl⟩
    simp [PreImage.bytes, length_leBytes, List.append_assoc]
  · rintro ⟨⟨rest, rfl⟩, hlen⟩
    rw [List.length_append, Nat.add_le_add_iff_left] at hlen
    obtain ⟨n, hn, hbytes⟩ := exists_leBytes (rest.take 4)
    rw [List.length_take_of_le hlen] at hn hbytes
    refine ⟨⟨n, hn⟩, rest.drop 4, ?_⟩
    rw [PreImage.bytes, hbytes, List.append_assoc, List.take_append_drop]

theorem exists_digests (n : Nat) {bytes : List (Fin 256)} (h : bytes.length = 32 * n) :
    ∃ digests : List Digest, digests.length = n ∧ digests.flatMap Subtype.val = bytes := by
  induction n generalizing bytes with
  | zero => exact ⟨[], rfl, (List.eq_nil_of_length_eq_zero h).symm⟩
  | succ n ih =>
    obtain ⟨digests, hlen, hbytes⟩ :=
      ih (by rw [List.length_drop]; omega : (bytes.drop 32).length = 32 * n)
    refine ⟨⟨bytes.take 32, by simp [h]⟩ :: digests, by simp [hlen], ?_⟩
    rw [List.flatMap_cons, hbytes, List.take_append_drop]

theorem KindsApart.not_read (h : KindsApart kinds) {k : String} (hk : kinds k)
    (hfree : (0 : Fin 256) ∉ utf8Bytes k) {schema : Fin (2 ^ 32)} {payload : List (Fin 256)}
    {y : PreImage} (hy : ∀ k s p, y ≠ .erased k s p) :
    (PreImage.erased k schema payload).bytes ≠ y.bytes := by
  intro heq
  obtain ⟨hstart, hlen⟩ := exists_erased_iff.mp ⟨schema, payload, heq⟩
  cases y with
  | erased k s p => exact hy k s p rfl
  | tuple predecessors =>
    rw [PreImage.bytes, List.append_assoc] at hstart
    rcases List.prefix_or_prefix_of_prefix hstart (List.prefix_append _ _) with hle | hle
    · exact (h.tuple k hk).1 hle
    · exact (h.tuple k hk).2 hle
  | mapElement parent index =>
    have hbytes : (utf8Bytes "map-elem").length = 8 := by decide +kernel
    simp only [PreImage.bytes, List.length_append, hbytes, parent.2, length_leBytes] at hlen
    rw [PreImage.bytes, List.append_assoc] at hstart
    rcases List.prefix_or_prefix_of_prefix hstart (List.prefix_append _ _) with hle | hle
    · exact (h.mapElement k hk).1 hle
    · have hlong := (h.mapElement k hk).2 hle
      omega
  | nondet stageName schema' inputHash codeSha canonArgs =>
    simp only [PreImage.bytes, List.append_assoc] at hstart
    rw [← List.append_assoc] at hstart
    -- the tag ends with a zero, which no kind has
    rcases List.prefix_or_prefix_of_prefix hstart (List.prefix_append _ _) with hle | hle
    · rcases List.prefix_concat_iff.mp hle with hsame | hle
      · exact hfree (hsame ▸ by simp)
      · exact h.nondet k hk hle
    · exact hfree (hle.subset (by simp))

theorem flatMap_digests_injective {ds ds' : List Digest}
    (h : ds.flatMap Subtype.val = ds'.flatMap Subtype.val) : ds = ds' := by
  have hlength : ∀ ds : List Digest, (ds.flatMap Subtype.val).length = 32 * ds.length := by
    intro ds
    induction ds with
    | nil => rfl
    | cons d ds ih =>
      rw [List.flatMap_cons, List.length_append, ih, d.2, List.length_cons,
        Nat.mul_succ, Nat.add_comm]
  have hlen := congrArg List.length h
  rw [hlength, hlength] at hlen
  have hsame := flatMap_unambiguous (fixed_unambiguous 32) ds ds' [] [] (by omega)
    (fun _ _ => trivial) (fun _ _ => trivial) (by rw [h])
  exact List.forall₂_eq_eq_eq ▸ hsame.1

theorem KindsApart.separates (h : KindsApart kinds)
    (hfree : ∀ k, kinds k → (0 : Fin 256) ∉ utf8Bytes k) {x y : PreImage} (hx : x.Over kinds)
    (hy : y.Over kinds) (heq : x.bytes = y.bytes) : x = y := by
  have htuple : utf8Bytes "tuple" = [116, 117, 112, 108, 101] := by decide +kernel
  have hmap : utf8Bytes "map-elem" = [109, 97, 112, 45, 101, 108, 101, 109] := by decide +kernel
  have hnondet : utf8Bytes "blut.nondet.v2" =
      [98, 108, 117, 116, 46, 110, 111, 110, 100, 101, 116, 46, 118, 50] := by decide +kernel
  cases x with
  | erased k schema payload =>
    cases y with
    | erased k' schema' payload' =>
      have hk : k = k' := by
        rcases List.prefix_or_prefix_of_prefix (exists_erased_iff.mp ⟨_, _, heq⟩).1
          (exists_erased_iff.mp ⟨_, _, rfl⟩).1 with hle | hle
        · exact h.others k k' hx hy hle
        · exact (h.others k' k hy hx hle).symm
      subst hk
      simp only [PreImage.bytes, List.append_assoc] at heq
      obtain ⟨hschema, rfl⟩ := leBytes_unambiguous 4 _ _ _ _ schema.2 schema'.2
        (List.append_cancel_left heq)
      rw [Fin.ext hschema]
    | _ => exact absurd heq (h.not_read hx (hfree k hx) (by rintro _ _ _ ⟨⟩))
  | tuple ds =>
    cases y with
    | erased k schema payload =>
      exact absurd heq.symm (h.not_read hy (hfree k hy) (by rintro _ _ _ ⟨⟩))
    | tuple ds' =>
      simp only [PreImage.bytes, List.append_assoc] at heq
      rw [flatMap_digests_injective (List.cons.inj (List.append_cancel_left heq)).2]
    | _ => simp [PreImage.bytes, htuple, hmap, hnondet] at heq
  | mapElement parent index =>
    cases y with
    | erased k schema payload =>
      exact absurd heq.symm (h.not_read hy (hfree k hy) (by rintro _ _ _ ⟨⟩))
    | mapElement parent' index' =>
      simp only [PreImage.bytes, List.append_assoc] at heq
      obtain ⟨hparent, hindex⟩ :=
        List.append_inj (List.append_cancel_left heq) (by rw [parent.2, parent'.2])
      rw [Subtype.ext hparent, Fin.ext (leBytes_injective index.2 index'.2 hindex)]
    | _ => simp [PreImage.bytes, htuple, hmap, hnondet] at heq
  | nondet name schema input codeSha args =>
    cases y with
    | erased k schema payload =>
      exact absurd heq.symm (h.not_read hy (hfree k hy) (by rintro _ _ _ ⟨⟩))
    | nondet name' schema' input' codeSha' args' =>
      simp only [PreImage.bytes, List.append_assoc] at heq
      obtain ⟨rfl, rfl, rfl, rfl, rfl⟩ := stageFields_of_eq hx hy
        (List.append_cancel_left (List.append_cancel_left heq))
      rfl
    | _ => simp [PreImage.bytes, htuple, hmap, hnondet] at heq

theorem kindsApart_of_separated
    (h : ∀ x y : PreImage, x.Over kinds → y.Over kinds → x.bytes = y.bytes → x = y) :
    KindsApart kinds := by
  -- a text that can be read as an artifact of a kind is that of one
  have hread : ∀ k y tag, kinds k → y.Over kinds → utf8Bytes k <+: tag → tag <+: y.bytes →
      tag.length + 4 ≤ y.bytes.length → ∃ schema payload, PreImage.erased k schema payload = y := by
    intro k y tag hk hy hstart htag hlen
    have hle := hstart.length_le
    obtain ⟨schema, payload, heq⟩ := exists_erased_iff.mpr ⟨hstart.trans htag, by omega⟩
    exact ⟨schema, payload, h _ y hk hy heq⟩
  let zeros : Digest := ⟨List.replicate 32 0, rfl⟩
  have htuple : ∀ k, kinds k → ¬ utf8Bytes k <+: utf8Bytes "tuple" := by
    intro k hk hle
    obtain ⟨_, _, ⟨⟩⟩ := hread k (.tuple [zeros, zeros]) _ hk le_rfl hle (by simp [PreImage.bytes])
      (by simp [PreImage.bytes, zeros])
  refine ⟨fun k k' hk hk' hle => ?_, fun k hk => ⟨htuple k hk, ?_⟩, fun k hk => ⟨fun hle => ?_, ?_⟩,
    fun k hk hle => ?_⟩
  · obtain ⟨_, _, ⟨⟩⟩ := hread k (.erased k' 0 []) _ hk hk' hle (by simp [PreImage.bytes])
      (by simp [PreImage.bytes, length_leBytes])
    rfl
  · -- as many digests as the kind's next byte says, which go on as the kind does
    rintro ⟨_ | ⟨byte, rest⟩, hrest⟩
    · rw [List.append_nil] at hrest
      exact htuple k hk (hrest ▸ List.prefix_rfl)
    let n := byte.val + 256 * (rest.length + 1)
    have hcount : Fin.ofNat 256 n = byte := Fin.ext <|
      (Nat.add_mul_mod_self_left _ _ _).trans (Nat.mod_eq_of_lt byte.2)
    obtain ⟨ds, hds, hbytes⟩ := exists_digests n
      (by simp; omega : (rest ++ List.replicate (32 * n - rest.length) 0).length = 32 * n)
    have htext : (PreImage.tuple ds).bytes =
        utf8Bytes k ++ List.replicate (32 * n - rest.length) 0 := by
      rw [PreImage.bytes, hds, hcount, hbytes, ← hrest]
      simp only [List.append_assoc, List.cons_append, List.nil_append]
    obtain ⟨_, _, ⟨⟩⟩ := hread k (.tuple ds) _ hk (by simp only [PreImage.Over]; omega)
      List.prefix_rfl (htext ▸ List.prefix_append _ _) (by simp [htext]; omega)
  · obtain ⟨_, _, ⟨⟩⟩ := hread k (.mapElement zeros 0) _ hk trivial hle (by simp [PreImage.bytes])
      (by simp [PreImage.bytes, zeros, length_leBytes])
  · -- a parent and an index that go on as the kind does
    rintro ⟨rest, hrest⟩
    by_contra hshort
    have hlen := congrArg List.length hrest
    have htag : (utf8Bytes "map-elem").length = 8 := by decide +kernel
    rw [List.length_append, htag] at hlen
    let fill := rest ++ List.replicate (40 - rest.length) 0
    have hfill : fill.length = 40 := by simp [fill]; omega
    obtain ⟨n, hn, hbytes⟩ := exists_leBytes (fill.drop 32)
    rw [List.length_drop, hfill] at hn hbytes
    have htext : (PreImage.mapElement ⟨fill.take 32, by simp [hfill]⟩ ⟨n, hn⟩).bytes =
        utf8Bytes k ++ List.replicate (40 - rest.length) 0 := by
      simp only [PreImage.bytes, hbytes, List.append_assoc, List.take_append_drop, ← hrest, fill]
    obtain ⟨_, _, ⟨⟩⟩ := hread k (.mapElement _ _) _ hk trivial List.prefix_rfl
      (htext ▸ List.prefix_append _ _) (by simp [htext]; omega)
  · obtain ⟨_, _, ⟨⟩⟩ := hread k (.nondet "" 0 zeros ⟨[], by decide⟩ []) _ hk
      (by simp [PreImage.Over, utf8Bytes]) hle (by simp [PreImage.bytes])
      (by simp [PreImage.bytes, zeros, length_leBytes])

/-- An input hash is the hash of what the node consumed. -/
theorem gatherInputHash_ok {sha : List (Fin 256) → Digest} {nodeId : Nat} {preds : List Nat}
    {logicalOutputs : Nat → Option Digest} {origin : Nat → PreImage} {digest : Digest}
    (horigin : ∀ id d, logicalOutputs id = some d → d = sha (origin id).bytes ∧
      (origin id).Over kinds)
    (h : gatherInputHash sha nodeId preds logicalOutputs = .ok digest) :
    digest = sha (consumed sha nodeId origin preds).bytes ∧
      (consumed sha nodeId origin preds).Over kinds := by
  rcases preds with _ | ⟨first, _ | ⟨second, rest⟩⟩
  · exact horigin nodeId digest (okOr_eq_ok.mp h)
  · exact horigin first digest (okOr_eq_ok.mp h)
  · obtain ⟨hashes, hhashes, hdigest⟩ := bind_eq_ok.mp h
    have hsame : (first :: second :: rest).map (fun pid => sha (origin pid).bytes) =
        hashes.map id :=
      map_eq_of_forall₂ (mapM_ok_forall₂ hhashes) fun pid _ d _ hd =>
        (horigin pid d (okOr_eq_ok.mp hd)).1.symm
    rw [List.map_id] at hsame
    subst hsame
    exact ⟨(Except.ok.inj hdigest).symm, by simp [consumed, PreImage.Over]⟩

theorem preimages_separate_iff (hfree : ∀ k, kinds k → (0 : Fin 256) ∉ utf8Bytes k) :
    ((∀ x y : PreImage, x.Over kinds → y.Over kinds → x.bytes = y.bytes → x = y) ↔
      KindsApart kinds) ∧
    (KindsApart kinds → ∀ (sha : List (Fin 256) → Digest) nodeId nodeId' preds preds' logicalOutputs
      logicalOutputs' origin origin' digest,
      (∀ id d, logicalOutputs id = some d → d = sha (origin id).bytes ∧ (origin id).Over kinds) →
      (∀ id d, logicalOutputs' id = some d → d = sha (origin' id).bytes ∧ (origin' id).Over kinds) →
      gatherInputHash sha nodeId preds logicalOutputs = .ok digest →
      gatherInputHash sha nodeId' preds' logicalOutputs' = .ok digest →
      let x := consumed sha nodeId origin preds
      let x' := consumed sha nodeId' origin' preds'
      (sha x.bytes = sha x'.bytes → x.bytes = x'.bytes) → x = x') := by
  refine ⟨⟨kindsApart_of_separated, fun h x y => h.separates hfree⟩, ?_⟩
  intro h sha nodeId nodeId' preds preds' _ _ origin origin' digest horigin horigin' hok
    hok' x x' hsha
  obtain ⟨hdigest, hover⟩ := gatherInputHash_ok horigin hok
  obtain ⟨hdigest', hover'⟩ := gatherInputHash_ok horigin' hok'
  exact h.separates hfree hover hover' (hsha (hdigest.symm.trans hdigest'))

theorem preimages_separate_iff_rows : KindsApart (· = "rows") ∧
    ∀ x y : PreImage, x.Over (· = "rows") → y.Over (· = "rows") → x.bytes = y.bytes → x = y := by
  have hapart : KindsApart (· = "rows") := by
    refine ⟨?_, ?_, ?_, ?_⟩
    · rintro k k' rfl rfl -
      rfl
    all_goals
      rintro k rfl
      decide +kernel
  refine ⟨hapart, (preimages_separate_iff ?_).1.mpr hapart⟩
  rintro k rfl
  decide +kernel

/-- The schema of one artifact is read as the end of the kind of another. -/
theorem kind_read_as_another :
    (0 : Fin 256) ∉ utf8Bytes "a" ∧ (0 : Fin 256) ∉ utf8Bytes "ab" ∧
    (PreImage.erased "a" 98 [1]).bytes = (PreImage.erased "ab" (2 ^ 24) []).bytes ∧
    PreImage.erased "a" 98 [1] ≠ PreImage.erased "ab" (2 ^ 24) [] := by
  refine ⟨by decide +kernel, by decide +kernel, by decide +kernel, fun h => ?_⟩
  injection h with hkind
  exact absurd hkind (by decide)

end Blut.Framework
