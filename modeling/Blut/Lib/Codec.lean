/-
  Unambiguous byte encodings.

  An encoding is unambiguous on a domain when, of two encodings followed by anything, equal
  texts come from equal values and equal continuations. Such encodings compose by
  concatenation without a separator, so a record encoded field by field is unambiguous as
  soon as every field is: the lemmas below are the cases a hand-written encoder is made of
  (fixed width words, counted lists, tagged options, strings).
-/
import Mathlib.Tactic

namespace Blut.Lib

variable {α α' β : Type}

/-- Equal encodings, whatever follows them, encode related values and are followed by the same. -/
def UnambiguousUpTo (R : α → α → Prop) (P : α → Prop) (enc : α → List β) : Prop :=
  ∀ a a' s s', P a → P a' → enc a ++ s = enc a' ++ s' → R a a' ∧ s = s'

/-- Equal encodings, whatever follows them, encode equal values. -/
abbrev Unambiguous (P : α → Prop) (enc : α → List β) : Prop := UnambiguousUpTo Eq P enc

variable {P : α → Prop} {N : Nat} {count : Nat → List β} {s s' : List β} {xs : List α}

section

variable {enc : α → List β} {R : α → α → Prop} {Q : α' → Prop}

theorem UnambiguousUpTo.of_eq (h : UnambiguousUpTo R P enc) {a a' : α} (ha : P a) (ha' : P a')
    (he : enc a = enc a') : R a a' :=
  (h a a' [] [] ha ha' (by rw [he])).1

theorem Unambiguous.mono {Q : α → Prop} (h : Unambiguous P enc)
    (hQ : ∀ a, Q a → P a) : Unambiguous Q enc := by
  intro a a' s s' ha ha' he
  exact h a a' s s' (hQ a ha) (hQ a' ha') he

/-- Encodings of one length that tell the values apart. -/
theorem unambiguous_of_length (n : Nat) (hlen : ∀ a, (enc a).length = n)
    (hinj : ∀ a a', P a → P a' → enc a = enc a' → a = a') : Unambiguous P enc := by
  intro a a' s s' ha ha' h
  have hsame : (enc a).length = (enc a').length := by rw [hlen, hlen]
  obtain ⟨he, hs⟩ := List.append_inj h hsame
  exact ⟨hinj a a' ha ha' he, hs⟩

/-- The first of several fields is read off the front. -/
theorem Unambiguous.append_iff (h : Unambiguous P enc) {a a' : α} (ha : P a) (ha' : P a') :
    enc a ++ s = enc a' ++ s' ↔ a = a' ∧ s = s' :=
  ⟨h a a' s s' ha ha', by rintro ⟨rfl, rfl⟩; rfl⟩

/-- The encoders of a format, each with the domain it is unambiguous on: the fields of a record are
    read off one by one without naming their encoders. -/
class Encodes (P : outParam (α → Prop)) (enc : α → List β) : Prop where
  unambiguous : Unambiguous P enc

theorem Encodes.append_iff [h : Encodes P enc] {a a' : α} (ha : P a) (ha' : P a') :
    enc a ++ s = enc a' ++ s' ↔ a = a' ∧ s = s' :=
  h.unambiguous.append_iff ha ha'

/-- Encodings of one constructor `f`, behind a tag. -/
theorem Encodes.under {γ : Type} (h : Encodes P enc) {f : α → γ}
    {a a' : α} {tag tag' : β} (ha : P a) (ha' : P a')
    (he : tag :: (enc a ++ s) = tag' :: (enc a' ++ s')) : f a = f a' ∧ s = s' := by
  obtain ⟨hv, hs⟩ := h.unambiguous a a' s s' ha ha' (List.cons.inj he).2
  exact ⟨congrArg f hv, hs⟩

/-- One encoding after the other. -/
theorem Unambiguous.append {enc' : α' → List β} (h : Unambiguous P enc) (h' : Unambiguous Q enc') :
    Unambiguous (fun p : α × α' => P p.1 ∧ Q p.2) (fun p => enc p.1 ++ enc' p.2) := by
  intro p q s s' hp hq he
  rw [List.append_assoc, List.append_assoc] at he
  obtain ⟨hfst, hrest⟩ := h _ _ _ _ hp.1 hq.1 he
  obtain ⟨hsnd, hs⟩ := h' _ _ _ _ hp.2 hq.2 hrest
  exact ⟨Prod.ext hfst hsnd, hs⟩

/-- Encoding a view of the value. -/
theorem Unambiguous.view {R : α' → α' → Prop} (h : Unambiguous P enc) (f : α' → α)
    (hf : ∀ a, Q a → P (f a)) (hR : ∀ a a', Q a → Q a' → f a = f a' → R a a') :
    UnambiguousUpTo R Q (fun a => enc (f a)) := by
  intro a a' s s' ha ha' he
  obtain ⟨hfa, hs⟩ := h (f a) (f a') s s' (hf a ha) (hf a' ha') he
  exact ⟨hR a a' ha ha' hfa, hs⟩

/-! ## Counted lists -/

theorem flatMap_unambiguous (h : UnambiguousUpTo R P enc) (xs ys : List α) (s s' : List β)
    (hlen : xs.length = ys.length) (hx : ∀ x ∈ xs, P x) (hy : ∀ y ∈ ys, P y)
    (he : xs.flatMap enc ++ s = ys.flatMap enc ++ s') :
    List.Forall₂ R xs ys ∧ s = s' := by
  induction xs generalizing ys with
  | nil =>
    have hnil : ys = [] := List.eq_nil_of_length_eq_zero (by simpa using hlen.symm)
    subst hnil
    exact ⟨.nil, by simpa using he⟩
  | cons x xs ih =>
    match ys, hlen with
    | y :: ys, hlen =>
      rw [List.flatMap_cons, List.flatMap_cons, List.append_assoc, List.append_assoc] at he
      obtain ⟨hxy, hrest⟩ := h x y _ _ (hx x List.mem_cons_self) (hy y List.mem_cons_self) he
      obtain ⟨hxs, hs⟩ := ih ys (by simpa using hlen) (fun z hz => hx z (List.mem_cons_of_mem _ hz))
        (fun z hz => hy z (List.mem_cons_of_mem _ hz)) hrest
      exact ⟨.cons hxy hxs, hs⟩

/-- A list after its length. -/
def counted (count : Nat → List β) (enc : α → List β) (xs : List α) : List β :=
  count xs.length ++ xs.flatMap enc

theorem counted_upTo (hcount : Unambiguous (· < N) count) (h : UnambiguousUpTo R P enc) :
    UnambiguousUpTo (List.Forall₂ R) (fun xs : List α => xs.length < N ∧ ∀ x ∈ xs, P x)
      (counted count enc) := by
  intro xs ys s s' hx hy he
  unfold counted at he
  rw [List.append_assoc, List.append_assoc] at he
  obtain ⟨hlen, hrest⟩ := hcount _ _ _ _ hx.1 hy.1 he
  exact flatMap_unambiguous h xs ys s s' hlen hx.2 hy.2 hrest

theorem counted_unambiguous (hcount : Unambiguous (· < N) count) (h : Unambiguous P enc) :
    Unambiguous (fun xs : List α => xs.length < N ∧ ∀ x ∈ xs, P x) (counted count enc) := by
  intro xs ys s s' hx hy he
  have hupTo := counted_upTo hcount h xs ys s s' hx hy he
  rwa [List.forall₂_eq_eq_eq] at hupTo

/-! ## Delimiters -/

/-- Nothing, or something that starts with a delimiter. -/
def StartsWith (D : β → Prop) (s : List β) : Prop := ∀ x ∈ s.head?, D x

theorem StartsWith.nil (D : β → Prop) : StartsWith D [] := fun _ hx => nomatch hx

theorem StartsWith.cons {D : β → Prop} {x : β} (h : D x) (s : List β) : StartsWith D (x :: s) := by
  intro y hy
  cases hy
  exact h

/-- Equal encodings, each up to a delimiter or the end, encode related values. -/
def UnambiguousBefore (D : β → Prop) (R : α → α → Prop) (P : α → Prop) (enc : α → List β) : Prop :=
  ∀ a a' s s', P a → P a' → StartsWith D s → StartsWith D s' → enc a ++ s = enc a' ++ s' →
    R a a' ∧ s = s'

/-- Of two texts without delimiters, each up to one, the longer goes on with a delimiter. -/
theorem eq_of_append_eq_of_free {D : β → Prop} {t t' : List β} (ht : ∀ x ∈ t, ¬ D x)
    (ht' : ∀ x ∈ t', ¬ D x) (hs : StartsWith D s) (hs' : StartsWith D s') (h : t ++ s = t' ++ s') :
    t = t' ∧ s = s' := by
  rcases List.append_eq_append_iff.mp h with ⟨m, rfl, rfl⟩ | ⟨m, rfl, rfl⟩
  · cases m with
    | nil => simp
    | cons x m =>
      exact absurd (hs x rfl) (ht' x (List.mem_append_right _ List.mem_cons_self))
  · cases m with
    | nil => simp
    | cons x m =>
      exact absurd (hs' x rfl) (ht x (List.mem_append_right _ List.mem_cons_self))

/-- The encodings of a list with a separator between them. -/
def separated (sep : β) (enc : α → List β) : List α → List β
  | [] => []
  | x :: xs => enc x ++ xs.flatMap fun y => sep :: enc y

theorem separated_map (sep : β) (enc : α' → List β) (f : α → α') (xs : List α) :
    separated sep enc (xs.map f) = separated sep (fun x => enc (f x)) xs := by
  cases xs with
  | nil => rfl
  | cons x xs => simp [separated, List.flatMap_map]

theorem mem_separated {sep : β} {b : β} (h : b ∈ separated sep enc xs) :
    b = sep ∨ ∃ x ∈ xs, b ∈ enc x := by
  cases xs with
  | nil => cases h
  | cons x xs =>
    simp only [separated, List.mem_append, List.mem_flatMap, List.mem_cons] at h
    rcases h with h | ⟨y, hy, rfl | h⟩
    · exact Or.inr ⟨x, List.mem_cons_self, h⟩
    · exact Or.inl rfl
    · exact Or.inr ⟨y, List.mem_cons_of_mem _ hy, h⟩

end

section Separated

variable {D : β → Prop} {R : α → α → Prop} {sep close : β} {enc : α → List β}

/-- The encodings after the first, up to the closing delimiter. -/
theorem separated_tail_unambiguous (hsep : D sep) (hclose : D close) (hne : sep ≠ close)
    {ys : List α}
    (henc : ∀ x ∈ xs, ∀ y ∈ ys, ∀ s s', StartsWith D s → StartsWith D s' →
      enc x ++ s = enc y ++ s' → R x y ∧ s = s')
    (h : (xs.flatMap fun x => sep :: enc x) ++ close :: s =
      (ys.flatMap fun y => sep :: enc y) ++ close :: s') :
    List.Forall₂ R xs ys ∧ s = s' := by
  -- what follows an encoding is a separator or the closing delimiter
  have hstarts : ∀ (zs : List α) (rest : List β),
      StartsWith D ((zs.flatMap fun z => sep :: enc z) ++ close :: rest) := by
    intro zs rest
    cases zs with
    | nil => exact .cons hclose _
    | cons z zs => exact .cons hsep _
  induction xs generalizing ys with
  | nil =>
    cases ys with
    | nil => exact ⟨.nil, List.tail_eq_of_cons_eq h⟩
    | cons y ys => exact absurd (List.head_eq_of_cons_eq h).symm hne
  | cons x xs ih =>
    cases ys with
    | nil => exact absurd (List.head_eq_of_cons_eq h) hne
    | cons y ys =>
      rw [List.flatMap_cons, List.flatMap_cons, List.append_assoc, List.append_assoc] at h
      obtain ⟨hxy, hrest⟩ := henc x List.mem_cons_self y List.mem_cons_self _ _
        (hstarts xs s) (hstarts ys s') (List.tail_eq_of_cons_eq h)
      obtain ⟨hall, hs⟩ := ih (fun x hx y hy => henc x (List.mem_cons_of_mem _ hx) y
        (List.mem_cons_of_mem _ hy)) hrest
      exact ⟨.cons hxy hall, hs⟩

/-- A list up to its closing delimiter, when no encoding starts with that. -/
theorem separated_unambiguous (hsep : D sep) (hclose : D close) (hne : sep ≠ close) {ys : List α}
    (hstart : ∀ x s, enc x ++ s ≠ close :: s') (hstart' : ∀ y s', enc y ++ s' ≠ close :: s)
    (henc : ∀ x ∈ xs, ∀ y ∈ ys, ∀ s s', StartsWith D s → StartsWith D s' →
      enc x ++ s = enc y ++ s' → R x y ∧ s = s')
    (h : separated sep enc xs ++ close :: s = separated sep enc ys ++ close :: s') :
    List.Forall₂ R xs ys ∧ s = s' := by
  cases xs with
  | nil =>
    cases ys with
    | nil => exact ⟨.nil, List.tail_eq_of_cons_eq h⟩
    | cons y ys =>
      rw [separated, separated, List.append_assoc] at h
      exact absurd h.symm (hstart' y _)
  | cons x xs =>
    cases ys with
    | nil =>
      rw [separated, separated, List.append_assoc] at h
      exact absurd h (hstart x _)
    | cons y ys =>
      -- a separator before the first makes both texts tails
      refine separated_tail_unambiguous hsep hclose hne henc ?_
      rw [List.flatMap_cons, List.flatMap_cons, List.cons_append, List.cons_append]
      exact congrArg (List.cons sep) h

end Separated

/-! ## Options -/

/-- `[0]` for nothing, `[1]` and the value otherwise. -/
def tagged (zero one : β) (enc : α → List β) : Option α → List β
  | none => [zero]
  | some a => one :: enc a

theorem tagged_unambiguous {zero one : β} (hne : zero ≠ one) {enc : α → List β}
    (h : Unambiguous P enc) :
    Unambiguous (fun o : Option α => ∀ a ∈ o, P a) (tagged zero one enc) := by
  intro o o' s s' ho ho' he
  cases o with
  | none =>
    cases o' with
    | none => exact ⟨rfl, by simpa [tagged] using he⟩
    | some a' => exact absurd (by simpa [tagged] using (List.cons.inj he).1) hne
  | some a =>
    cases o' with
    | none => exact absurd (by simpa [tagged] using (List.cons.inj he).1.symm) hne
    | some a' =>
      have htail : enc a ++ s = enc a' ++ s' := (List.cons.inj he).2
      obtain ⟨haa, hs⟩ := h a a' s s' (ho a rfl) (ho' a' rfl) htail
      exact ⟨by rw [haa], hs⟩

/-! ## Little-endian words and strings -/

instance neZero_byte : NeZero 256 := ⟨by decide⟩

/-- The `width` low bytes of a number, least significant first. -/
def leBytes : Nat → Nat → List (Fin 256)
  | 0, _ => []
  | width + 1, n => Fin.ofNat 256 n :: leBytes width (n / 256)

theorem length_leBytes (width n : Nat) : (leBytes width n).length = width := by
  induction width generalizing n with
  | zero => rfl
  | succ width ih => simp [leBytes, ih]

theorem leBytes_injective {width n m : Nat} (hn : n < 256 ^ width) (hm : m < 256 ^ width)
    (h : leBytes width n = leBytes width m) : n = m := by
  induction width generalizing n m with
  | zero =>
    have hn0 : n = 0 := by simpa using hn
    have hm0 : m = 0 := by simpa using hm
    rw [hn0, hm0]
  | succ width ih =>
    obtain ⟨hlow, hhigh⟩ := List.cons.inj h
    have hmod : n % 256 = m % 256 := congrArg Fin.val hlow
    have hdiv : n / 256 = m / 256 := by
      refine ih ?_ ?_ hhigh
      · rw [pow_succ] at hn
        exact Nat.div_lt_of_lt_mul (by omega)
      · rw [pow_succ] at hm
        exact Nat.div_lt_of_lt_mul (by omega)
    omega

theorem leBytes_unambiguous (width : Nat) :
    Unambiguous (· < 256 ^ width) (leBytes width) :=
  unambiguous_of_length width (length_leBytes width) fun _ _ hn hm => leBytes_injective hn hm

theorem leBytes_fin_unambiguous {bound width : Nat} (h : bound ≤ 256 ^ width) :
    Unambiguous (fun _ : Fin bound => True) (fun n => leBytes width n) :=
  (leBytes_unambiguous width).view Fin.val (fun n _ => n.isLt.trans_le h)
    fun _ _ _ _ hval => Fin.ext hval

/-- Texts of one length. -/
theorem fixed_unambiguous (n : Nat) :
    Unambiguous (fun _ => True) (Subtype.val : { text : List β // text.length = n } → List β) :=
  unambiguous_of_length n (fun text => text.2) fun _ _ _ _ hval => Subtype.ext hval

/-- One symbol for each value. -/
theorem symbol_unambiguous {f : α → β} (hf : Function.Injective f) :
    Unambiguous (fun _ => True) (fun a => [f a]) :=
  unambiguous_of_length 1 (fun _ => rfl) fun _ _ _ _ h => hf (List.cons.inj h).1

/-- The UTF-8 bytes of a string. -/
def utf8Bytes (s : String) : List (Fin 256) := s.toByteArray.data.toList.map UInt8.toFin

theorem length_utf8Bytes (s : String) : (utf8Bytes s).length = s.utf8ByteSize := by
  unfold utf8Bytes
  rw [List.length_map, Array.length_toList]
  exact s.size_toByteArray

theorem utf8Bytes_injective {s t : String} (h : utf8Bytes s = utf8Bytes t) : s = t := by
  have hinj : Function.Injective UInt8.toFin := fun a b hab => UInt8.toFin_inj.mp hab
  have hdata : s.toByteArray.data = t.toByteArray.data :=
    Array.toList_inj.mp (hinj.list_map h)
  exact String.toByteArray_inj.mp (ByteArray.ext hdata)

/-- Only the character zero has a zero byte. -/
theorem zero_mem_utf8Bytes {s : String} (h : (0 : Fin 256) ∈ utf8Bytes s) :
    ∃ c ∈ s.toList, c.toNat = 0 := by
  have hbytes : s.toByteArray.data.toList = s.toList.flatMap String.utf8EncodeChar := by
    rw [← String.utf8Encode_toList]
    simp [List.utf8Encode]
  rw [utf8Bytes, hbytes, List.mem_map] at h
  obtain ⟨byte, hbyte, hzero⟩ := h
  obtain ⟨c, hc, hmem⟩ := List.mem_flatMap.mp hbyte
  refine ⟨c, hc, ?_⟩
  have hzero : byte.toNat = 0 := congrArg Fin.val hzero
  have hnat : c.val.toNat = c.toNat := rfl
  unfold String.utf8EncodeChar at hmem
  dsimp only at hmem
  split_ifs at hmem
  all_goals
    simp only [List.mem_cons, List.not_mem_nil, or_false] at hmem
  · subst hmem
    rw [UInt8.toNat_ofNat'] at hzero
    omega
  · rcases hmem with rfl | rfl <;> rw [UInt8.toNat_ofNat'] at hzero <;> omega
  · rcases hmem with rfl | rfl | rfl <;> rw [UInt8.toNat_ofNat'] at hzero <;> omega
  · rcases hmem with rfl | rfl | rfl | rfl <;> rw [UInt8.toNat_ofNat'] at hzero <;> omega

/-- Raw bytes of a value after their number. -/
theorem length_framed_unambiguous {raw : α → List β} (hcount : Unambiguous (· < N) count)
    (hinj : ∀ a a', raw a = raw a' → a = a') :
    Unambiguous (fun a => (raw a).length < N) (fun a => count (raw a).length ++ raw a) := by
  intro a a' s s' ha ha' he
  rw [List.append_assoc, List.append_assoc] at he
  obtain ⟨hlen, hrest⟩ := hcount _ _ _ _ ha ha' he
  obtain ⟨hraw, hs⟩ := List.append_inj hrest hlen
  exact ⟨hinj a a' hraw, hs⟩

end Blut.Lib
