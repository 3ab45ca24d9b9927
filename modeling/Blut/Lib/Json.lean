/-
  JSON values and the text of their strings.

  An object is a list of members with distinct keys (`DistinctKeys`); two values are the same when
  they differ in the order of members only, at any depth (`Same`). A string is written between
  quotes, with quotes, backslashes and control characters escaped (`quote`): reading one escaped
  character back (`unescape`) shows that the text of a string says where it ends.
-/
import Blut.Lib.Codec

namespace Blut.Lib

inductive Json (N : Type) where
  | null
  | bool (value : Bool)
  | number (value : N)
  | string (value : String)
  | array (items : List (Json N))
  | object (members : List (String × Json N))

namespace Json

variable {N : Type} {members : List (String × Json N)} {items : List (Json N)}

/-- Induction over items and members. -/
@[elab_as_elim]
theorem induction {motive : Json N → Prop} (null : motive .null)
    (bool : ∀ value, motive (.bool value)) (number : ∀ value, motive (.number value))
    (string : ∀ value, motive (.string value))
    (array : ∀ items, (∀ item ∈ items, motive item) → motive (.array items))
    (object : ∀ members, (∀ member ∈ members, motive member.2) → motive (.object members))
    (value : Json N) : motive value := by
  refine Json.rec (motive_1 := motive) (motive_2 := fun items => ∀ item ∈ items, motive item)
    (motive_3 := fun members => ∀ member ∈ members, motive member.2)
    (motive_4 := fun member => motive member.2) null bool number string array object
    ?_ ?_ ?_ ?_ ?_ value
  · exact fun _ h => nomatch h
  · exact fun item items hitem hitems => List.forall_mem_cons.mpr ⟨hitem, hitems⟩
  · exact fun _ h => nomatch h
  · exact fun member members hmember hmembers => List.forall_mem_cons.mpr ⟨hmember, hmembers⟩
  · exact fun _ _ h => h

mutual

/-- No object has two members with one key. -/
def DistinctKeys : Json N → Prop
  | .array items => DistinctItems items
  | .object members => (members.map Prod.fst).Nodup ∧ DistinctMembers members
  | _ => True

def DistinctItems : List (Json N) → Prop
  | [] => True
  | item :: items => DistinctKeys item ∧ DistinctItems items

def DistinctMembers : List (String × Json N) → Prop
  | [] => True
  | (_, value) :: members => DistinctKeys value ∧ DistinctMembers members

end

mutual

/-- The same value up to the order of members, at any depth. -/
def Same : Json N → Json N → Prop
  | .null, .null => True
  | .bool a, .bool b => a = b
  | .number a, .number b => a = b
  | .string a, .string b => a = b
  | .array items, .array items' => SameItems items items'
  | .object members, .object members' =>
    members.length = members'.length ∧ SameMembers members members'
  | _, _ => False

def SameItems : List (Json N) → List (Json N) → Prop
  | [], [] => True
  | item :: items, item' :: items' => Same item item' ∧ SameItems items items'
  | _, _ => False

/-- Every member is one of the others. -/
def SameMembers : List (String × Json N) → List (String × Json N) → Prop
  | [], _ => True
  | (key, value) :: members, members' =>
    (∃ member ∈ members', member.1 = key ∧ Same value member.2) ∧ SameMembers members members'

end

theorem distinctKeys_array :
    DistinctKeys (.array items) ↔ ∀ item ∈ items, DistinctKeys item := by
  rw [DistinctKeys]
  induction items with
  | nil => simp [DistinctItems]
  | cons item items ih => rw [DistinctItems, ih, List.forall_mem_cons]

theorem distinctKeys_object :
    DistinctKeys (.object members)
      ↔ (members.map Prod.fst).Nodup ∧ ∀ member ∈ members, DistinctKeys member.2 := by
  have hmembers : DistinctMembers members ↔ ∀ member ∈ members, DistinctKeys member.2 := by
    induction members with
    | nil => simp [DistinctMembers]
    | cons member members ih => rw [DistinctMembers, ih, List.forall_mem_cons]
  rw [DistinctKeys, hmembers]

theorem same_string {a b : String} : Same (.string a : Json N) (.string b) ↔ a = b := by
  rw [Same]

theorem same_array {items' : List (Json N)} :
    Same (.array items) (.array items') ↔ List.Forall₂ Same items items' := by
  rw [Same]
  induction items generalizing items' with
  | nil => cases items' <;> simp [SameItems]
  | cons item items ih =>
    cases items' with
    | nil => simp [SameItems]
    | cons item' items' => rw [SameItems, ih, List.forall₂_cons]

theorem same_object {members' : List (String × Json N)} :
    Same (.object members) (.object members')
      ↔ members.length = members'.length
        ∧ ∀ member ∈ members, ∃ member' ∈ members', member'.1 = member.1
          ∧ Same member.2 member'.2 := by
  have hmembers : SameMembers members members' ↔ ∀ member ∈ members, ∃ member' ∈ members',
      member'.1 = member.1 ∧ Same member.2 member'.2 := by
    induction members with
    | nil => simp [SameMembers]
    | cons member members ih => rw [SameMembers, ih, List.forall_mem_cons]
  rw [Same, hmembers]

end Json

/-! ## Strings -/

def hexDigits : List Char := "0123456789abcdef".toList

def hexDigit (n : Nat) : Char := hexDigits.getD n '0'

def hexValue (c : Char) : Nat := hexDigits.idxOf c

def escapeChar (c : Char) : List Char :=
  if c = '"' then ['\\', '"']
  else if c = '\\' then ['\\', '\\']
  else if c = '\x08' then ['\\', 'b']
  else if c = '\t' then ['\\', 't']
  else if c = '\n' then ['\\', 'n']
  else if c = '\x0c' then ['\\', 'f']
  else if c = '\r' then ['\\', 'r']
  else if c.toNat < 32 then
    ['\\', 'u', '0', '0', hexDigit (c.toNat / 16), hexDigit (c.toNat % 16)]
  else [c]

/-- The text of a string. -/
def quote (s : String) : List Char := '"' :: s.toList.flatMap escapeChar ++ ['"']

/-- What follows a backslash, and the rest. -/
def unescapeTail : List Char → Option (Char × List Char)
  | 'b' :: rest => some ('\x08', rest)
  | 't' :: rest => some ('\t', rest)
  | 'n' :: rest => some ('\n', rest)
  | 'f' :: rest => some ('\x0c', rest)
  | 'r' :: rest => some ('\r', rest)
  | 'u' :: _ :: _ :: high :: low :: rest =>
    some (Char.ofNat (16 * hexValue high + hexValue low), rest)
  | c :: rest => some (c, rest)
  | [] => none

/-- Read one escaped character. -/
def unescape : List Char → Option (Char × List Char)
  | [] => none
  | c :: rest => if c = '\\' then unescapeTail rest else some (c, rest)

theorem hexValue_hexDigit {n : Nat} (h : n < 16) : hexValue (hexDigit n) = n := by
  have hall : ∀ n < 16, hexValue (hexDigit n) = n := by decide +kernel
  exact hall n h

theorem unescape_escapeChar (c : Char) (rest : List Char) :
    unescape (escapeChar c ++ rest) = some (c, rest) := by
  unfold escapeChar
  split_ifs with h1 h2 h3 h4 h5 h6 h7 h8
  · rw [h1]; rfl
  · rw [h2]; rfl
  · rw [h3]; rfl
  · rw [h4]; rfl
  · rw [h5]; rfl
  · rw [h6]; rfl
  · rw [h7]; rfl
  · have hvalue : 16 * hexValue (hexDigit (c.toNat / 16)) + hexValue (hexDigit (c.toNat % 16))
        = c.toNat := by
      rw [hexValue_hexDigit (by omega), hexValue_hexDigit (by omega)]
      omega
    show some (Char.ofNat _, rest) = _
    rw [hvalue, Char.ofNat_toNat]
  · exact if_neg h2

theorem escapeChar_ne_quote (c : Char) : ∃ first rest, escapeChar c = first :: rest
    ∧ first ≠ '"' := by
  unfold escapeChar
  split_ifs with h1
  all_goals exact ⟨_, _, rfl, by first | decide | exact h1⟩

theorem printable_of_all {text : List Char} (h : text.all (32 ≤ ·.toNat) = true) :
    ∀ c ∈ text, 32 ≤ c.toNat :=
  fun c hc => of_decide_eq_true (List.all_eq_true.mp h c hc)

theorem escapeChar_printable {c x : Char} (h : x ∈ escapeChar c) : 32 ≤ x.toNat := by
  have hdigit : ∀ n < 16, 32 ≤ (hexDigit n).toNat := by decide +kernel
  unfold escapeChar at h
  split_ifs at h with h1 h2 h3 h4 h5 h6 h7 h8
  · exact printable_of_all rfl x h
  · exact printable_of_all rfl x h
  · exact printable_of_all rfl x h
  · exact printable_of_all rfl x h
  · exact printable_of_all rfl x h
  · exact printable_of_all rfl x h
  · exact printable_of_all rfl x h
  · simp only [List.mem_cons, List.not_mem_nil, or_false] at h
    rcases h with rfl | rfl | rfl | rfl | rfl | rfl
    · decide
    · decide
    · decide
    · decide
    · exact hdigit _ (by omega)
    · exact hdigit _ (by omega)
  · rw [List.mem_singleton.mp h]
    omega

/-- The escaped characters up to a quote. -/
theorem escaped_unambiguous {cs ds rest rest' : List Char}
    (h : cs.flatMap escapeChar ++ '"' :: rest = ds.flatMap escapeChar ++ '"' :: rest') :
    cs = ds ∧ rest = rest' := by
  induction cs generalizing ds with
  | nil =>
    cases ds with
    | nil => exact ⟨rfl, List.tail_eq_of_cons_eq h⟩
    | cons d ds =>
      obtain ⟨first, more, heq, hne⟩ := escapeChar_ne_quote d
      rw [List.flatMap_cons, heq] at h
      exact absurd (List.head_eq_of_cons_eq h).symm hne
  | cons c cs ih =>
    cases ds with
    | nil =>
      obtain ⟨first, more, heq, hne⟩ := escapeChar_ne_quote c
      rw [List.flatMap_cons, heq] at h
      exact absurd (List.head_eq_of_cons_eq h) hne
    | cons d ds =>
      rw [List.flatMap_cons, List.flatMap_cons, List.append_assoc, List.append_assoc] at h
      have hread := congrArg unescape h
      rw [unescape_escapeChar, unescape_escapeChar, Option.some_inj, Prod.mk.injEq] at hread
      obtain ⟨hcs, hrest⟩ := ih hread.2
      exact ⟨by rw [hread.1, hcs], hrest⟩

theorem quote_unambiguous : Unambiguous (fun _ => True) quote := by
  intro s t rest rest' _ _ h
  have hbody : s.toList.flatMap escapeChar ++ '"' :: rest
      = t.toList.flatMap escapeChar ++ '"' :: rest' := by
    simpa [quote] using h
  obtain ⟨hchars, hrest⟩ := escaped_unambiguous hbody
  exact ⟨String.toList_inj.mp hchars, hrest⟩

theorem quote_printable {s : String} {x : Char} (h : x ∈ quote s) : 32 ≤ x.toNat := by
  simp only [quote, List.mem_append, List.mem_cons, List.mem_flatMap, List.not_mem_nil,
    or_false] at h
  rcases h with (rfl | ⟨c, _, hx⟩) | rfl
  · decide
  · exact escapeChar_printable hx
  · decide

end Blut.Lib
