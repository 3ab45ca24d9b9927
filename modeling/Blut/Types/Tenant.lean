/-
  Tenant identity (`blut-types/src/tenant.rs`).

  A tenant is a `project`, or a `project/domain`. A label that does not parse names no tenant.
  `str::trim` drops the Unicode `White_Space` characters at both ends; the character tests on
  the segments are the ASCII ones.
-/
import Mathlib.Data.List.DropRight
import Mathlib.Data.String.Basic
import Mathlib.Tactic

namespace Blut.Types

/-! ## Text -/

/-- `char::is_whitespace`. -/
def isWhitespace (c : Char) : Bool :=
  let n := c.toNat
  decide (0x9 ≤ n ∧ n ≤ 0xD) || decide (0x2000 ≤ n ∧ n ≤ 0x200A) ||
    [0x20, 0x85, 0xA0, 0x1680, 0x2028, 0x2029, 0x202F, 0x205F, 0x3000].contains n

/-- `str::trim`. -/
def trim (text : List Char) : List Char :=
  ((text.dropWhile isWhitespace).reverse.dropWhile isWhitespace).reverse

/-- `str::eq_ignore_ascii_case`. -/
def eqIgnoreAsciiCase (s t : String) : Bool :=
  s.toList.map Char.toLower == t.toList.map Char.toLower

/-! ## Tenants -/

def defaultProject : String := "default"

structure Tenant where
  project : String
  domain : Option String
  deriving DecidableEq, Repr

namespace Tenant

def default : Tenant := ⟨defaultProject, none⟩

/-- The check on one segment of a label. -/
def segmentOk (segment : List Char) : Bool :=
  !segment.isEmpty && segment != ['.'] && segment != ['.', '.'] &&
    segment.head? != some '.' && segment.getLast? != some '.' &&
    segment.all fun c => c.isAlphanum || c == '_' || c == '.' || c == '-'

def parse (s : String) : Option Tenant :=
  let text := trim s.toList
  if text.isEmpty then some default
  else
    match text.splitOn '/' with
    | [project] =>
      if segmentOk project then some ⟨String.ofList project, none⟩ else none
    | [project, domain] =>
      if segmentOk project && segmentOk domain then
        some ⟨String.ofList project, some (String.ofList domain)⟩
      else none
    | _ => none

/-- `Display`. -/
def toString (t : Tenant) : String :=
  match t.domain with
  | some domain => t.project ++ "/" ++ domain
  | none => t.project

/-- A sealed clinical namespace, whatever the case of its spelling. -/
def isRestricted (t : Tenant) : Bool :=
  eqIgnoreAsciiCase t.project "clinical" || eqIgnoreAsciiCase t.project "restricted"

theorem trim_idem (text : List Char) : trim (trim text) = trim text := by
  have hhead : (trim text).dropWhile isWhitespace = trim text := by
    refine List.dropWhile_eq_self_iff.mpr fun hpos => ?_
    have hpre : trim text <+: text.dropWhile isWhitespace := List.rdropWhile_prefix _ _
    rw [hpre.getElem hpos]
    exact List.dropWhile_get_zero_not _ _ (hpos.trans_le hpre.length_le)
  unfold trim at hhead ⊢
  rw [hhead, List.reverse_reverse, List.dropWhile_idempotent]

/-- A tenant is read back from its label. -/
theorem parse_toString {s : String} {t : Tenant} (h : parse s = some t) :
    parse t.toString = some t := by
  by_cases hempty : (trim s.toList).isEmpty
  · rw [parse, if_pos hempty] at h
    rw [← Option.some.inj h]
    decide +kernel
  · have hlabel : t.toString.toList = trim s.toList := by
      have hjoin : ['/'].intercalate ((trim s.toList).splitOn '/') = trim s.toList :=
        List.intercalate_splitOn '/'
      rw [← hjoin]
      rw [parse, if_neg hempty] at h
      split at h
      · next hsplit =>
        rw [hsplit]
        split_ifs at h
        simp [← Option.some.inj h, toString, List.intercalate]
      · next hsplit =>
        rw [hsplit]
        split_ifs at h
        simp [← Option.some.inj h, toString, List.intercalate]
      · cases h
    rw [← h, parse, parse, hlabel, trim_idem]

example : (parse "Clinical/ward").map isRestricted = some true := by decide +kernel

example : parse "research/dev/x" = none := by decide +kernel

end Tenant

end Blut.Types
