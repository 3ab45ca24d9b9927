/-
  Sorting, deduplication and adjacent-pair scans of slices.

  `sortBy key` is a stable sort on a key, `sortDedup` is a sort followed by the
  removal of repeated neighbours, and `windowsAny`/`windowsAll` are the scans over
  `windows(2)`. The facts used downstream are canonicity facts: a sort whose keys
  are distinct, and `sortDedup`, do not depend on the order of their input.
-/
import Blut.Lib.BTreeMap

namespace Blut.Lib

variable {κ α : Type} [LinearOrder κ]

/-- `sort_by_key(key)`, stable. -/
def sortBy (key : α → κ) (xs : List α) : List α :=
  xs.insertionSort (fun a b => key a ≤ key b)

/-- `sort_unstable(); dedup()`: each element once, in ascending order. -/
def sortDedup (xs : List κ) : List κ := (BTreeSet.ofList xs).toList

/-- `windows(2)`: the adjacent pairs. -/
def windows (xs : List α) : List (α × α) := xs.zip xs.tail

/-- `windows(2).any(|pair| p(pair[0], pair[1]))`. -/
def windowsAny (p : α → α → Bool) (xs : List α) : Bool :=
  (windows xs).any fun pair => p pair.1 pair.2

/-- `windows(2).all(|pair| p(pair[0], pair[1]))`. -/
def windowsAll (p : α → α → Bool) (xs : List α) : Bool :=
  (windows xs).all fun pair => p pair.1 pair.2

/-- `windows(2).find(|pair| p(pair[0], pair[1]))`, and the first of that pair. -/
def windowsFind (p : α → α → Bool) (xs : List α) : Option α :=
  ((windows xs).find? fun pair => p pair.1 pair.2).map Prod.fst

/-- Whether collecting the elements into a set loses one of them. -/
def hasDuplicates (xs : List κ) : Bool := (BTreeSet.ofList xs).toList.length != xs.length

/-- `min_by_key`: the first of the elements with the least key. -/
def minBy (key : α → κ) (xs : List α) : Option α := xs.argmin key

/-- `max_by_key`: the last of the elements with the greatest key. -/
def maxBy (key : α → κ) (xs : List α) : Option α := xs.reverse.argmax key

/-! ## Stable sorts -/

theorem sortBy_perm (key : α → κ) (xs : List α) : (sortBy key xs).Perm xs :=
  List.perm_insertionSort _ xs

variable {key : α → κ} {xs ys : List α} {x : α} {p : α → α → Bool}

@[simp] theorem mem_sortBy : x ∈ sortBy key xs ↔ x ∈ xs :=
  (sortBy_perm key xs).mem_iff

@[simp] theorem length_sortBy (key : α → κ) (xs : List α) :
    (sortBy key xs).length = xs.length :=
  (sortBy_perm key xs).length_eq

theorem perm_of_sortBy_eq (h : sortBy key xs = sortBy key ys) : xs.Perm ys :=
  (sortBy_perm key xs).symm.trans (h ▸ sortBy_perm key ys)

theorem sortBy_sorted (key : α → κ) (xs : List α) :
    (sortBy key xs).Pairwise (fun a b => key a ≤ key b) := by
  have htotal : Std.Total (fun a b : α => key a ≤ key b) := ⟨fun a b => le_total (key a) (key b)⟩
  have htrans : IsTrans α (fun a b : α => key a ≤ key b) := ⟨fun _ _ _ => le_trans⟩
  exact List.pairwise_insertionSort _ xs

theorem sortBy_eq_of_sorted (h : xs.Pairwise (fun a b => key a ≤ key b)) : sortBy key xs = xs :=
  h.insertionSort_eq

/-- A sort whose keys tell the elements apart does not depend on their order. -/
theorem sortBy_eq_of_perm (h : xs.Perm ys) (hinj : ∀ a ∈ xs, ∀ b ∈ xs, key a = key b → a = b) :
    sortBy key xs = sortBy key ys := by
  have hanti : ∀ a b, a ∈ sortBy key xs → b ∈ sortBy key ys → key a ≤ key b → key b ≤ key a →
      a = b := fun a b ha hb hab hba =>
    hinj a (mem_sortBy.mp ha) b (h.mem_iff.mpr (mem_sortBy.mp hb)) (le_antisymm hab hba)
  exact List.Perm.eq_of_pairwise hanti (sortBy_sorted key xs) (sortBy_sorted key ys)
    ((sortBy_perm key xs).trans (h.trans (sortBy_perm key ys).symm))

theorem sortBy_map {β : Type} (key : β → κ) (f : α → β) (xs : List α) :
    sortBy key (xs.map f) = (sortBy (fun a => key (f a)) xs).map f := by
  unfold sortBy
  exact (List.map_insertionSort _ _ f xs fun a _ b _ => Iff.rfl).symm

theorem minBy_eq_none : minBy key xs = none ↔ xs = [] := List.argmin_eq_none

theorem minBy_eq_some (h : minBy key xs = some x) : x ∈ xs ∧ ∀ y ∈ xs, key x ≤ key y :=
  ⟨List.argmin_mem h, fun _ hy => List.le_of_mem_argmin hy h⟩

theorem maxBy_eq_none : maxBy key xs = none ↔ xs = [] :=
  List.argmax_eq_none.trans List.reverse_eq_nil_iff

theorem maxBy_eq_some (h : maxBy key xs = some x) : x ∈ xs ∧ ∀ y ∈ xs, key y ≤ key x :=
  ⟨List.mem_reverse.mp (List.argmax_mem h),
    fun _ hy => List.le_of_mem_argmax (List.mem_reverse.mpr hy) h⟩

/-! ## Sets as sorted lists -/

@[simp] theorem mem_sortDedup {xs : List κ} {x : κ} : x ∈ sortDedup xs ↔ x ∈ xs :=
  BTreeSet.mem_toList_ofList xs

theorem sortDedup_sorted (xs : List κ) : (sortDedup xs).Pairwise (· < ·) :=
  BTreeMap.keys_sorted _

theorem sortDedup_nodup (xs : List κ) : (sortDedup xs).Nodup := BTreeSet.toList_nodup _

theorem sortDedup_eq_iff {xs ys : List κ} :
    sortDedup xs = sortDedup ys ↔ ∀ x, x ∈ xs ↔ x ∈ ys := by
  refine ⟨fun h x => ?_, fun h => by rw [sortDedup, sortDedup, BTreeSet.ofList_eq_iff.mpr h]⟩
  rw [← mem_sortDedup, h, mem_sortDedup]

/-- Strictly ascending lists with the same elements are equal. -/
theorem eq_of_sorted_of_mem_iff {xs ys : List κ} (hx : xs.Pairwise (· < ·))
    (hy : ys.Pairwise (· < ·)) (h : ∀ x, x ∈ xs ↔ x ∈ ys) : xs = ys :=
  List.Perm.eq_of_pairwise (fun _ _ _ _ hab hba => absurd hab (not_lt.mpr hba.le)) hx hy
    ((List.perm_ext_iff_of_nodup (hx.imp ne_of_lt) (hy.imp ne_of_lt)).mpr h)

theorem sortDedup_of_sorted {xs : List κ} (h : xs.Pairwise (· < ·)) : sortDedup xs = xs :=
  eq_of_sorted_of_mem_iff (sortDedup_sorted xs) h fun _ => mem_sortDedup

@[simp] theorem sortDedup_idem (xs : List κ) : sortDedup (sortDedup xs) = sortDedup xs :=
  sortDedup_of_sorted (sortDedup_sorted xs)

theorem sortDedup_length_le (xs : List κ) : (sortDedup xs).length ≤ xs.length :=
  (List.subperm_of_subset (sortDedup_nodup xs) fun _ hx => mem_sortDedup.mp hx).length_le

@[simp] theorem hasDuplicates_eq_false {xs : List κ} : hasDuplicates xs = false ↔ xs.Nodup := by
  rw [hasDuplicates, bne_eq_false_iff_eq]
  exact BTreeSet.toList_ofList_length_eq_iff xs

/-! ## Adjacent pairs -/

theorem forall_mem_windows {R : α → α → Prop} :
    (∀ pair ∈ windows xs, R pair.1 pair.2) ↔ xs.IsChain R := by
  unfold windows
  induction xs with
  | nil => simp
  | cons a xs ih =>
    cases xs with
    | nil => simp
    | cons b xs =>
      rw [List.isChain_cons_cons, ← ih]
      simp

theorem windowsAny_eq_false : windowsAny p xs = false ↔ xs.IsChain (fun a b => p a b = false) := by
  rw [windowsAny, List.any_eq_false, ← forall_mem_windows]
  simp

theorem windowsAll_eq_true : windowsAll p xs = true ↔ xs.IsChain (fun a b => p a b = true) := by
  rw [windowsAll, List.all_eq_true, ← forall_mem_windows]

/-- No adjacent pair out of strict order: the list strictly ascends. -/
theorem windowsFind_eq_none : windowsFind p xs = none ↔ windowsAny p xs = false := by
  rw [windowsFind, Option.map_eq_none_iff, List.find?_eq_none, windowsAny, List.any_eq_false]

/-- In a list sorted on a key, no adjacent pair with equal keys: the keys are distinct. -/
theorem windowsAny_key_eq_false (hp : ∀ a b, p a b = true ↔ key a = key b)
    (hs : xs.Pairwise (fun a b => key a ≤ key b)) :
    windowsAny p xs = false ↔ (xs.map key).Nodup := by
  rw [windowsAny_eq_false]
  constructor
  · intro h
    have hlt : xs.IsChain (fun a b => key a < key b) := by
      refine forall_mem_windows.mp fun pair hpair => ?_
      have hle : key pair.1 ≤ key pair.2 := forall_mem_windows.mpr hs.isChain pair hpair
      have hfree : p pair.1 pair.2 = false := forall_mem_windows.mpr h pair hpair
      refine lt_of_le_of_ne hle fun heq => ?_
      rw [(hp _ _).mpr heq] at hfree
      cases hfree
    have htrans : IsTrans α (fun a b : α => key a < key b) := ⟨fun _ _ _ => lt_trans⟩
    have hpw : xs.Pairwise (fun a b => key a < key b) := List.isChain_iff_pairwise.mp hlt
    exact List.pairwise_map.mpr (hpw.imp ne_of_lt)
  · intro h
    have hpw := List.pairwise_map.mp h
    exact hpw.isChain.imp fun a b hab => Bool.eq_false_iff.mpr fun he => hab ((hp a b).mp he)

/-! ## The greatest machine integer of a list -/

/-- With this `List.max?` of words is known to be an upper bound. -/
instance lawfulOrderMax_uint32 : Std.LawfulOrderMax UInt32 where
  max_eq_or a b := by
    show (if a ≤ b then b else a) = a ∨ (if a ≤ b then b else a) = b
    split_ifs <;> simp
  max_le_iff a b c := by
    show (if a ≤ b then b else a) ≤ c ↔ a ≤ c ∧ b ≤ c
    split_ifs with h
    · exact ⟨fun hc => ⟨UInt32.le_trans h hc, hc⟩, And.right⟩
    · exact ⟨fun hc => ⟨hc, UInt32.le_trans (UInt32.le_of_lt (UInt32.not_le.mp h)) hc⟩, And.left⟩

end Blut.Lib
