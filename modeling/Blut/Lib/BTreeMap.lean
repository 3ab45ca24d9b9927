/-
  Ordered maps and sets with extensional equality.

  A map is a list of entries whose keys strictly ascend, the order in which a
  B-tree iterates. The invariant is a field, so two maps with the same lookups
  are equal (`BTreeMap.ext_get?`). A set is a map to `Unit`.
-/
import Blut.Lib.Outcome
import Blut.Lib.Writes

namespace Blut.Lib

/-- An ordered map: entries in strictly ascending key order. -/
structure BTreeMap (κ α : Type) [LinearOrder κ] where
  entries : List (κ × α)
  sorted : entries.Pairwise (fun a b => a.1 < b.1)

/-- An ordered set. -/
abbrev BTreeSet (κ : Type) [LinearOrder κ] := BTreeMap κ Unit

/-! ## Entry lists -/

section Entries

variable {κ α : Type} [LinearOrder κ]

/-- Write `v` at `k`, replacing an entry with that key. -/
def insertEntry (k : κ) (v : α) : List (κ × α) → List (κ × α)
  | [] => [(k, v)]
  | e :: rest =>
    if k < e.1 then (k, v) :: e :: rest
    else if k = e.1 then (k, v) :: rest
    else e :: insertEntry k v rest

variable {l : List (κ × α)}

theorem mem_insertEntry {k : κ} {v : α} {e : κ × α} (h : e ∈ insertEntry k v l) :
    e = (k, v) ∨ e ∈ l := by
  induction l with
  | nil => simpa [insertEntry] using h
  | cons d l ih =>
    simp only [insertEntry] at h
    split_ifs at h with hlt heq
    · rcases List.mem_cons.mp h with h | h
      · exact Or.inl h
      · exact Or.inr h
    · rcases List.mem_cons.mp h with h | h
      · exact Or.inl h
      · exact Or.inr (List.mem_cons_of_mem _ h)
    · rcases List.mem_cons.mp h with h | h
      · exact Or.inr (h ▸ List.mem_cons_self)
      · rcases ih h with h | h
        · exact Or.inl h
        · exact Or.inr (List.mem_cons_of_mem _ h)

theorem insertEntry_sorted (k : κ) (v : α) (h : l.Pairwise (fun a b => a.1 < b.1)) :
    (insertEntry k v l).Pairwise (fun a b => a.1 < b.1) := by
  induction l with
  | nil => simp [insertEntry]
  | cons e l ih =>
    obtain ⟨hlt, hl⟩ := List.pairwise_cons.mp h
    simp only [insertEntry]
    split_ifs with h1 h2
    · refine List.pairwise_cons.mpr ⟨fun d hd => ?_, h⟩
      rcases List.mem_cons.mp hd with rfl | hd
      · exact h1
      · exact h1.trans (hlt d hd)
    · exact List.pairwise_cons.mpr ⟨fun d hd => h2 ▸ hlt d hd, hl⟩
    · refine List.pairwise_cons.mpr ⟨fun d hd => ?_, ih hl⟩
      rcases mem_insertEntry hd with rfl | hd
      · exact lt_of_le_of_ne (not_lt.mp h1) (Ne.symm h2)
      · exact hlt d hd

theorem lookup_insertEntry (k k' : κ) (v : α) (l : List (κ × α)) :
    (insertEntry k v l).lookup k' = if k' = k then some v else l.lookup k' := by
  induction l with
  | nil => exact lookup_cons_eq k' (k, v) []
  | cons e l ih =>
    rw [insertEntry]
    by_cases h1 : k < e.1
    · rw [if_pos h1, lookup_cons_eq]
    · rw [if_neg h1]
      by_cases h2 : k = e.1
      · rw [if_pos h2, lookup_cons_eq, lookup_cons_eq]
        by_cases h3 : k' = k
        · simp [h3]
        · simp [h3, h2 ▸ h3]
      · rw [if_neg h2, lookup_cons_eq, lookup_cons_eq, ih]
        by_cases h3 : k' = k
        · simp [h3, h2]
        · simp [h3]

theorem sorted_nodup_keys (h : l.Pairwise (fun a b => a.1 < b.1)) : (l.map Prod.fst).Nodup :=
  List.pairwise_map.mpr (h.imp fun hab => ne_of_lt hab)

end Entries

namespace BTreeMap

variable {κ α β : Type} [LinearOrder κ]

instance [DecidableEq α] : DecidableEq (BTreeMap κ α) := fun m m' =>
  if h : m.entries = m'.entries then
    isTrue (by cases m; cases m'; cases h; rfl)
  else isFalse fun he => h (he ▸ rfl)

/-- The map without entries. -/
def empty : BTreeMap κ α := ⟨[], List.Pairwise.nil⟩

def get? (m : BTreeMap κ α) (k : κ) : Option α := m.entries.lookup k

def contains (m : BTreeMap κ α) (k : κ) : Bool := (m.get? k).isSome

def insert (m : BTreeMap κ α) (k : κ) (v : α) : BTreeMap κ α :=
  ⟨insertEntry k v m.entries, insertEntry_sorted k v m.sorted⟩

/-- `map.remove(k)`. -/
def erase (m : BTreeMap κ α) (k : κ) : BTreeMap κ α :=
  ⟨m.entries.filter (fun e => e.1 ≠ k), m.sorted.filter _⟩

/-- `map[k]`, which panics on an absent key. -/
def index {ε : Type} (m : BTreeMap κ α) (k : κ) : Outcome ε α := expect (m.get? k)

/-- Keys in ascending order. -/
def keys (m : BTreeMap κ α) : List κ := m.entries.map Prod.fst

/-- Values in ascending key order. -/
def values (m : BTreeMap κ α) : List α := m.entries.map Prod.snd

def size (m : BTreeMap κ α) : Nat := m.entries.length

/-- `iter().collect()`: a later entry replaces an earlier one with the same key. -/
def ofList (l : List (κ × α)) : BTreeMap κ α :=
  l.foldl (fun m e => m.insert e.1 e.2) empty

/-- `map.entry(k).or_default().push(x)`. -/
def push (m : BTreeMap κ (List α)) (k : κ) (x : α) : BTreeMap κ (List α) :=
  m.insert k ((m.get? k).getD [] ++ [x])

/-- The elements of `xs` in their order, under their keys. -/
def groupOn (key : α → κ) (xs : List α) : BTreeMap κ (List α) :=
  xs.foldl (fun m x => m.push (key x) x) empty

/-! ### Lookups -/

@[simp] theorem get?_empty (k : κ) : (empty : BTreeMap κ α).get? k = none := rfl

theorem get?_insert (m : BTreeMap κ α) (k k' : κ) (v : α) :
    (m.insert k v).get? k' = if k' = k then some v else m.get? k' :=
  lookup_insertEntry k k' v m.entries

@[simp] theorem get?_insert_self (m : BTreeMap κ α) (k : κ) (v : α) :
    (m.insert k v).get? k = some v := by
  rw [get?_insert, if_pos rfl]

variable {k k' : κ} {v : α} {m : BTreeMap κ α} {xs : List α}

theorem get?_insert_ne (m : BTreeMap κ α) (v : α) (h : k' ≠ k) :
    (m.insert k v).get? k' = m.get? k' := by
  rw [get?_insert, if_neg h]

theorem nodup_keys (m : BTreeMap κ α) : m.keys.Nodup := sorted_nodup_keys m.sorted

theorem keys_sorted (m : BTreeMap κ α) : m.keys.Pairwise (· < ·) :=
  List.pairwise_map.mpr m.sorted

theorem get?_eq_some_iff (m : BTreeMap κ α) : m.get? k = some v ↔ (k, v) ∈ m.entries :=
  lookup_eq_some m.nodup_keys

theorem mem_keys_iff (m : BTreeMap κ α) : k ∈ m.keys ↔ ∃ v, m.get? k = some v := by
  simp only [keys, List.mem_map, get?_eq_some_iff]
  constructor
  · rintro ⟨⟨k', v⟩, hm, rfl⟩
    exact ⟨v, hm⟩
  · rintro ⟨v, hm⟩
    exact ⟨(k, v), hm, rfl⟩

theorem contains_iff (m : BTreeMap κ α) : m.contains k = true ↔ ∃ v, m.get? k = some v := by
  rw [contains, Option.isSome_iff_exists]

theorem contains_eq_false_iff (m : BTreeMap κ α) : m.contains k = false ↔ m.get? k = none := by
  simp [contains]

@[simp] theorem contains_insert (m : BTreeMap κ α) (k k' : κ) (v : α) :
    (m.insert k v).contains k' = (decide (k' = k) || m.contains k') := by
  rw [contains, get?_insert]
  by_cases h : k' = k <;> simp [h, contains]

/-- An insertion under a new key keeps every entry. -/
theorem get?_insert_of_fresh (v : α) (hfresh : m.contains k = false) {v' : α}
    (h : m.get? k' = some v') : (m.insert k v).get? k' = some v' := by
  have hne : k' ≠ k := by
    intro he
    rw [contains_eq_false_iff] at hfresh
    rw [he, hfresh] at h
    exact absurd h (by simp)
  rw [get?_insert_ne m v hne]
  exact h

theorem get?_insert_cases {v' : α} (h : (m.insert k v).get? k' = some v') :
    m.get? k' = some v' ∨ (k' = k ∧ v' = v) := by
  rw [get?_insert] at h
  split_ifs at h with hk
  · exact Or.inr ⟨hk, (Option.some.inj h).symm⟩
  · exact Or.inl h

theorem get?_erase (m : BTreeMap κ α) (k k' : κ) :
    (m.erase k).get? k' = if k' = k then none else m.get? k' := by
  split_ifs with h
  · refine List.lookup_eq_none_iff.mpr fun e he => ?_
    simpa [h, eq_comm (a := k)] using (List.mem_filter.mp he).2
  · apply Option.ext
    intro v
    rw [get?_eq_some_iff, get?_eq_some_iff]
    simp [erase, h]

@[simp] theorem index_eq_ok {ε : Type} : (m.index k : Outcome ε α) = .ok v ↔ m.get? k = some v := by
  simp [index]

/-- Maps with the same lookups are equal. -/
theorem ext_get? {m' : BTreeMap κ α} (h : ∀ k, m.get? k = m'.get? k) : m = m' := by
  have hperm : m.entries.Perm m'.entries := by
    refine (List.perm_ext_iff_of_nodup (List.Nodup.of_map Prod.fst m.nodup_keys)
      (List.Nodup.of_map Prod.fst m'.nodup_keys)).mpr fun e => ?_
    rw [show e = (e.1, e.2) from rfl, ← get?_eq_some_iff, ← get?_eq_some_iff, h]
  have heq : m.entries = m'.entries :=
    List.Perm.eq_of_pairwise (fun a b _ _ hab hba => absurd hab (not_lt.mpr hba.le))
      m.sorted m'.sorted hperm
  cases m; cases m'; cases heq; rfl

/-! ### Maps from lists -/

variable {l : List (κ × α)}

theorem get?_foldl_insert (l : List (κ × α)) (m : BTreeMap κ α) :
    (l.foldl (fun m e => m.insert e.1 e.2) m).get? = writeAll l m.get? := by
  induction l generalizing m with
  | nil => rfl
  | cons e l ih =>
    have hstep : (m.insert e.1 e.2).get? = Function.update m.get? e.1 (some e.2) := by
      funext k
      rw [get?_insert, Function.update_apply]
    rw [List.foldl_cons, ih, hstep]
    rfl

theorem get?_foldl_erase (xs : List κ) (m : BTreeMap κ α) (k : κ) :
    (xs.foldl erase m).get? k = if k ∈ xs then none else m.get? k := by
  induction xs generalizing m with
  | nil => simp
  | cons x xs ih =>
    rw [List.foldl_cons, ih, get?_erase]
    by_cases h : k = x <;> simp [h]

theorem get?_ofList (l : List (κ × α)) (k : κ) : (ofList l).get? k = l.reverse.lookup k := by
  rw [ofList, get?_foldl_insert, writeAll_eq]
  exact Option.or_none

theorem mem_of_get?_ofList (h : (ofList l).get? k = some v) : (k, v) ∈ l :=
  List.mem_reverse.mp (mem_of_lookup (get?_ofList l k ▸ h))

theorem get?_ofList_eq_some (hl : (l.map Prod.fst).Nodup) :
    (ofList l).get? k = some v ↔ (k, v) ∈ l := by
  have hr : (l.reverse.map Prod.fst).Nodup := by
    rw [List.map_reverse]
    exact List.nodup_reverse.mpr hl
  rw [get?_ofList, lookup_eq_some hr, List.mem_reverse]

/-- The last entry of a key counts. -/
theorem get?_ofList_last (before after : List (κ × α)) (k : κ) (v : α)
    (h : ∀ e ∈ after, e.1 ≠ k) : (ofList (before ++ (k, v) :: after)).get? k = some v := by
  have hafter : k ∉ after.map Prod.fst := by simpa using fun v hv => h (k, v) hv rfl
  rw [ofList, get?_foldl_insert, writeAll_append]
  exact (writeAll_of_not_mem hafter _).trans (Function.update_self ..)

theorem contains_ofList (l : List (κ × α)) (k : κ) :
    (ofList l).contains k = true ↔ k ∈ l.map Prod.fst := by
  rw [contains, get?_ofList, List.lookup_isSome_iff, List.mem_map]
  simp [eq_comm (a := k)]

/-! ### Grouping -/

theorem get?_push (m : BTreeMap κ (List α)) (k k' : κ) (x : α) :
    (m.push k x).get? k' = if k' = k then some ((m.get? k).getD [] ++ [x]) else m.get? k' :=
  get?_insert m k k' _

theorem getD_foldl_push (key : α → κ) (xs : List α) (m : BTreeMap κ (List α)) (k : κ) :
    ((xs.foldl (fun m x => m.push (key x) x) m).get? k).getD [] =
      (m.get? k).getD [] ++ xs.filter (fun x => key x = k) := by
  induction xs generalizing m with
  | nil => simp
  | cons x xs ih =>
    rw [List.foldl_cons, ih, get?_push]
    by_cases h : key x = k
    · simp [h]
    · simp [h, Ne.symm h]

theorem getD_groupOn (key : α → κ) (xs : List α) (k : κ) :
    ((groupOn key xs).get? k).getD [] = xs.filter (fun x => key x = k) := by
  rw [groupOn, getD_foldl_push]
  simp

/-- A group holds exactly the elements with its key, and is never empty. -/
theorem get?_groupOn {key : α → κ} {ys : List α} :
    (groupOn key xs).get? k = some ys ↔ ys = xs.filter (fun x => key x = k) ∧ ys ≠ [] := by
  have hne : ∀ (xs : List α) (m : BTreeMap κ (List α)), (∀ k ys, m.get? k = some ys → ys ≠ []) →
      ∀ k ys, (xs.foldl (fun m x => m.push (key x) x) m).get? k = some ys → ys ≠ [] := by
    intro xs
    induction xs with
    | nil => intro m hm; exact hm
    | cons x xs ih =>
      intro m hm
      refine ih _ fun k' ys' h => ?_
      rw [get?_push] at h
      split_ifs at h with hk
      · rw [← Option.some.inj h]; simp
      · exact hm k' ys' h
  have hget := getD_groupOn key xs k
  constructor
  · intro h
    rw [h] at hget
    exact ⟨hget, hne xs empty (by simp) k ys h⟩
  · rintro ⟨rfl, h0⟩
    cases hg : (groupOn key xs).get? k with
    | none => rw [hg] at hget; exact absurd hget.symm h0
    | some ys => rw [hg] at hget; exact congrArg some hget

/-- A group holds elements with its key, at least one. -/
theorem groupOn_entry {key : α → κ} {entry : κ × List α} (h : entry ∈ (groupOn key xs).entries) :
    (∀ x ∈ entry.2, x ∈ xs ∧ key x = entry.1) ∧ entry.2 ≠ [] := by
  obtain ⟨heq, hne⟩ := get?_groupOn.mp ((groupOn key xs).get?_eq_some_iff.mpr h)
  refine ⟨fun x hx => ?_, hne⟩
  rw [heq, List.mem_filter, decide_eq_true_eq] at hx
  exact hx

/-- The groups together hold every element once. -/
theorem groupOn_flatMap_perm (key : α → κ) (hnd : xs.Nodup) {f : List α → List α}
    (hf : ∀ ys, (f ys).Perm ys) :
    ((groupOn key xs).entries.flatMap fun entry => f entry.2).Perm xs := by
  have hentry : ∀ entry ∈ (groupOn key xs).entries,
      entry.2 = xs.filter (fun x => key x = entry.1) ∧ entry.2 ≠ [] := by
    intro entry hentry
    exact get?_groupOn.mp ((groupOn key xs).get?_eq_some_iff.mpr hentry)
  refine (List.perm_ext_iff_of_nodup ?_ hnd).mpr fun x => ?_
  · rw [List.nodup_flatMap]
    refine ⟨fun entry hmem => ?_, ?_⟩
    · rw [(hf _).nodup_iff, (hentry entry hmem).1]
      exact hnd.filter _
    · have hkeys := List.pairwise_map.mp (groupOn key xs).nodup_keys
      refine hkeys.imp_of_mem fun {a b} ha hb hne => ?_
      intro x hxa hxb
      rw [(hf _).mem_iff, (hentry a ha).1, List.mem_filter, decide_eq_true_eq] at hxa
      rw [(hf _).mem_iff, (hentry b hb).1, List.mem_filter, decide_eq_true_eq] at hxb
      exact hne (hxa.2.symm.trans hxb.2)
  · rw [List.mem_flatMap]
    constructor
    · rintro ⟨entry, hmem, hx⟩
      rw [(hf _).mem_iff, (hentry entry hmem).1] at hx
      exact List.mem_of_mem_filter hx
    · intro hx
      have hfilter : x ∈ xs.filter (fun y => key y = key x) :=
        List.mem_filter.mpr ⟨hx, decide_eq_true rfl⟩
      have hget : (groupOn key xs).get? (key x) = some (xs.filter fun y => key y = key x) :=
        get?_groupOn.mpr ⟨rfl, List.ne_nil_of_mem hfilter⟩
      exact ⟨_, (groupOn key xs).get?_eq_some_iff.mp hget, (hf _).mem_iff.mpr hfilter⟩

end BTreeMap

/-! ## Sets -/

namespace BTreeSet

variable {κ : Type} [LinearOrder κ]

/-- `iter().collect::<BTreeSet<_>>()`. -/
def ofList (xs : List κ) : BTreeSet κ := BTreeMap.ofList (xs.map fun x => (x, ()))

/-- `set.insert(x)`; whether the element is new is `!set.contains x`. -/
def add (s : BTreeSet κ) (x : κ) : BTreeSet κ := BTreeMap.insert s x ()

/-- Elements in ascending order. -/
def toList (s : BTreeSet κ) : List κ := BTreeMap.keys s

/-- `set.extend(xs)`. -/
def extend (s : BTreeSet κ) (xs : List κ) : BTreeSet κ := xs.foldl add s

/-- `a.intersection(&b).cloned().collect()`. -/
def inter (a b : BTreeSet κ) : BTreeSet κ := ofList (a.toList.filter fun x => b.contains x)

@[simp] theorem contains_ofList (xs : List κ) (x : κ) :
    (ofList xs).contains x = decide (x ∈ xs) := by
  rw [Bool.eq_iff_iff, ofList, BTreeMap.contains_ofList]
  simp

@[simp] theorem contains_add (s : BTreeSet κ) (x y : κ) :
    (s.add x).contains y = (decide (y = x) || s.contains y) :=
  BTreeMap.contains_insert s x y ()

@[simp] theorem contains_empty (x : κ) : (BTreeMap.empty : BTreeSet κ).contains x = false := rfl

theorem mem_toList (s : BTreeSet κ) {x : κ} : x ∈ s.toList ↔ s.contains x = true := by
  rw [toList, BTreeMap.mem_keys_iff, BTreeMap.contains_iff]

theorem toList_nodup (s : BTreeSet κ) : s.toList.Nodup := BTreeMap.nodup_keys s

@[simp] theorem mem_toList_ofList (xs : List κ) {x : κ} : x ∈ (ofList xs).toList ↔ x ∈ xs := by
  rw [mem_toList]; simp

/-- Sets with the same elements are equal. -/
theorem ext_contains {s t : BTreeSet κ} (h : ∀ x, s.contains x = t.contains x) : s = t := by
  refine BTreeMap.ext_get? fun x => ?_
  have hx := h x
  rw [BTreeMap.contains, BTreeMap.contains] at hx
  cases hs : BTreeMap.get? s x <;> cases ht : BTreeMap.get? t x <;> simp_all

theorem ofList_eq_iff {xs ys : List κ} : ofList xs = ofList ys ↔ ∀ x, x ∈ xs ↔ x ∈ ys := by
  constructor
  · intro h x
    have := congrArg (fun s : BTreeSet κ => s.contains x) h
    simpa using this
  · intro h
    exact ext_contains fun x => by simp [h x]

theorem contains_extend (s : BTreeSet κ) (xs : List κ) (x : κ) :
    (s.extend xs).contains x = (decide (x ∈ xs) || s.contains x) := by
  induction xs generalizing s with
  | nil => simp [extend]
  | cons y xs ih =>
    have : s.extend (y :: xs) = (s.add y).extend xs := rfl
    rw [this, ih, contains_add]
    by_cases h1 : x ∈ xs <;> by_cases h2 : x = y <;> simp [h1, h2]

theorem contains_inter (s t : BTreeSet κ) (x : κ) :
    (s.inter t).contains x = (s.contains x && t.contains x) := by
  rw [Bool.eq_iff_iff, inter, contains_ofList]
  simp [mem_toList]

theorem contains_foldl_erase (s : BTreeSet κ) (xs : List κ) (x : κ) :
    (xs.foldl BTreeMap.erase s).contains x = (s.contains x && !decide (x ∈ xs)) := by
  rw [BTreeMap.contains, BTreeMap.contains, BTreeMap.get?_foldl_erase]
  by_cases h : x ∈ xs <;> simp [h]

/-- A set built from distinct elements has as many. -/
theorem toList_ofList_length_eq_iff (xs : List κ) :
    (ofList xs).toList.length = xs.length ↔ xs.Nodup := by
  constructor
  · intro h
    have hsub : (ofList xs).toList.Subperm xs :=
      List.subperm_of_subset (toList_nodup _) fun x hx => (mem_toList_ofList xs).mp hx
    exact (hsub.perm_of_length_le (by omega)).nodup_iff.mp (toList_nodup _)
  · intro h
    refine List.Perm.length_eq ((List.perm_ext_iff_of_nodup (toList_nodup _) h).mpr fun x => ?_)
    exact mem_toList_ofList xs

/-- A loop that checks every element and inserts its key, and stops at a key that is there
    already, returns exactly when all checks pass and the keys are new and distinct. -/
theorem foldlM_fresh {ε α : Type} {step : BTreeSet κ → α → Outcome ε (BTreeSet κ)} (key : α → κ)
    (P : α → Prop) {xs : List α} {start out : BTreeSet κ}
    (hstep : ∀ s x s', step s x = .ok s' ↔
      P x ∧ s.contains (key x) = false ∧ s' = add s (key x)) :
    xs.foldlM step start = .ok out ↔
      (∀ x ∈ xs, P x) ∧ (xs.map key).Nodup ∧ (∀ k ∈ xs.map key, start.contains k = false) ∧
        out = extend start (xs.map key) := by
  induction xs generalizing start with
  | nil =>
    rw [foldlM_nil_ok]
    exact ⟨fun h => ⟨by simp, List.nodup_nil, by simp, h.symm⟩, fun h => h.2.2.2.symm⟩
  | cons x xs ih =>
    rw [foldlM_cons_ok]
    have hextend : extend start ((x :: xs).map key) = extend (add start (key x)) (xs.map key) := rfl
    have hnot : ∀ k, (add start (key x)).contains k = false ↔
        k ≠ key x ∧ start.contains k = false := by
      intro k
      rw [contains_add, Bool.or_eq_false_iff, decide_eq_false_iff_not]
    rw [hextend, List.map_cons, List.nodup_cons]
    constructor
    · intro h
      obtain ⟨mid, hmid, hrest⟩ := h
      obtain ⟨hP, hfresh, rfl⟩ := (hstep _ _ _).mp hmid
      obtain ⟨hall, hnd, hdisjoint, hout⟩ := ih.mp hrest
      refine ⟨?_, ⟨fun hmem => ((hnot _).mp (hdisjoint _ hmem)).1 rfl, hnd⟩, ?_, hout⟩
      · exact List.forall_mem_cons.mpr ⟨hP, hall⟩
      · intro k hk
        rcases List.mem_cons.mp hk with rfl | hk
        · exact hfresh
        · exact ((hnot k).mp (hdisjoint k hk)).2
    · intro h
      obtain ⟨hall, ⟨hx, hnd⟩, hdisjoint, hout⟩ := h
      refine ⟨_, (hstep _ _ _).mpr ⟨hall x List.mem_cons_self, hdisjoint _ List.mem_cons_self, rfl⟩,
        ih.mpr ⟨fun y hy => hall y (List.mem_cons_of_mem _ hy), hnd, fun k hk => ?_, hout⟩⟩
      refine (hnot k).mpr ⟨fun he => hx (he ▸ hk), hdisjoint k (List.mem_cons_of_mem _ hk)⟩

end BTreeSet

/-! ## Lists searched by key -/

section Keyed

variable {α κ : Type} [DecidableEq κ]

/-- Where keys are distinct, a search finds the one element with the key. -/
theorem find?_key_eq_some {key : α → κ} {xs : List α} (hnd : (xs.map key).Nodup) {k : κ} {x : α} :
    xs.find? (fun a => decide (key a = k)) = some x ↔ x ∈ xs ∧ key x = k := by
  constructor
  · intro h
    exact ⟨List.mem_of_find?_eq_some h, by simpa using List.find?_some h⟩
  · intro h
    obtain ⟨found, hfound⟩ : ∃ found, xs.find? (fun a => decide (key a = k)) = some found := by
      cases hf : xs.find? (fun a => decide (key a = k)) with
      | some found => exact ⟨found, rfl⟩
      | none => exact absurd h.2 (by simpa using List.find?_eq_none.mp hf x h.1)
    have hmem := List.mem_of_find?_eq_some hfound
    have hkey : key found = k := by simpa using List.find?_some hfound
    rw [hfound, List.inj_on_of_nodup_map hnd hmem h.1 (hkey.trans h.2.symm)]

theorem find?_key_append_singleton {key : α → κ} (xs : List α) (x : α) (hfresh : key x ∉ xs.map key)
    (k : κ) :
    (xs ++ [x]).find? (fun a => decide (key a = k)) =
      if k = key x then some x else xs.find? (fun a => decide (key a = k)) := by
  rw [List.find?_append]
  by_cases h : k = key x
  · have hnone : xs.find? (fun a => decide (key a = k)) = none := by
      rw [List.find?_eq_none]
      intro a ha hk
      have hk' : key a = k := by simpa using hk
      exact hfresh (List.mem_map.mpr ⟨a, ha, hk'.trans h⟩)
    rw [if_pos h, hnone]
    simp [h]
  · have hne : ¬ key x = k := fun he => h he.symm
    rw [if_neg h]
    simp [hne]

end Keyed

end Blut.Lib
