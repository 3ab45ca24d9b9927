/-
  Configuration trees (`config/hydra.rs`).

  A mapping is the list of its entries in the order of insertion. The source keeps an index beside
  the entries; since entries only enter through `insert`, keys are distinct and the index says
  nothing more. A dotted path is the list of its segments. Floats are a type variable.

  Setting or deleting at a path changes nothing at a path that is neither an extension nor a part
  of it (`select_setAtPath_of_incomparable`, `select_deleteAtPath_of_incomparable`).
-/
import Mathlib.Tactic

namespace Blut.Config

inductive ConfigValue (F : Type) where
  | null
  | bool (b : Bool)
  | int (i : Int)
  | float (f : F)
  | string (s : String)
  | list (items : List (ConfigValue F))
  | dict (entries : List (String × ConfigValue F))
  | interpolation (s : String)
  | missing

abbrev ConfigDict (F : Type) := List (String × ConfigValue F)

variable {F : Type}

/-! ## Mappings -/

namespace ConfigDict

variable {value : ConfigValue F} {d : ConfigDict F}

def get (key : String) : ConfigDict F → Option (ConfigValue F)
  | [] => none
  | (k, value) :: rest => if k = key then some value else get key rest

/-- An existing key keeps its place. -/
def insert (key : String) (value : ConfigValue F) : ConfigDict F → ConfigDict F
  | [] => [(key, value)]
  | (k, old) :: rest => if k = key then (key, value) :: rest else (k, old) :: insert key value rest

def remove (key : String) (d : ConfigDict F) : ConfigDict F :=
  d.filter fun entry => entry.1 ≠ key

theorem get_insert (d : ConfigDict F) (key key' : String) (value : ConfigValue F) :
    (d.insert key value).get key' = if key' = key then some value else d.get key' := by
  induction d with
  | nil => by_cases h : key = key' <;> simp [insert, get, h, eq_comm]
  | cons entry rest ih =>
    obtain ⟨k, old⟩ := entry
    by_cases hk : k = key
    · by_cases h : key = key' <;> simp [insert, get, hk, h, eq_comm]
    · rw [insert, if_neg hk, get, ih, get]
      by_cases h : k = key'
      · have hne : key' ≠ key := fun heq => hk (h.trans heq)
        simp [h, hne]
      · simp [h]

theorem get_remove (d : ConfigDict F) (key key' : String) :
    (d.remove key).get key' = if key' = key then none else d.get key' := by
  unfold remove
  induction d with
  | nil => simp [get]
  | cons entry rest ih =>
    obtain ⟨k, old⟩ := entry
    by_cases hk : k = key
    · rw [List.filter_cons_of_neg (by simpa using hk), ih, get]
      by_cases h : key' = key
      · simp [h]
      · rw [if_neg h, if_neg h, if_neg (fun heq => h (heq.symm.trans hk))]
    · rw [List.filter_cons_of_pos (by simpa using hk), get, ih, get]
      by_cases h : k = key'
      · have hne : key' ≠ key := fun heq => hk (h.trans heq)
        simp [h, hne]
      · simp [h]

/-- An entry of the map after an insertion is the new one or an old one. -/
theorem mem_insert {key : String} {entry : String × ConfigValue F}
    (h : entry ∈ d.insert key value) : entry = (key, value) ∨ entry ∈ d := by
  induction d with
  | nil => exact .inl (List.mem_singleton.mp h)
  | cons first rest ih =>
    obtain ⟨k, old⟩ := first
    rw [insert] at h
    split at h
    · exact (List.mem_cons.mp h).imp id (List.mem_cons_of_mem _)
    · rcases List.mem_cons.mp h with rfl | h
      · exact .inr List.mem_cons_self
      · exact (ih h).imp id (List.mem_cons_of_mem _)

theorem mem_of_get {key : String} (h : d.get key = some value) : (key, value) ∈ d := by
  induction d with
  | nil => cases h
  | cons first rest ih =>
    obtain ⟨k, old⟩ := first
    rw [get] at h
    split at h
    · next hk =>
      rw [← hk, ← Option.some.inj h]
      exact List.mem_cons_self
    · exact List.mem_cons_of_mem _ (ih h)

end ConfigDict

/-! ## Merging -/

mutual

/-- The value a merge leaves at a key: a mapping goes into the mapping that is there, anything
    else takes its place. -/
def mergeValue (old : Option (ConfigValue F)) : ConfigValue F → ConfigValue F
  | .dict entries =>
    match old with
    | some (.dict own) => .dict (merge own entries)
    | _ => .dict entries
  | value => value
  termination_by structural value => value

/-- `ConfigDict::merge`. -/
def merge (d : ConfigDict F) : List (String × ConfigValue F) → ConfigDict F
  | [] => d
  | (key, value) :: rest => merge (d.insert key (mergeValue (d.get key) value)) rest
  termination_by structural other => other

end

mutual

def distinctValue : ConfigValue F → Bool
  | .dict entries => distinctKeys entries
  | _ => true
  termination_by structural value => value

/-- No key stands twice, in the mapping or in one inside it. -/
def distinctKeys : List (String × ConfigValue F) → Bool
  | [] => true
  | (key, value) :: rest =>
    !(rest.map Prod.fst).contains key && distinctValue value && distinctKeys rest
  termination_by structural entries => entries

end

/-! ## Paths -/

/-- `select_parts`. -/
def select (d : ConfigDict F) : List String → Option (ConfigValue F)
  | [] => none
  | [key] => d.get key
  | key :: rest =>
    match d.get key with
    | some (.dict nested) => select nested rest
    | _ => none

/-- `set_at_path_parts`: intermediate mappings are made only when `create`; anything else in the
    way ends the walk. -/
def setAtPath (value : ConfigValue F) (create : Bool) (d : ConfigDict F) :
    List String → ConfigDict F
  | [] => d
  | [key] => d.insert key value
  | key :: rest =>
    match d.get key with
    | some (.dict nested) => d.insert key (.dict (setAtPath value create nested rest))
    | some _ => d
    | none => if create then d.insert key (.dict (setAtPath value create [] rest)) else d

/-- `delete_at_path_parts`. -/
def deleteAtPath (d : ConfigDict F) : List String → ConfigDict F
  | [] => d
  | [key] => d.remove key
  | key :: rest =>
    match d.get key with
    | some (.dict nested) => d.insert key (.dict (deleteAtPath nested rest))
    | _ => d

/-- One path is a part of the other. -/
def Comparable (p q : List String) : Prop := p <+: q ∨ q <+: p

instance (p q : List String) : Decidable (Comparable p q) := inferInstanceAs (Decidable (_ ∨ _))

variable {key : String} {p q : List String} {d nested : ConfigDict F}

theorem comparable_cons : Comparable (key :: p) (key :: q) ↔ Comparable p q := by
  simp [Comparable]

/-- Every segment before the last leads into a mapping, or is not there and may be made. -/
def Settable (d : ConfigDict F) (create : Bool) (p : List String) : Prop :=
  ∀ q, q ≠ [] → q <+: p → q ≠ p →
    (∃ nested, select d q = some (.dict nested)) ∨ (create = true ∧ select d q = none)

theorem select_cons_cons (d : ConfigDict F) (key next : String) (rest : List String) :
    select d (key :: next :: rest) =
      match d.get key with
      | some (.dict nested) => select nested (next :: rest)
      | _ => none := rfl

theorem select_cons_of_dict (h : d.get key = some (.dict nested)) (hp : p ≠ []) :
    select d (key :: p) = select nested p := by
  obtain ⟨next, rest, rfl⟩ := List.exists_cons_of_ne_nil hp
  rw [select_cons_cons, h]

theorem select_empty (p : List String) : select ([] : ConfigDict F) p = none := by
  match p with
  | [] => rfl
  | [key] => rfl
  | key :: next :: rest => rfl

/-- The mapping a segment leads into, an empty one where nothing stands. -/
def Opened (d : ConfigDict F) (key : String) (nested : ConfigDict F) : Prop :=
  d.get key = some (.dict nested) ∨ d.get key = none ∧ nested = []

/-- Nothing is found below what is no mapping. -/
theorem select_cons_of_leaf (h : ∀ nested, d.get key ≠ some (.dict nested))
    (hp : p ≠ []) : select d (key :: p) = none := by
  obtain ⟨next, rest, rfl⟩ := List.exists_cons_of_ne_nil hp
  rw [select_cons_cons]
  split
  · next nested hget => exact absurd hget (h nested)
  · rfl

theorem Opened.select_eq (h : Opened d key nested) (hp : p ≠ []) :
    select d (key :: p) = select nested p := by
  rcases h with hget | ⟨hget, rfl⟩
  · exact select_cons_of_dict hget hp
  · rw [select_empty, select_cons_of_leaf (by simp [hget]) hp]

theorem select_insert_nested (d nested : ConfigDict F) (key : String) (hp : p ≠ []) :
    select (d.insert key (.dict nested)) (key :: p) = select nested p :=
  select_cons_of_dict (by rw [ConfigDict.get_insert, if_pos rfl]) hp

theorem select_insert_of_ne (d : ConfigDict F) (value : ConfigValue F) {k : String} (h : k ≠ key)
    (q : List String) : select (d.insert key value) (k :: q) = select d (k :: q) := by
  cases q <;> simp [select, ConfigDict.get_insert, h]

/-- A path is settable in a mapping of the first segment when it is so in the whole. -/
theorem Settable.inner {create : Bool} (h : Settable d create (key :: p))
    (hget : d.get key = some (.dict nested)) : Settable nested create p := by
  intro q hq hprefix hne
  have hold := h (key :: q) (List.cons_ne_nil _ _) (List.cons_prefix_cons.mpr ⟨rfl, hprefix⟩)
    (fun heq => hne (List.cons.inj heq).2)
  rwa [select_cons_of_dict hget hq] at hold

/-- What is set is there. -/
theorem select_setAtPath_self (value : ConfigValue F) (create : Bool) (d : ConfigDict F)
    (hp : p ≠ []) (hsettable : Settable d create p) :
    select (setAtPath value create d p) p = some value := by
  induction p generalizing d with
  | nil => exact absurd rfl hp
  | cons key p ih =>
    cases p with
    | nil => simp [setAtPath, select, ConfigDict.get_insert]
    | cons next rest =>
      have hne : next :: rest ≠ [] := List.cons_ne_nil _ _
      rcases hsettable [key] (List.cons_ne_nil _ _) (by simp) (by simp) with
        ⟨nested, hget⟩ | ⟨hcreate, hget⟩
      · rw [select] at hget
        simp only [setAtPath, hget]
        rw [select_insert_nested _ _ _ hne]
        exact ih nested hne (hsettable.inner hget)
      · rw [select] at hget
        subst hcreate
        simp only [setAtPath, hget, if_true]
        rw [select_insert_nested _ _ _ hne]
        exact ih [] hne fun q _ _ _ => .inr ⟨rfl, select_empty q⟩

/-- A mapping under a key that keeps what stands at paths incomparable to `p` keeps in the whole
    what stands at paths incomparable to `key :: p`. -/
theorem select_insert_of_incomparable {new : ConfigDict F} {k : String}
    (hopened : Opened d key nested) (h : ¬ Comparable (key :: p) (k :: q))
    (hnew : ¬ Comparable p q → select new q = select nested q) :
    select (d.insert key (.dict new)) (k :: q) = select d (k :: q) := by
  by_cases hk : k = key
  · subst hk
    rw [comparable_cons] at h
    have hq : q ≠ [] := fun heq => h (heq ▸ .inr List.nil_prefix)
    rw [select_insert_nested _ _ _ hq, hnew h, hopened.select_eq hq]
  · exact select_insert_of_ne d _ hk q

theorem select_setAtPath_of_incomparable (value : ConfigValue F) (create : Bool) (d : ConfigDict F)
    (h : ¬ Comparable p q) : select (setAtPath value create d p) q = select d q := by
  induction p generalizing d q with
  | nil => exact absurd (.inl List.nil_prefix) h
  | cons key p ih =>
    cases q with
    | nil => exact absurd (.inr List.nil_prefix) h
    | cons k q =>
      cases p with
      | nil =>
        have hk : k ≠ key := fun heq => h (heq ▸ .inl (by simp))
        exact select_insert_of_ne d value hk q
      | cons next rest =>
        rcases hget : d.get key with - | found
        · cases create with
          | false => simp [setAtPath, hget]
          | true =>
            simp only [setAtPath, hget, if_true]
            exact select_insert_of_incomparable (.inr ⟨hget, rfl⟩) h fun h => ih [] h
        · cases found with
          | dict nested =>
            simp only [setAtPath, hget]
            exact select_insert_of_incomparable (.inl hget) h fun h => ih nested h
          | _ => simp [setAtPath, hget]

theorem select_deleteAtPath_of_incomparable (d : ConfigDict F) (h : ¬ Comparable p q) :
    select (deleteAtPath d p) q = select d q := by
  induction p generalizing d q with
  | nil => exact absurd (.inl List.nil_prefix) h
  | cons key p ih =>
    cases q with
    | nil => exact absurd (.inr List.nil_prefix) h
    | cons k q =>
      cases p with
      | nil =>
        have hk : k ≠ key := fun heq => h (heq ▸ .inl (by simp))
        cases q <;> simp [deleteAtPath, select, ConfigDict.get_remove, hk]
      | cons next rest =>
        rcases hget : d.get key with - | found
        · simp [deleteAtPath, hget]
        · cases found with
          | dict nested =>
            simp only [deleteAtPath, hget]
            exact select_insert_of_incomparable (.inl hget) h fun h => ih nested h
          | _ => simp [deleteAtPath, hget]

/-- What is deleted is gone. -/
theorem select_deleteAtPath_self (d : ConfigDict F) (p : List String) :
    select (deleteAtPath d p) p = none := by
  induction p generalizing d with
  | nil => rfl
  | cons key p ih =>
    cases p with
    | nil => simp [deleteAtPath, select, ConfigDict.get_remove]
    | cons next rest =>
      cases hget : d.get key with
      | none => simp [deleteAtPath, select_cons_cons, hget]
      | some found =>
        cases found with
        | dict nested =>
          simp only [deleteAtPath, hget]
          rw [select_insert_nested _ _ _ (List.cons_ne_nil _ _)]
          exact ih nested
        | _ => simp [deleteAtPath, select_cons_cons, hget]

end Blut.Config
