/-
  What a merge leaves where (`config/hydra.rs`).

  A merge puts the values of a file where the file has them (`select_merge_self`), below the
  package of the file when the package can be opened (`select_mergeAtPath_self`), and changes
  nothing that no value of the file lies at, above or below (`select_merge_of_not_reaches`,
  `select_mergeAtPath_of_not_touches`). So what a file of the defaults list says is in the
  configuration, as far as the files after it stay away (`select_of_composed`).
-/
import Blut.Config.Hydra

namespace Blut.Config

open Blut.Lib

variable {F : Type} {d source : ConfigDict F} {key : String} {value : ConfigValue F}
  {p q r : List String}

/-! ## Merging -/

theorem merge_cons (d : ConfigDict F) (key : String) (value : ConfigValue F)
    (rest : ConfigDict F) :
    merge d ((key, value) :: rest) = merge (d.insert key (mergeValue (d.get key) value)) rest := rfl

theorem merge_append (d before after : ConfigDict F) :
    merge d (before ++ after) = merge (merge d before) after := by
  induction before generalizing d with
  | nil => rfl
  | cons entry before ih => exact ih _

/-- A mapping goes into the mapping that is there, or takes the place. -/
theorem mergeValue_dict (old : Option (ConfigValue F)) (nested : ConfigDict F) :
    (∃ own, old = some (.dict own) ∧ mergeValue old (.dict nested) = .dict (merge own nested)) ∨
      ((∀ own, old ≠ some (.dict own)) ∧ mergeValue old (.dict nested) = .dict nested) := by
  rcases old with - | old
  · exact .inr ⟨fun _ h => (by cases h), rfl⟩
  · cases old with
    | dict own => exact .inl ⟨own, rfl, rfl⟩
    | _ => exact .inr ⟨fun _ h => (by cases h), rfl⟩

theorem mergeValue_of_leaf (old : Option (ConfigValue F))
    (hleaf : ∀ nested, value ≠ .dict nested) : mergeValue old value = value := by
  cases value with
  | dict nested => exact absurd rfl (hleaf nested)
  | _ => rfl

/-- A value of the mapping lies at the path, above or below it. -/
def Reaches (d : ConfigDict F) : List String → Prop
  | [] => True
  | key :: rest => ∃ value, (key, value) ∈ d ∧ ∀ nested, value = .dict nested → Reaches nested rest

/-- What does not reach below an entry is a mapping there. -/
theorem nested_of_not_reaches (h : ¬ Reaches d (key :: q)) (hmem : (key, value) ∈ d) :
    ∃ nested, value = .dict nested ∧ q ≠ [] ∧ ¬ Reaches nested q := by
  by_contra hno
  refine h ⟨value, hmem, fun nested hvalue => by_contra fun hnested =>
    hno ⟨nested, hvalue, ?_, hnested⟩⟩
  rintro rfl
  exact hnested trivial

theorem select_of_not_reaches (h : ¬ Reaches d q) : select d q = none := by
  induction q generalizing d with
  | nil => exact absurd trivial h
  | cons key q ih =>
    cases hget : d.get key with
    | none => cases q <;> simp [select, hget]
    | some value =>
      obtain ⟨nested, rfl, hq, hnested⟩ := nested_of_not_reaches h (ConfigDict.mem_of_get hget)
      rw [select_cons_of_dict hget hq]
      exact ih hnested

/-- A merge leaves a path alone that the source does not reach. -/
theorem select_merge_of_not_reaches (d : ConfigDict F) (h : ¬ Reaches source q) :
    select (merge d source) q = select d q := by
  induction q generalizing d source with
  | nil => exact absurd trivial h
  | cons key q ih =>
    induction source generalizing d with
    | nil => rfl
    | cons entry source ihs =>
      obtain ⟨k, value⟩ := entry
      have hrest : ¬ Reaches source (key :: q) := fun ⟨value, hmem, hvalue⟩ =>
        h ⟨value, List.mem_cons_of_mem _ hmem, hvalue⟩
      rw [merge_cons, ihs _ hrest]
      by_cases hk : key = k
      · subst hk
        obtain ⟨nested, rfl, hq, hnested⟩ := nested_of_not_reaches h List.mem_cons_self
        rcases mergeValue_dict (d.get key) nested with ⟨own, hget, hmerged⟩ | ⟨hget, hmerged⟩
        · rw [hmerged, select_insert_nested _ _ _ hq, ih own hnested, select_cons_of_dict hget hq]
        · rw [hmerged, select_insert_nested _ _ _ hq, select_of_not_reaches hnested,
            select_cons_of_leaf hget hq]
      · exact select_insert_of_ne d _ hk q

/-- The one entry of a key. -/
theorem distinctKeys_split (h : distinctKeys d = true) (hget : d.get key = some value) :
    ∃ before after, d = before ++ (key, value) :: after ∧ key ∉ after.map Prod.fst ∧
      distinctValue value = true := by
  induction d with
  | nil => cases hget
  | cons entry rest ih =>
    obtain ⟨k, first⟩ := entry
    rw [distinctKeys, Bool.and_eq_true, Bool.and_eq_true] at h
    rw [ConfigDict.get] at hget
    split at hget
    · next hk =>
      subst hk
      cases hget
      exact ⟨[], rest, rfl, by simpa using h.1.1, h.1.2⟩
    · obtain ⟨before, after, rfl, hafter⟩ := ih h.2 hget
      exact ⟨(k, first) :: before, after, rfl, hafter⟩

/-- A path leads to an entry, and on into it. -/
theorem select_cons_eq_some (h : select d (key :: q) = some value) :
    (q = [] ∧ d.get key = some value) ∨
      ∃ nested, q ≠ [] ∧ d.get key = some (.dict nested) ∧ select nested q = some value := by
  cases q with
  | nil => exact .inl ⟨rfl, h⟩
  | cons next rest =>
    rw [select_cons_cons] at h
    split at h
    · next nested hget => exact .inr ⟨nested, List.cons_ne_nil _ _, hget, h⟩
    · cases h

/-- What a merge leaves at the key of an entry of the source. -/
theorem select_merge_entry (d : ConfigDict F) (hdistinct : distinctKeys source = true)
    (hget : source.get key = some value) (q : List String) : distinctValue value = true ∧
      ∃ d' : ConfigDict F, select (merge d source) (key :: q) =
        select (d'.insert key (mergeValue (d'.get key) value)) (key :: q) := by
  obtain ⟨before, after, rfl, hafter, hvalue⟩ := distinctKeys_split hdistinct hget
  have haway : ¬ Reaches after (key :: q) := fun ⟨_, hmem, _⟩ => hafter (List.mem_map_of_mem hmem)
  refine ⟨hvalue, merge d before, ?_⟩
  rw [merge_append, merge_cons, select_merge_of_not_reaches _ haway]

/-- A value of the source is where the source has it. -/
theorem select_merge_self (d : ConfigDict F) (hdistinct : distinctKeys source = true)
    (h : select source q = some value) (hleaf : ∀ nested, value ≠ .dict nested) :
    select (merge d source) q = some value := by
  induction q generalizing d source with
  | nil => cases h
  | cons key q ih =>
    rcases select_cons_eq_some h with ⟨rfl, hget⟩ | ⟨nested, hq, hget, hnested⟩
    · obtain ⟨-, d', hentry⟩ := select_merge_entry d hdistinct hget []
      rw [hentry, mergeValue_of_leaf _ hleaf, select, ConfigDict.get_insert, if_pos rfl]
    · obtain ⟨hinside, d', hentry⟩ := select_merge_entry d hdistinct hget q
      rw [hentry]
      rcases mergeValue_dict (d'.get key) nested with ⟨own, -, hmerged⟩ | ⟨-, hmerged⟩
      · rw [hmerged, select_insert_nested _ _ _ hq]
        exact ih own hinside hnested
      · rw [hmerged, select_insert_nested _ _ _ hq]
        exact hnested

/-! ## Packages -/

/-- Every segment leads into a mapping, or to nothing. -/
def Opens : ConfigDict F → List String → Prop
  | _, [] => True
  | d, key :: rest => ∃ nested, Opened d key nested ∧ Opens nested rest

theorem mergeAtPath_of_opened {nested : ConfigDict F} (h : Opened d key nested) :
    mergeAtPath d source (key :: p) = d.insert key (.dict (mergeAtPath nested source p)) := by
  rcases h with hget | ⟨hget, rfl⟩
  · simp only [mergeAtPath, hget]
  · simp only [mergeAtPath, hget]

/-- The values of the source are below its package. -/
theorem select_mergeAtPath_self (hopens : Opens d p) (hdistinct : distinctKeys source = true)
    (h : select source q = some value) (hleaf : ∀ nested, value ≠ .dict nested) :
    select (mergeAtPath d source p) (p ++ q) = some value := by
  induction p generalizing d with
  | nil => exact select_merge_self d hdistinct h hleaf
  | cons key p ih =>
    have hne : p ++ q ≠ [] := by
      refine List.append_ne_nil_of_right_ne_nil p ?_
      rintro rfl
      cases h
    obtain ⟨nested, hopened, hrest⟩ := hopens
    rw [mergeAtPath_of_opened hopened, List.cons_append, select_insert_nested _ _ _ hne]
    exact ih hrest

/-- The path is above the package, or a value of the source reaches it there. -/
def Touches (source : ConfigDict F) (p r : List String) : Prop :=
  r <+: p ∨ ∃ q, r = p ++ q ∧ Reaches source q

theorem select_mergeAtPath_of_not_touches (d : ConfigDict F) (h : ¬ Touches source p r) :
    select (mergeAtPath d source p) r = select d r := by
  induction p generalizing d r with
  | nil => exact select_merge_of_not_reaches d fun hreaches => h (.inr ⟨r, rfl, hreaches⟩)
  | cons key p ih =>
    cases r with
    | nil => exact absurd (.inl List.nil_prefix) h
    | cons k r =>
      by_cases hopened : ∃ nested, Opened d key nested
      · obtain ⟨nested, hopened⟩ := hopened
        rw [mergeAtPath_of_opened hopened]
        by_cases hk : k = key
        · subst hk
          have hr : r ≠ [] := by
            rintro rfl
            exact h (.inl (by simp))
          have hbelow : ¬ Touches source p r := by
            rintro (habove | ⟨q, rfl, hreaches⟩)
            · exact h (.inl (List.cons_prefix_cons.mpr ⟨rfl, habove⟩))
            · exact h (.inr ⟨q, rfl, hreaches⟩)
          rw [select_insert_nested _ _ _ hr, ih nested hbelow, hopened.select_eq hr]
        · exact select_insert_of_ne d _ hk r
      · -- a value that is no mapping stands in the way
        rw [mergeAtPath]
        split
        · next hget => exact absurd ⟨[], .inr ⟨hget, rfl⟩⟩ hopened
        · next nested hget => exact absurd ⟨nested, .inl hget⟩ hopened
        · rfl

def packagePath (package : String) : List String :=
  if package = "_global_" ∨ package = "" then [] else pathOf package.toList

theorem mergeAtPackage_eq (d source : ConfigDict F) (package : String) :
    mergeAtPackage d source package = mergeAtPath d source (packagePath package) := by
  unfold mergeAtPackage packagePath
  split_ifs <;> rfl

/-- Where the file of a request goes. -/
def Selection.place (cfg : LoadedConfig F) : Selection → List String
  | .config _ => []
  | .group g _ _ => packagePath (cfg.package.getD g)

/-! ## The defaults list -/

section Loading

variable {ε : Type} {load : String → Except ε (LoadedConfig F)} {merged config : ConfigDict F}
  {asked : List Selection}

/-- A request that is met puts its file in place, or was not there to be met. -/
theorem composeSelection_eq_ok {selection : Selection}
    (h : composeSelection load merged selection = .ok config) :
    (∃ cfg, load selection.file = .ok cfg ∧
      config = mergeAtPath merged cfg.dict (selection.place cfg)) ∨
    ((∃ e, load selection.file = .error e) ∧ config = merged) := by
  unfold composeSelection at h
  cases hload : load selection.file with
  | ok cfg =>
    refine .inl ⟨cfg, rfl, ?_⟩
    rw [hload] at h
    cases selection with
    | config name => exact (Except.ok.inj h).symm
    | group g option isOpt => exact (Except.ok.inj h).symm.trans (mergeAtPackage_eq _ _ _)
  | error e =>
    refine .inr ⟨⟨e, rfl⟩, ?_⟩
    rw [hload] at h
    cases selection with
    | config name => cases h
    | group g option isOpt =>
      dsimp only at h
      split_ifs at h
      exact (Except.ok.inj h).symm

/-- Requests whose files stay away from a path leave it alone. -/
theorem select_of_away (h : asked.foldlM (composeSelection load) merged = .ok config)
    (haway : ∀ s ∈ asked, ∀ cfg, load s.file = .ok cfg → ¬ Touches cfg.dict (s.place cfg) r) :
    select config r = select merged r := by
  induction asked generalizing merged with
  | nil => rw [Except.ok.inj h]
  | cons first rest ih =>
    obtain ⟨next, hfirst, hrest⟩ := bind_eq_ok.mp h
    rw [ih hrest fun s hs => haway s (List.mem_cons_of_mem _ hs)]
    rcases composeSelection_eq_ok hfirst with ⟨cfg, hload, rfl⟩ | ⟨-, rfl⟩
    · exact select_mergeAtPath_of_not_touches _ (haway first List.mem_cons_self cfg hload)
    · rfl

/-- A value of a file is in the configuration when the files after it stay away. -/
theorem select_of_composed {selection : Selection} {later : List Selection}
    (h : (selection :: later).foldlM (composeSelection load) merged = .ok config)
    {cfg : LoadedConfig F} (hload : load selection.file = .ok cfg)
    (hopens : Opens merged (selection.place cfg)) (hvalue : select cfg.dict q = some value)
    (hleaf : ∀ nested, value ≠ .dict nested)
    (haway : ∀ s ∈ later, ∀ other, load s.file = .ok other →
      ¬ Touches other.dict (s.place other) (selection.place cfg ++ q)) :
    select config (selection.place cfg ++ q) = some value := by
  obtain ⟨next, hfirst, hlater⟩ := bind_eq_ok.mp h
  rw [select_of_away hlater haway]
  rcases composeSelection_eq_ok hfirst with ⟨found, hfound, rfl⟩ | ⟨⟨e, herror⟩, -⟩
  · cases hload.symm.trans hfound
    exact select_mergeAtPath_self hopens cfg.distinct hvalue hleaf
  · cases hload.symm.trans herror

end Loading

end Blut.Config
