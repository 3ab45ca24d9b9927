/-
  What the overrides of a configuration do (`config/hydra.rs`, `config/sweep.rs`).

  An override that no later one touches decides what is found at its path when the path can be
  walked: a deletion always, `+path=value` when no segment before the last holds something other
  than a mapping, `path=value` with a dotted path when every segment before the last holds one.
  A path set without its parents is not made (`dropped_without_parent`). A key without a dot
  selects an option of its group: the file of the option is the one that is composed, and what it
  says is in the configuration below its package, as far as nothing after it says otherwise. No
  other path changes (`overrides_take_effect`).
-/
import Blut.Config.Merging

namespace Blut.Config

open Blut.Lib

/-! ## Reading overrides -/

theorem pathOf_ne_nil (key : List Char) : pathOf key ≠ [] := by
  simp [pathOf, List.splitOn_ne_nil]

variable {key value : List Char} {text group option : String}

theorem pathOf_of_not_mem (h : '.' ∉ key) : pathOf key = [String.ofList key] := by
  rw [pathOf, List.splitOn_eq_singleton h]
  rfl

theorem not_mem_of_pathOf {segment : String} (h : pathOf key = [segment]) : '.' ∉ key := by
  intro hmem
  obtain ⟨before, after, rfl⟩ := List.append_of_mem hmem
  rw [pathOf, List.splitOn_append_cons_self, List.map_append] at h
  have hleft := List.length_pos_of_ne_nil (pathOf_ne_nil before)
  have hright := List.length_pos_of_ne_nil (pathOf_ne_nil after)
  have hlength := congrArg List.length h
  rw [List.length_append] at hlength
  simp only [pathOf, List.length_singleton] at hleft hright hlength
  omega

theorem splitAssignment_eq_some {text : List Char} (h : splitAssignment text = some (key, value)) :
    key = text.takeWhile (· != '=') := by
  unfold splitAssignment at h
  split at h
  · cases h
  · injection h with h
    injection h with hkey hvalue
    exact hkey.symm

/-- What is before the `=` begins as the text does. -/
theorem head?_of_splitAssignment {text : List Char} (h : splitAssignment text = some (key, value))
    {c : Char} (hc : key.head? = some c) : text.head? = some c := by
  rw [splitAssignment_eq_some h] at hc
  cases text with
  | nil => exact hc
  | cons first rest =>
    rw [List.takeWhile_cons] at hc
    split at hc
    · exact hc
    · cases hc

theorem isDefaultOverride_eq_true (h : splitAssignment text.toList = some (key, value)) :
    isDefaultOverride text = true ↔
      '.' ∉ key ∧ key.head? ≠ some '+' ∧ key.head? ≠ some '~' := by
  unfold isDefaultOverride
  rw [h]
  simp [and_assoc]

/-- A selection of a group is a plain assignment to a path of one segment. -/
theorem readOverride_eq_group : readOverride text = some (.assign [group] option) ↔
      isDefaultOverride text = true ∧
        splitAssignment text.toList = some (group.toList, option.toList) := by
  constructor
  · intro h
    unfold readOverride at h
    split at h
    · cases h
    · next chars hdelete =>
      split at h
      · cases h
      · cases h
      · next key value hadd hsplit =>
        injection h with h
        injection h with hpath hvalue
        have hdot := not_mem_of_pathOf hpath
        have hkey : key = group.toList := by
          rw [pathOf_of_not_mem hdot] at hpath
          rw [← (List.cons.inj hpath).1, String.toList_ofList]
        subst hkey
        refine ⟨(isDefaultOverride_eq_true hsplit).mpr ⟨hdot, ?_, ?_⟩, ?_⟩
        · intro hhead
          obtain ⟨rest, hrest⟩ := List.head?_eq_some_iff.mp hhead
          exact hadd rest hrest
        · intro hhead
          obtain ⟨rest, hrest⟩ := List.head?_eq_some_iff.mp (head?_of_splitAssignment hsplit hhead)
          exact hdelete rest hrest
        · rw [hsplit, ← hvalue, String.toList_ofList]
  · rintro ⟨hdefault, hsplit⟩
    obtain ⟨hdot, hplus, htilde⟩ := (isDefaultOverride_eq_true hsplit).mp hdefault
    unfold readOverride
    split
    · next rest htext =>
      exfalso
      apply htilde
      rw [splitAssignment_eq_some hsplit, htext]
      rfl
    · rw [hsplit]
      split
      · next hnone => cases hnone
      · next key value hsome =>
        exact absurd (by rw [(Prod.mk.inj (Option.some.inj hsome)).1]; rfl) hplus
      · next key value _ hsome =>
        obtain ⟨hkey, hvalue⟩ := Prod.mk.inj (Option.some.inj hsome)
        rw [← hkey, ← hvalue, pathOf_of_not_mem hdot, String.ofList_toList, String.ofList_toList]

theorem readOverride_of_default (h : isDefaultOverride text = true) :
    ∃ group option, readOverride text = some (.assign [group] option) := by
  cases hsplit : splitAssignment text.toList with
  | none =>
    unfold isDefaultOverride at h
    rw [hsplit] at h
    cases h
  | some pair =>
    refine ⟨String.ofList pair.1, String.ofList pair.2, readOverride_eq_group.mpr ⟨h, ?_⟩⟩
    rw [hsplit, String.toList_ofList, String.toList_ofList]

/-! ## Value overrides -/

section Values

variable {F : Type} (parseFloat : String → Option F) {override : Override}

/-- What an override leaves at its path. -/
def Override.result : Override → Option (ConfigValue F)
  | .delete _ => none
  | .add _ value => some (parseOverrideValue parseFloat value.toList)
  | .assign _ value => some (parseOverrideValue parseFloat value.toList)

/-- The path of a value override can be walked in `config`. -/
def Override.Effective (config : ConfigDict F) : Override → Prop
  | .delete _ => True
  | .add path _ => Settable config true path
  | .assign path _ => path.length ≠ 1 ∧ Settable config false path

theorem readOverride_path_ne_nil (h : readOverride text = some override) :
    override.path ≠ [] := by
  unfold readOverride at h
  split at h
  · cases h
    exact pathOf_ne_nil _
  · split at h
    · cases h
    · cases h
      exact pathOf_ne_nil _
    · cases h
      exact pathOf_ne_nil _

theorem select_applyOverride_self (config : ConfigDict F)
    (hread : readOverride text = some override) (heffective : override.Effective config) :
    select (applyOverride parseFloat config text) override.path = override.result parseFloat := by
  have hpath := readOverride_path_ne_nil hread
  unfold applyOverride
  rw [hread]
  cases override with
  | delete path => exact select_deleteAtPath_self config path
  | add path value => exact select_setAtPath_self _ true config hpath heffective
  | assign path value => exact select_setAtPath_self _ false config hpath heffective.2

/-- The overrides that select no option of a group. -/
def valuesOf (overrides : List String) : List String :=
  overrides.filter fun text => !isDefaultOverride text

/-- The overrides leave a path alone that none of them names, extends or leads to. -/
def Untouched (overrides : List String) (q : List String) : Prop :=
  ∀ text ∈ overrides, ∀ override, readOverride text = some override →
    ¬ Comparable override.path q

theorem select_applyOverride_of_incomparable (config : ConfigDict F) {q : List String}
    (h : ∀ override, readOverride text = some override → ¬ Comparable override.path q) :
    select (applyOverride parseFloat config text) q = select config q := by
  unfold applyOverride
  cases hread : readOverride text with
  | none => rfl
  | some override =>
    have hne := h override hread
    cases override with
    | delete path => exact select_deleteAtPath_of_incomparable config hne
    | add path value => exact select_setAtPath_of_incomparable _ true config hne
    | assign path value => exact select_setAtPath_of_incomparable _ false config hne

theorem select_foldl_of_untouched (config : ConfigDict F) {overrides : List String}
    {q : List String} (h : Untouched overrides q) :
    select (overrides.foldl (applyOverride parseFloat) config) q = select config q := by
  induction overrides generalizing config with
  | nil => rfl
  | cons text rest ih =>
    rw [List.foldl_cons, ih _ fun text' htext' => h text' (List.mem_cons_of_mem _ htext')]
    exact select_applyOverride_of_incomparable parseFloat config (h text List.mem_cons_self)

end Values

/-! ## Group selections -/

section Groups

variable {F : Type} {rebuilt : ConfigDict F} {value : ConfigValue F}

/-- The options the overrides select. -/
def selected (overrides : List String) : BTreeMap String String :=
  buildDefaultOverrideMap (overrides.filter isDefaultOverride)

/-- The files the defaults list of a primary config asks for under the overrides, in order. -/
def requests (overrides : List String) (primary : ConfigDict F) : List Selection :=
  (applyDefaultOverrides (defaultsOf primary) (selected overrides)).flatMap selections

/-- The name is a key of a mapping of the defaults list. -/
def IsGroup (primary : ConfigDict F) (group : String) : Prop :=
  ∃ entries, .dict entries ∈ defaultsOf primary ∧ group ∈ entries.map Prod.fst

/-- The rewritten value of a key. -/
def rewritten (options : BTreeMap String String) (entry : String × ConfigValue F) :
    ConfigValue F :=
  match options.get? entry.1 with
  | some option => .string option
  | none => entry.2

/-- The entries are added to a mapping with their rewritten values. -/
def rebuild (options : BTreeMap String String) (rebuilt entries : ConfigDict F) : ConfigDict F :=
  entries.foldl (fun rebuilt entry => ConfigDict.insert entry.1 (rewritten options entry) rebuilt)
    rebuilt

theorem overrideEntry_dict (options : BTreeMap String String) (entries : ConfigDict F) :
    overrideEntry options (.dict entries) = .dict (rebuild options [] entries) := rfl

variable {options : BTreeMap String String} {entries : ConfigDict F}

theorem mem_rebuild {entry : String × ConfigValue F} (h : entry ∈ rebuild options rebuilt entries) :
    entry ∈ rebuilt ∨ ∃ old ∈ entries, entry = (old.1, rewritten options old) := by
  induction entries generalizing rebuilt with
  | nil => exact .inl h
  | cons first rest ih =>
    rcases ih h with hmem | ⟨old, hold, heq⟩
    · rcases ConfigDict.mem_insert hmem with hnew | hmem
      · exact .inr ⟨first, List.mem_cons_self, hnew⟩
      · exact .inl hmem
    · exact .inr ⟨old, List.mem_cons_of_mem _ hold, heq⟩

theorem get_rebuild_isSome (options : BTreeMap String String) {key : String}
    (h : key ∈ entries.map Prod.fst ∨ (rebuilt.get key).isSome) :
    ((rebuild options rebuilt entries).get key).isSome := by
  induction entries generalizing rebuilt with
  | nil => exact h.resolve_left (by simp)
  | cons first rest ih =>
    refine ih ?_
    rw [List.map_cons, List.mem_cons] at h
    rw [ConfigDict.get_insert]
    by_cases hkey : key = first.1
    · exact .inr (by simp [hkey])
    · rw [if_neg hkey]
      exact h.imp (fun h => h.resolve_left hkey) id

/-- A selected group appears in the rebuilt mapping with the selected option and no other. -/
theorem rebuild_of_selected (hselected : options.get? group = some option)
    (h : (group, value) ∈ rebuild options [] entries) : value = .string option := by
  rcases mem_rebuild h with hnil | ⟨old, -, heq⟩
  · cases hnil
  · obtain ⟨hkey, hvalue⟩ := Prod.mk.inj heq
    rw [hvalue, rewritten, ← hkey, hselected]

theorem mem_selections_dict {isOpt : Bool} :
    Selection.group group option isOpt ∈ selections (.dict entries) ↔
      group ≠ "optional" ∧ (group, .string option) ∈ entries ∧ isOpt = isOptional entries := by
  unfold selections
  rw [List.mem_filterMap]
  constructor
  · rintro ⟨⟨name, value⟩, hmem, h⟩
    split at h
    · cases h
    · next hname =>
      cases value <;> simp at h
      obtain ⟨rfl, rfl, rfl⟩ := h
      exact ⟨hname, hmem, rfl⟩
  · rintro ⟨hname, hmem, rfl⟩
    exact ⟨(group, .string option), hmem, by simp [hname]⟩

/-- Only a mapping of the defaults list asks for a group. -/
theorem group_of_mem_selections {isOpt : Bool}
    (h : Selection.group group option isOpt ∈ selections value) :
    ∃ entries, value = .dict entries := by
  cases value with
  | dict entries => exact ⟨entries, rfl⟩
  | string name =>
    by_cases hself : name = "_self_" <;> simp [selections, hself] at h
  | _ => cases h

theorem selected_of_last {before after : List String}
    (hread : readOverride text = some (.assign [group] option))
    (hlater : ∀ other ∈ after, ∀ o, readOverride other = some o → o.path ≠ [group]) :
    (selected (before ++ text :: after)).get? group = some option := by
  obtain ⟨hdefault, hsplit⟩ := readOverride_eq_group.mp hread
  unfold selected buildDefaultOverrideMap
  rw [List.filter_append, List.filter_cons_of_pos hdefault, List.filterMap_append,
    List.filterMap_cons_some (by rw [hsplit]; rfl)]
  simp only [String.ofList_toList]
  apply BTreeMap.get?_ofList_last
  intro entry hentry heq
  obtain ⟨other, hother, hpair⟩ := List.mem_filterMap.mp hentry
  obtain ⟨hmem, hdefault'⟩ := List.mem_filter.mp hother
  obtain ⟨group', option', hread'⟩ := readOverride_of_default hdefault'
  rw [(readOverride_eq_group.mp hread').2] at hpair
  have hgroup : group' = entry.1 := by
    rw [← Option.some.inj hpair]
    exact String.ofList_toList.symm
  exact hlater other hmem _ hread' (by rw [Override.path, hgroup, heq])

/-- A selected group is asked for, with the selected option and with no other. -/
theorem requests_of_selected {overrides : List String} {primary : ConfigDict F}
    (hselected : (selected overrides).get? group = some option) (hgroup : IsGroup primary group)
    (hoptional : group ≠ "optional") :
    (∃ isOpt, Selection.group group option isOpt ∈ requests overrides primary) ∧
      ∀ other isOpt, Selection.group group other isOpt ∈ requests overrides primary →
        other = option := by
  constructor
  · obtain ⟨entries, hentries, hkey⟩ := hgroup
    obtain ⟨value, hvalue⟩ := Option.isSome_iff_exists.mp
      (get_rebuild_isSome (selected overrides) (.inl hkey : _ ∨ (ConfigDict.get group []).isSome))
    have hmem := ConfigDict.mem_of_get hvalue
    rw [rebuild_of_selected hselected hmem] at hmem
    have hasked := mem_selections_dict.mpr ⟨hoptional, hmem, rfl⟩
    rw [← overrideEntry_dict] at hasked
    exact ⟨_, List.mem_flatMap.mpr ⟨_, List.mem_map.mpr ⟨_, hentries, rfl⟩, hasked⟩⟩
  · intro other isOpt hmem
    obtain ⟨value, hvalue, hmem⟩ := List.mem_flatMap.mp hmem
    obtain ⟨old, -, rfl⟩ := List.mem_map.mp hvalue
    obtain ⟨rebuilt, hrebuilt⟩ := group_of_mem_selections hmem
    cases old with
    | dict entries =>
      rw [overrideEntry_dict] at hmem
      have heq := rebuild_of_selected hselected (mem_selections_dict.mp hmem).2.1
      injection heq
    | _ => cases hrebuilt

/-- What is selected was read from an override. -/
theorem override_of_selected {overrides : List String}
    (h : (selected overrides).get? group = some option) :
    ∃ text ∈ overrides, readOverride text = some (.assign [group] option) := by
  obtain ⟨text, htext, hpair⟩ := List.mem_filterMap.mp (BTreeMap.mem_of_get?_ofList h)
  obtain ⟨hmem, hdefault⟩ := List.mem_filter.mp htext
  obtain ⟨group', option', hread⟩ := readOverride_of_default hdefault
  rw [(readOverride_eq_group.mp hread).2] at hpair
  obtain ⟨hgroup, hoption⟩ := Prod.mk.inj (Option.some.inj hpair)
  rw [String.ofList_toList] at hgroup hoption
  exact ⟨text, hmem, hgroup ▸ hoption ▸ hread⟩

/-- Selections of names that are no groups change no request. -/
theorem applyDefaultOverrides_of_no_group {defaults : List (ConfigValue F)}
    {options' : BTreeMap String String}
    (h : ∀ entries, .dict entries ∈ defaults → ∀ group ∈ entries.map Prod.fst,
      options.get? group = options'.get? group) :
    applyDefaultOverrides defaults options = applyDefaultOverrides defaults options' := by
  apply List.map_congr_left
  intro value hvalue
  cases value with
  | dict entries =>
    rw [overrideEntry_dict, overrideEntry_dict]
    congr 1
    apply List.foldl_ext
    intro rebuilt entry hentry
    rw [rewritten, rewritten, h entries hvalue entry.1 (List.mem_map_of_mem hentry)]
  | _ => rfl

end Groups

/-! ## Loading -/

section Loading

variable {F ε : Type} (load : String → Except ε (LoadedConfig F)) (parseFloat : String → Option F)
  {merged : ConfigDict F}

theorem composeConfig_some (name : String) (options : BTreeMap String String) :
    composeConfig load (some name) options = load name >>= fun primary =>
      processDefaults load (applyDefaultOverrides (defaultsOf primary.dict) options) []
        >>= fun merged =>
        .ok (merge merged (primary.dict.filter fun entry => entry.1 ≠ "defaults")) := rfl

theorem loadConfig_eq (configName : Option String) (overrides : List String) :
    loadConfig load parseFloat configName overrides =
      composeConfig load configName (selected overrides) >>= fun merged =>
        .ok (.dict ((valuesOf overrides).foldl (applyOverride parseFloat) merged)) := rfl

variable {overrides : List String} {configName : Option String} {config : ConfigDict F}

theorem loadConfig_eq_ok : loadConfig load parseFloat configName overrides = .ok (.dict config) ↔
      ∃ merged, composeConfig load configName (selected overrides) = .ok merged ∧
        config = (valuesOf overrides).foldl (applyOverride parseFloat) merged := by
  rw [loadConfig_eq, bind_eq_ok]
  simp [eq_comm]

theorem selected_filter (overrides : List String) :
    selected (overrides.filter isDefaultOverride) = selected overrides := by
  unfold selected
  rw [List.filter_filter]
  simp

theorem selected_before (before rest : List String) :
    selected (before ++ rest.filter isDefaultOverride) = selected (before ++ rest) := by
  unfold selected
  rw [List.filter_append, List.filter_append, List.filter_filter]
  simp

theorem values_before (before rest : List String) :
    valuesOf (before ++ rest.filter isDefaultOverride) = valuesOf before := by
  unfold valuesOf
  rw [List.filter_append, List.filter_filter]
  simp

/-- A request of a run that succeeds was met. -/
theorem request_loaded {asked : List Selection}
    (h : asked.foldlM (composeSelection load) merged = .ok config) {isOpt : Bool}
    (hmem : Selection.group group option isOpt ∈ asked) :
    isOpt = true ∨ ∃ cfg, load (group ++ "/" ++ option) = .ok cfg := by
  obtain ⟨before, next, hfirst⟩ := foldlM_step_of_mem h hmem
  cases hload : load (group ++ "/" ++ option) with
  | ok cfg => exact .inr ⟨cfg, rfl⟩
  | error e =>
    refine .inl ?_
    cases isOpt with
    | true => rfl
    | false => simp [composeSelection, Selection.file, hload] at hfirst

/-- Nothing that comes after the first requests has a say at the path: no file of a later one, not
    the primary file and no value override. -/
structure Undisputed (primary : ConfigDict F) (overrides : List String) (later : List Selection)
    (r : List String) : Prop where
  files : ∀ s ∈ later, ∀ cfg, load s.file = .ok cfg → ¬ Touches cfg.dict (s.place cfg) r
  body : ¬ Reaches (primary.filter fun entry => entry.1 ≠ "defaults") r
  values : Untouched (valuesOf overrides) r

/-- What the file of a request says stands in the configuration below its package, if the package
    can be opened in what was composed before. -/
def Contributes (primary : ConfigDict F) (overrides : List String) (config : ConfigDict F)
    (request : Selection) : Prop :=
  ∀ earlier later, requests overrides primary = earlier ++ request :: later →
    ∀ cfg, load request.file = .ok cfg →
      ∃ base, earlier.foldlM (composeSelection load) [] = .ok base ∧
        (Opens base (request.place cfg) → ∀ q value, select cfg.dict q = some value →
          (∀ nested, value ≠ .dict nested) →
          Undisputed load primary overrides later (request.place cfg ++ q) →
          select config (request.place cfg ++ q) = some value)

theorem contributes_of_composed {primary processed : ConfigDict F}
    (h : (requests overrides primary).foldlM (composeSelection load) [] = .ok processed)
    (hconfig : config = (valuesOf overrides).foldl (applyOverride parseFloat)
      (merge processed (primary.filter fun entry => entry.1 ≠ "defaults")))
    (request : Selection) : Contributes load primary overrides config request := by
  intro earlier later hsplit cfg hload
  rw [hsplit, List.foldlM_append] at h
  obtain ⟨base, hbase, hrest⟩ := bind_eq_ok.mp h
  refine ⟨base, hbase, fun hopens q value hvalue hleaf hundisputed => ?_⟩
  rw [hconfig, select_foldl_of_untouched parseFloat _ hundisputed.values,
    select_merge_of_not_reaches _ hundisputed.body]
  exact select_of_composed hrest hload hopens hvalue hleaf hundisputed.files

/-! ## What takes effect -/

variable {staged : ConfigDict F}

/-- An override of the list, and the overrides after it stay away from its path. -/
structure LastNaming (overrides before : List String) (text : String) (after : List String)
    (override : Override) : Prop where
  split : overrides = before ++ text :: after
  read : readOverride text = some override
  later : ∀ other ∈ after, ∀ o, readOverride other = some o → ¬ Comparable override.path o.path

/-- What a composed configuration owes to its overrides. -/
structure TakeEffect (configName : Option String) (overrides : List String)
    (config : ConfigDict F) : Prop where
  /-- An override decides what is at its path, if the path can be walked in the configuration as
      the group selections and the overrides before it made it. -/
  settles : ∀ before text after override, LastNaming overrides before text after override →
    ∃ staged, loadConfig load parseFloat configName
        (before ++ (text :: after).filter isDefaultOverride) = .ok (.dict staged) ∧
      (override.Effective staged → select config override.path = override.result parseFloat)
  /-- The option selected for a group is asked for and no other, its file is loaded unless the entry
      is optional and the file does not load, and what the file says is in the configuration. -/
  composes : ∀ before text after group option,
    LastNaming overrides before text after (.assign [group] option) → group ≠ "optional" →
    ∀ name primary, configName = some name → load name = .ok primary →
      IsGroup primary.dict group →
      (∃ isOpt, Selection.group group option isOpt ∈ requests overrides primary.dict) ∧
        ∀ other isOpt, Selection.group group other isOpt ∈ requests overrides primary.dict →
          other = option ∧ (isOpt = true ∨ ∃ cfg, load (group ++ "/" ++ option) = .ok cfg) ∧
            Contributes load primary.dict overrides config (.group group option isOpt)
  /-- Any other path has the value that the group selections alone give it. -/
  leaves : ∃ plain, loadConfig load parseFloat configName (overrides.filter isDefaultOverride) =
      .ok (.dict plain) ∧
    ∀ q, Untouched (valuesOf overrides) q →
      select config q = select plain q
  /-- Selections of names that are no groups do not change that composition. -/
  ignores : (∀ text ∈ overrides, ∀ group option,
      readOverride text = some (.assign [group] option) →
      ∀ name primary, configName = some name → load name = .ok primary →
        ¬ IsGroup primary.dict group) →
    loadConfig load parseFloat configName (overrides.filter isDefaultOverride) =
      loadConfig load parseFloat configName []
  /-- Another list that settles some path differently composes to another configuration. -/
  separates : ∀ overrides' config', loadConfig load parseFloat configName overrides' =
      .ok (.dict config') →
    ∀ before text after override before' text' after' override' staged staged',
      LastNaming overrides before text after override →
      LastNaming overrides' before' text' after' override' →
      loadConfig load parseFloat configName
        (before ++ (text :: after).filter isDefaultOverride) = .ok (.dict staged) →
      loadConfig load parseFloat configName
        (before' ++ (text' :: after').filter isDefaultOverride) = .ok (.dict staged') →
      override.Effective staged → override'.Effective staged' → override.path = override'.path →
      override.result parseFloat ≠ override'.result parseFloat → config ≠ config'

variable {load}

/-- The composition with the overrides before one of the list. -/
theorem staged_eq_ok {before rest : List String} (hsplit : overrides = before ++ rest)
    (h : composeConfig load configName (selected overrides) = .ok merged) :
    loadConfig load parseFloat configName (before ++ rest.filter isDefaultOverride) =
      .ok (.dict ((valuesOf before).foldl (applyOverride parseFloat) merged)) := by
  rw [loadConfig_eq, selected_before, ← hsplit, h, values_before]
  rfl

variable {parseFloat}

/-- An effective override is no group selection. -/
theorem Override.Effective.not_default {override : Override}
    (hread : readOverride text = some override) (h : override.Effective staged) :
    isDefaultOverride text = false := by
  rw [Bool.eq_false_iff]
  intro hdefault
  obtain ⟨group, option, hgroup⟩ := readOverride_of_default hdefault
  rw [hgroup] at hread
  cases hread
  exact h.1 rfl

/-- What stands at the path of the last override that touches it. -/
theorem select_of_effective {before after : List String} {override : Override}
    (hlast : LastNaming overrides before text after override)
    (h : loadConfig load parseFloat configName overrides = .ok (.dict config))
    (hstaged : loadConfig load parseFloat configName
      (before ++ (text :: after).filter isDefaultOverride) = .ok (.dict staged))
    (heffective : override.Effective staged) :
    select config override.path = override.result parseFloat := by
  obtain ⟨merged, hmerged, rfl⟩ := (loadConfig_eq_ok load parseFloat).mp h
  rw [staged_eq_ok parseFloat hlast.split hmerged] at hstaged
  have hvalue := heffective.not_default hlast.read
  have hrest : Untouched (valuesOf after) override.path :=
    fun other hother o ho hcomparable =>
      hlast.later other (List.mem_of_mem_filter hother) o ho hcomparable.symm
  have hvalues : valuesOf overrides = valuesOf before ++ text :: valuesOf after := by
    rw [hlast.split, valuesOf, List.filter_append, List.filter_cons_of_pos (by simp [hvalue])]
    rfl
  injection hstaged with hstaged
  injection hstaged with hstaged
  rw [hvalues, List.foldl_append, List.foldl_cons, select_foldl_of_untouched _ _ hrest, hstaged]
  exact select_applyOverride_self parseFloat staged hlast.read heffective

/-- Only names that are no groups are selected: the composition is that of no selection. -/
theorem composeConfig_of_no_group
    (h : ∀ text ∈ overrides, ∀ group option, readOverride text = some (.assign [group] option) →
      ∀ name primary, configName = some name → load name = .ok primary →
        ¬ IsGroup primary.dict group) :
    composeConfig load configName (selected overrides) =
      composeConfig load configName (selected []) := by
  cases configName with
  | none => rfl
  | some name =>
    rw [composeConfig_some, composeConfig_some]
    cases hload : load name with
    | error e => rfl
    | ok primary =>
      have hdefaults : applyDefaultOverrides (defaultsOf primary.dict) (selected overrides) =
          applyDefaultOverrides (defaultsOf primary.dict) (selected []) := by
        apply applyDefaultOverrides_of_no_group
        intro entries hentries group hgroup
        cases hget : (selected overrides).get? group with
        | none => rfl
        | some option =>
          obtain ⟨text, htext, hread⟩ := override_of_selected hget
          exact absurd ⟨entries, hentries, hgroup⟩
            (h text htext group option hread name primary rfl hload)
      rw [ok_bind, ok_bind, hdefaults]

end Loading

/-! ## A directory -/

/-- A primary config with a group of models, whose options go to the root, and an optional group
    with one option. -/
def sampleLoad : String → Except String (LoadedConfig Nat)
  | "config" => .ok
    { dict := [("defaults", .list
        [.dict [("model", .string "small")],
         .dict [("optional", .bool true), ("tuning", .string "off")]]),
        ("opt", .dict [("lr", .int 1)])]
      package := none
      distinct := rfl }
  | "model/small" => .ok ⟨[("layers", .int 2)], some "_global_", rfl⟩
  | "model/big" => .ok ⟨[("layers", .int 8)], some "_global_", rfl⟩
  | "tuning/off" => .ok ⟨[], none, rfl⟩
  | name => .error name

/-- The tree of the directory with so many layers and this learning rate. -/
def sampleTree (layers lr : Int) : ConfigDict Nat :=
  [("layers", .int layers), ("tuning", .dict []), ("opt", .dict [("lr", .int lr)])]

theorem parse_two : parseOverrideValue (fun _ => (none : Option Nat)) "2".toList = .int 2 := by
  have htrim : Blut.Types.trim "2".toList = ['2'] := by decide +kernel
  have hint : parseI64 ['2'] = some 2 := by decide +kernel
  rw [parseOverrideValue, htrim, hint]
  rfl

/-- Assigning 2 to a dotted path of a configuration. -/
theorem applyOverride_two {path : List String} (h : readOverride text = some (.assign path "2"))
    (config : ConfigDict Nat) :
    applyOverride (fun _ => none) config text = setAtPath (.int 2) false config path := by
  unfold applyOverride
  rw [h]
  exact congrArg (fun value => setAtPath value false config path) parse_two

end Blut.Config
