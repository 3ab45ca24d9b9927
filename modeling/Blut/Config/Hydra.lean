/-
  Composing a configuration (`config/hydra.rs`).

  Reading a file is a parameter: `load` answers a config path with the mapping of the file and its
  `@package` directive, or with the error of reading it. Reading a float is one too.

  `loadConfig` splits the overrides: a key without a dot selects an option of a config group, all
  others change the composed tree one after the other. Nothing is an error here but a file that is
  needed and cannot be read.
-/
import Blut.Config.Value
import Blut.Lib.BTreeMap
import Blut.Types.Tenant

namespace Blut.Config

open Blut.Lib
open Blut.Types (trim)

/-! ## Overrides -/

/-- The segments of a dotted path. -/
def pathOf (key : List Char) : List String := (key.splitOn '.').map String.ofList

/-- An override as `apply_override` reads it: `~path`, `+path=value` or `path=value`. -/
inductive Override where
  | delete (path : List String)
  | add (path : List String) (value : String)
  | assign (path : List String) (value : String)
  deriving DecidableEq, Repr

def Override.path : Override → List String
  | .delete path => path
  | .add path _ => path
  | .assign path _ => path

/-- The text before the first `=` and the text after it. -/
def splitAssignment (text : List Char) : Option (List Char × List Char) :=
  match text.dropWhile (· != '=') with
  | [] => none
  | _ :: value => some (text.takeWhile (· != '='), value)

def readOverride (text : String) : Option Override :=
  match text.toList with
  | '~' :: rest => some (.delete (pathOf (rest.takeWhile (· != '='))))
  | chars =>
    match splitAssignment chars with
    | none => none
    | some ('+' :: key, value) => some (.add (pathOf key) (String.ofList value))
    | some (key, value) => some (.assign (pathOf key) (String.ofList value))

/-- `is_default_override`. -/
def isDefaultOverride (text : String) : Bool :=
  match splitAssignment text.toList with
  | none => false
  | some (key, _) => !key.contains '.' && key.head? != some '+' && key.head? != some '~'

/-- `build_default_override_map`: the last selection of a group counts. -/
def buildDefaultOverrideMap (overrides : List String) : BTreeMap String String :=
  BTreeMap.ofList (overrides.filterMap fun text =>
    (splitAssignment text.toList).map fun pair => (String.ofList pair.1, String.ofList pair.2))

/-! ## Values -/

variable {F : Type}

/-- `str::parse::<i64>`. -/
def parseI64 (text : List Char) : Option Int :=
  let signed : Bool × List Char :=
    match text with
    | '-' :: digits => (true, digits)
    | '+' :: digits => (false, digits)
    | digits => (false, digits)
  let magnitude : Int := signed.2.foldl (fun n c => 10 * n + (c.toNat - '0'.toNat : Nat)) 0
  let value := if signed.1 then -magnitude else magnitude
  if signed.2 ≠ [] ∧ signed.2.all Char.isDigit ∧ -2 ^ 63 ≤ value ∧ value < 2 ^ 63 then some value
  else none

/-- A `$` and an opening brace, and a closing one somewhere after the first such pair. -/
def isInterpolationLiteral : List Char → Bool
  | [] => false
  | '$' :: '{' :: rest => rest.contains '}'
  | _ :: rest => isInterpolationLiteral rest

/-- `ConfigValue::from` on text. -/
def ConfigValue.ofText (text : List Char) : ConfigValue F :=
  if isInterpolationLiteral text then .interpolation (String.ofList text)
  else .string (String.ofList text)

/-- One layer of single (39) or double (34) quotes. -/
def stripMatchingQuotes (text : List Char) : List Char :=
  match text with
  | [] => []
  | quote :: rest =>
    if (quote = Char.ofNat 34 ∨ quote = Char.ofNat 39) ∧ rest.getLast? = some quote then
      rest.dropLast
    else text

/-- What stands between brackets. -/
def bracketed (text : List Char) : Option (List Char) :=
  match text with
  | '[' :: rest => if rest.getLast? = some ']' then some rest.dropLast else none
  | _ => none

theorem length_trim_le (text : List Char) : (trim text).length ≤ text.length := by
  have hleft := (List.dropWhile_sublist (l := text) Blut.Types.isWhitespace).length_le
  have hright := (List.dropWhile_sublist (l := (text.dropWhile Blut.Types.isWhitespace).reverse)
    Blut.Types.isWhitespace).length_le
  simp only [trim, List.length_reverse] at *
  omega

theorem length_bracketed_lt {text inner : List Char} (h : bracketed text = some inner) :
    inner.length < text.length := by
  unfold bracketed at h
  split at h
  · split at h
    · rw [← Option.some.inj h, List.length_dropLast, List.length_cons]
      omega
    · cases h
  · cases h

theorem length_splitOn_le {text item : List Char} {c : Char} (h : item ∈ text.splitOn c) :
    item.length ≤ text.length := by
  induction text generalizing item with
  | nil => simp_all
  | cons first rest ih =>
    rw [List.splitOn_cons_eq_if_modifyHead] at h
    obtain ⟨head, tail, hsplit⟩ := List.exists_cons_of_ne_nil (List.splitOn_ne_nil c rest)
    rw [hsplit] at h ih
    split at h
    · rcases List.mem_cons.mp h with rfl | h
      · simp
      · exact (ih h).trans (Nat.le_succ _)
    · rcases List.mem_cons.mp h with rfl | h
      · simpa using ih List.mem_cons_self
      · exact (ih (List.mem_cons_of_mem _ h)).trans (Nat.le_succ _)

/-- `parse_override_value`. A float needs a digit; a list is split at every comma. -/
def parseOverrideValue (parseFloat : String → Option F) (text : List Char) : ConfigValue F :=
  let trimmed := trim text
  if trimmed = "true".toList then .bool true
  else if trimmed = "false".toList then .bool false
  else if trimmed = "null".toList ∨ trimmed = "~".toList then .null
  else if trimmed = "???".toList then .missing
  else
    match parseI64 trimmed with
    | some i => .int i
    | none =>
      match if trimmed.any Char.isDigit then parseFloat (String.ofList trimmed) else none with
      | some f => .float f
      | none =>
        match _hinner : bracketed trimmed with
        | some inner =>
          if (trim inner).isEmpty then .list []
          else .list ((inner.splitOn ',').attach.map fun item =>
            parseOverrideValue parseFloat (trim item.1))
        | none => ConfigValue.ofText (stripMatchingQuotes trimmed)
termination_by text.length
decreasing_by
  have hitem := length_splitOn_le item.2
  have hbracket := length_bracketed_lt _hinner
  have houter : trimmed.length ≤ text.length := length_trim_le text
  have htrim := length_trim_le item.1
  omega

/-- `apply_override`. -/
def applyOverride (parseFloat : String → Option F) (config : ConfigDict F) (text : String) :
    ConfigDict F :=
  match readOverride text with
  | none => config
  | some (.delete path) => deleteAtPath config path
  | some (.add path value) =>
    setAtPath (parseOverrideValue parseFloat value.toList) true config path
  | some (.assign path value) =>
    setAtPath (parseOverrideValue parseFloat value.toList) false config path

/-! ## The defaults list -/

/-- A file as read: its mapping, and the `package` directive of its header. -/
structure LoadedConfig (F : Type) where
  dict : ConfigDict F
  package : Option String
  distinct : distinctKeys dict = true

/-- `apply_default_overrides` on one entry: a mapping is rebuilt with the selected options. -/
def overrideEntry (selected : BTreeMap String String) : ConfigValue F → ConfigValue F
  | .dict entries =>
    .dict (entries.foldl (fun rebuilt entry =>
      ConfigDict.insert entry.1
        (match selected.get? entry.1 with
        | some option => .string option
        | none => entry.2) rebuilt) [])
  | other => other

def applyDefaultOverrides (defaults : List (ConfigValue F)) (selected : BTreeMap String String) :
    List (ConfigValue F) :=
  defaults.map (overrideEntry selected)

/-- `merge_at_path`: what is in the way and no mapping ends the walk. -/
def mergeAtPath (target source : ConfigDict F) : List String → ConfigDict F
  | [] => merge target source
  | key :: rest =>
    match target.get key with
    | none => target.insert key (.dict (mergeAtPath [] source rest))
    | some (.dict nested) => target.insert key (.dict (mergeAtPath nested source rest))
    | some _ => target

def mergeAtPackage (target source : ConfigDict F) (package : String) : ConfigDict F :=
  if package = "_global_" ∨ package = "" then merge target source
  else mergeAtPath target source (pathOf package.toList)

/-- What an entry of the defaults list asks for. -/
inductive Selection where
  | config (name : String)
  | group (name option : String) (isOptional : Bool)
  deriving DecidableEq, Repr

def isOptional (entries : ConfigDict F) : Bool :=
  match entries.get "optional" with
  | some (.bool b) => b
  | _ => false

/-- The requests of one entry, in order: a bare name, or a pair for every group that has an
    option. -/
def selections : ConfigValue F → List Selection
  | .string name => if name = "_self_" then [] else [.config name]
  | .dict entries => entries.filterMap fun entry =>
    if entry.1 = "optional" then none
    else
      match entry.2 with
      | .string option => some (.group entry.1 option (isOptional entries))
      | _ => none
  | _ => []

/-- The path of the file a request names. -/
def Selection.file : Selection → String
  | .config name => name
  | .group g option _ => g ++ "/" ++ option

section Loading

variable {ε : Type} (load : String → Except ε (LoadedConfig F)) (parseFloat : String → Option F)

/-- One request: a file of an optional group that does not load is skipped. -/
def composeSelection (merged : ConfigDict F) (selection : Selection) : Except ε (ConfigDict F) :=
  match selection, load selection.file with
  | .config _, .ok cfg => .ok (merge merged cfg.dict)
  | .config _, .error e => .error e
  | .group g _ _, .ok cfg => .ok (mergeAtPackage merged cfg.dict (cfg.package.getD g))
  | .group _ _ isOptional, .error e => if isOptional then .ok merged else .error e

def processDefaults (defaults : List (ConfigValue F)) (merged : ConfigDict F) :
    Except ε (ConfigDict F) :=
  (defaults.flatMap selections).foldlM (composeSelection load) merged

/-! ## Loading -/

/-- The entries under `defaults`, when it is a list. -/
def defaultsOf (primary : ConfigDict F) : List (ConfigValue F) :=
  match primary.get "defaults" with
  | some (.list defaults) => defaults
  | _ => []

/-- The files of the defaults list with the selected options, then the body of the primary file. -/
def composeConfig (configName : Option String) (selected : BTreeMap String String) :
    Except ε (ConfigDict F) :=
  match configName with
  | none => .ok []
  | some name => do
    let primary ← load name
    let merged ← processDefaults load (applyDefaultOverrides (defaultsOf primary.dict) selected) []
    return merge merged (primary.dict.filter fun entry => entry.1 ≠ "defaults")

def loadConfig (configName : Option String) (overrides : List String) :
    Except ε (ConfigValue F) := do
  let merged ← composeConfig load configName
    (buildDefaultOverrideMap (overrides.filter isDefaultOverride))
  let valueOverrides := overrides.filter fun text => !isDefaultOverride text
  return .dict (valueOverrides.foldl (applyOverride parseFloat) merged)

end Loading

end Blut.Config
