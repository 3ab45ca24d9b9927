/-
  The model registry (`model_registry.rs`).

  Three tables: registered checkpoints by hash, pointers `(tenant, name, alias)`, and the history
  of every move of a pointer. A call reads and writes in several atomic steps: `register` looks a
  checkpoint up and then inserts it, `promote` checks the checkpoint and then moves the pointer in
  one transaction, `rollback` is one transaction. The database itself does not fail. Error values
  carry what the messages of the source render.
-/
import Blut.Lib.Interleaving
import Blut.Types.Tenant

namespace Blut.Registry

open Blut.Lib.Interleaving Blut.Types

/-! ## Tables -/

structure ModelReg where
  modelHash : String
  name : String
  tenant : String
  source : Option String
  createdAt : Int
  deriving DecidableEq

structure Pointer where
  tenant : String
  name : String
  aliasName : String
  deriving DecidableEq

structure PointerRow where
  pointer : Pointer
  modelHash : String
  updatedAt : Int
  deriving DecidableEq

structure HistoryRow where
  pointer : Pointer
  modelHash : String
  movedAt : Int
  deriving DecidableEq

/-- `modelHash` is the key of `models`, `pointer` that of `pointers`; `history` is in the order of
    its sequence numbers. -/
structure Db where
  models : List ModelReg
  pointers : List PointerRow
  history : List HistoryRow
  deriving DecidableEq

def Db.empty : Db := ⟨[], [], []⟩

def getModel (db : Db) (hash : String) : Option ModelReg :=
  db.models.find? fun m => m.modelHash = hash

def resolvePointer (db : Db) (p : Pointer) : Option String :=
  (db.pointers.find? fun row => row.pointer = p).map PointerRow.modelHash

/-- The moves of one pointer, oldest first. -/
def history (db : Db) (p : Pointer) : List HistoryRow :=
  db.history.filter fun row => row.pointer = p

/-- `INSERT .. ON CONFLICT .. DO UPDATE`. -/
def upsertPointer (row : PointerRow) : List PointerRow → List PointerRow
  | [] => [row]
  | other :: rows =>
    if other.pointer = row.pointer then row :: rows else other :: upsertPointer row rows

/-- `UPDATE`: only a row that is there. -/
def updatePointer (row : PointerRow) (rows : List PointerRow) : List PointerRow :=
  rows.map fun other => if other.pointer = row.pointer then row else other

/-! ## Calls -/

inductive GateVerdict where
  | pass
  | fail (why : String)
  | notConfigured
  deriving DecidableEq

inductive RegistryError where
  | invalidTenant (tenant : String)
  | notAHash (hash : String)
  | unsafeName (name : String)
  | otherTenant (hash existing tenant : String)
  | otherName (hash existing name : String)
  | otherIdentity (hash : String)
  | gateFailed (aliasName why : String)
  | gateMissing (aliasName : String)
  | unsafeAlias (aliasName : String)
  | noModel (hash : String)
  | crossTenant (existing tenant : String)
  | wrongModel (hash existing name : String)
  | noPriorTarget (name aliasName : String)
  | foreignTarget (hash tenant name : String)
  deriving DecidableEq

inductive Call where
  | register (hash name tenant : String) (source : Option String) (now : Int)
  | promote (hash : String) (pointer : Pointer) (now : Int)
  | promoteGoverned (hash : String) (pointer : Pointer) (governed : List String)
      (verdict : Option GateVerdict) (now : Int)
  | rollback (pointer : Pointer) (now : Int)
  deriving DecidableEq

/-- The next atomic step of a call. -/
inductive Phase where
  | enter
  /-- `register` has found no row and inserts one. -/
  | insert
  /-- The insertion of `register` hit a row that came in between. -/
  | recheck
  /-- `promote` has checked the checkpoint and moves the pointer. -/
  | move
  deriving DecidableEq

/-- `rollback` returns the hash it went back to. -/
abbrev Result := Except RegistryError (Option String)

def isModelHash (s : String) : Bool :=
  s.utf8ByteSize == 64 && s.toList.all fun c => c.isDigit || ('a' ≤ c && c ≤ 'f')

def isSafeIdent (s : String) : Bool :=
  !s.toList.isEmpty && s.toList.all fun c => c.isAlphanum || c == '_' || c == '.' || c == '-'

def checkTenant (tenant : String) : Except RegistryError Unit :=
  if (Tenant.parse tenant).isNone then .error (.invalidTenant tenant) else .ok ()

def defaultGovernedAliases : List String := ["prod"]

def isGoverned (aliasName : String) (governed : List String) : Bool := governed.contains aliasName

/-! ## Registering -/

/-- The checks and the first look-up: the row that is there decides, or there is none. -/
def registerEnter (hash name tenant : String) (db : Db) : Status Phase Result :=
  match checkTenant tenant with
  | .error e => .done (.error e)
  | .ok () =>
    if !isModelHash hash then .done (.error (.notAHash hash))
    else if !isSafeIdent name then .done (.error (.unsafeName name))
    else
      match getModel db hash with
      | some existing =>
        if existing.tenant ≠ tenant then .done (.error (.otherTenant hash existing.tenant tenant))
        else if existing.name ≠ name then .done (.error (.otherName hash existing.name name))
        else .done (.ok none)
      | none => .running .insert

/-- `INSERT`, refused when the key is taken by now. -/
def registerInsert (row : ModelReg) (db : Db) : Db × Status Phase Result :=
  match getModel db row.modelHash with
  | none => ({ db with models := db.models ++ [row] }, .done (.ok none))
  | some _ => (db, .running .recheck)

def registerRecheck (hash name tenant : String) (db : Db) : Status Phase Result :=
  match getModel db hash with
  | some m =>
    if m.tenant = tenant ∧ m.name = name then .done (.ok none)
    else .done (.error (.otherIdentity hash))
  | none => .done (.error (.otherIdentity hash))

/-! ## Promoting -/

/-- A governed alias needs a passing verdict. -/
def checkGate (aliasName : String) (governed : List String) (verdict : Option GateVerdict) :
    Except RegistryError Unit :=
  if isGoverned aliasName governed then
    match verdict with
    | some .pass => .ok ()
    | some (.fail why) => .error (.gateFailed aliasName why)
    | some .notConfigured => .error (.gateMissing aliasName)
    | none => .error (.gateMissing aliasName)
  else .ok ()

/-- The part of `promote_unchecked` before its transaction. -/
def checkPromotion (hash : String) (p : Pointer) (db : Db) : Except RegistryError Unit := do
  checkTenant p.tenant
  if !isSafeIdent p.aliasName then .error (.unsafeAlias p.aliasName)
  else
    match getModel db hash with
    | none => .error (.noModel hash)
    | some m =>
      if m.tenant ≠ p.tenant then .error (.crossTenant m.tenant p.tenant)
      else if m.name ≠ p.name then .error (.wrongModel hash m.name p.name)
      else .ok ()

def promoteEnter (hash : String) (p : Pointer) (governed : List String)
    (verdict : Option GateVerdict) (db : Db) : Status Phase Result :=
  match checkGate p.aliasName governed verdict with
  | .error e => .done (.error e)
  | .ok () =>
    match checkPromotion hash p db with
    | .error e => .done (.error e)
    | .ok () => .running .move

/-- The transaction of a promotion. -/
def movePointer (hash : String) (p : Pointer) (now : Int) (db : Db) : Db :=
  { db with
    pointers := upsertPointer ⟨p, hash, now⟩ db.pointers
    history := db.history ++ [⟨p, hash, now⟩] }

/-! ## Rolling back -/

/-- The target before the newest one. -/
def priorTarget (db : Db) (p : Pointer) : Option String :=
  match (history db p).reverse.take 2 with
  | [_, prev] => some prev.modelHash
  | _ => none

def rollbackPointer (p : Pointer) (now : Int) (db : Db) : Db × Result :=
  match priorTarget db p with
  | none => (db, .error (.noPriorTarget p.name p.aliasName))
  | some prev =>
    match getModel db prev with
    | some m =>
      if m.tenant = p.tenant ∧ m.name = p.name then
        ({ db with
            pointers := updatePointer ⟨p, prev, now⟩ db.pointers
            history := db.history ++ [⟨p, prev, now⟩] }, .ok (some prev))
      else (db, .error (.foreignTarget prev p.tenant p.name))
    | none => (db, .error (.foreignTarget prev p.tenant p.name))

/-! ## Steps -/

/-- The steps of both ways to promote. -/
def promoteStep (hash : String) (p : Pointer) (governed : List String)
    (verdict : Option GateVerdict) (now : Int) (phase : Phase) (db : Db) :
    Db × Status Phase Result :=
  match phase with
  | .move => (movePointer hash p now db, .done (.ok none))
  | _ => (db, promoteEnter hash p governed verdict db)

def step (call : Call) (phase : Phase) (db : Db) : Db × Status Phase Result :=
  match call with
  | .register hash name tenant source now =>
    match phase with
    | .insert => registerInsert ⟨hash, name, tenant, source, now⟩ db
    | .recheck => (db, registerRecheck hash name tenant db)
    | _ => (db, registerEnter hash name tenant db)
  | .promote hash p now => promoteStep hash p defaultGovernedAliases none now phase db
  | .promoteGoverned hash p governed verdict now => promoteStep hash p governed verdict now phase db
  | .rollback p now =>
    let (db, result) := rollbackPointer p now db
    (db, .done result)

def registryCode : Code Db Call Phase Result where
  first := fun _ => .enter
  step := step

/-- The registry after calls from an empty database, in any interleaving. -/
def run (events : List (Event Call)) : System Db Call Phase Result :=
  (System.idle .empty).after registryCode events

end Blut.Registry
