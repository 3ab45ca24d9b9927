/-
  What the pointers of the model registry point at.

  Over every interleaving of calls on an empty database, pointers and their history name
  registered checkpoints of the pointer's own tenant and model, the newest move of a pointer is its
  target, and history only grows (`Sound`). That the alias `prod` is only ever moved by a passing
  verdict is not a property of the registry alone: `promote_governed` takes the list of governed
  aliases from its caller (`Vouched`).
-/
import Blut.Lib.Outcome
import Blut.Registry.Models

namespace Blut.Registry

open Blut.Lib Blut.Lib.Interleaving Blut.Types

/-! ## Tables -/

theorem resolvePointer_upsert (db : Db) (row : PointerRow) (p : Pointer) :
    resolvePointer { db with pointers := upsertPointer row db.pointers } p =
      if row.pointer = p then some row.modelHash else resolvePointer db p := by
  unfold resolvePointer
  dsimp only
  induction db.pointers with
  | nil => by_cases h : row.pointer = p <;> simp [upsertPointer, h]
  | cons other rows ih =>
    by_cases hsame : other.pointer = row.pointer
    · by_cases h : row.pointer = p <;> simp [upsertPointer, hsame, h]
    · by_cases hother : other.pointer = p
      · have hne : row.pointer ≠ p := fun h => hsame (hother.trans h.symm)
        rw [upsertPointer, if_neg hsame]
        simp [hother, hne]
      · rw [upsertPointer, if_neg hsame, List.find?_cons_of_neg (by simpa using hother), ih,
          List.find?_cons_of_neg (by simpa using hother)]

theorem resolvePointer_update (db : Db) (row : PointerRow) (p : Pointer) :
    resolvePointer { db with pointers := updatePointer row db.pointers } p =
      if row.pointer = p then (resolvePointer db p).map fun _ => row.modelHash
      else resolvePointer db p := by
  unfold resolvePointer updatePointer
  dsimp only
  induction db.pointers with
  | nil => simp
  | cons other rows ih =>
    by_cases hsame : other.pointer = row.pointer
    · by_cases h : row.pointer = p
      · simp [hsame, h]
      · simpa [hsame, h] using ih
    · by_cases hother : other.pointer = p
      · have hne : row.pointer ≠ p := fun h => hsame (hother.trans h.symm)
        simp [hother, hne, Ne.symm hne]
      · simpa [hsame, hother] using ih

/-- The hash is registered as a checkpoint of the pointer's tenant and model. -/
def Registered (db : Db) (hash : String) (p : Pointer) : Prop :=
  ∃ m, getModel db hash = some m ∧ m.tenant = p.tenant ∧ m.name = p.name

/-- The newest target of a pointer according to its history. -/
def newestTarget (db : Db) (p : Pointer) : Option String :=
  (history db p).getLast?.map HistoryRow.modelHash

theorem newestTarget_append (db : Db) (pointers : List PointerRow) (row : HistoryRow)
    (p : Pointer) :
    newestTarget { db with pointers := pointers, history := db.history ++ [row] } p =
      if row.pointer = p then some row.modelHash else newestTarget db p := by
  unfold newestTarget history
  dsimp only
  rw [List.filter_append]
  by_cases h : row.pointer = p <;> simp [h]

variable {db : Db} {p : Pointer} {hash : String} {phase : Phase} {sys : System Db Call Phase Result}
  {i : Nat} {call : Call}

theorem priorTarget_mem {prev : String} (h : priorTarget db p = some prev) :
    (∃ row ∈ db.history, row.pointer = p ∧ row.modelHash = prev) ∧
      (newestTarget db p).isSome := by
  unfold priorTarget at h
  split at h
  · next newest row htake =>
    cases h
    have hrow : row ∈ history db p := by
      refine List.mem_reverse.mp (List.mem_of_mem_take (i := 2) ?_)
      rw [htake]
      simp
    obtain ⟨hmem, hpointer⟩ := List.mem_filter.mp hrow
    refine ⟨⟨row, hmem, by simpa using hpointer, rfl⟩, ?_⟩
    have hne : history db p ≠ [] := List.ne_nil_of_mem hrow
    simp [newestTarget, List.getLast?_eq_some_getLast hne]
  · cases h

/-! ## What a step can do -/

/-- The promotion a call asks for. -/
structure Promotion where
  hash : String
  pointer : Pointer
  governed : List String
  verdict : Option GateVerdict
  now : Int

def Call.promotion : Call → Option Promotion
  | .promote hash p now => some ⟨hash, p, defaultGovernedAliases, none, now⟩
  | .promoteGoverned hash p governed verdict now => some ⟨hash, p, governed, verdict, now⟩
  | _ => none

/-- A promotion may move its pointer: the gate and the checks on the checkpoint passed. -/
def MayMove (db : Db) (call : Call) : Prop :=
  ∃ a, call.promotion = some a ∧ Registered db a.hash a.pointer ∧
    checkGate a.pointer.aliasName a.governed a.verdict = .ok ()

theorem registered_of_checkPromotion (h : checkPromotion hash p db = .ok ()) :
    Registered db hash p := by
  unfold checkPromotion at h
  obtain ⟨_, -, h⟩ := bind_eq_ok.mp h
  split_ifs at h
  split at h
  · cases h
  · next m hmodel =>
    split_ifs at h with ht hn
    exact ⟨m, hmodel, not_not.mp ht, not_not.mp hn⟩

theorem promoteEnter_running {governed : List String} {verdict : Option GateVerdict}
    (h : promoteEnter hash p governed verdict db = .running phase) :
    Registered db hash p ∧ checkGate p.aliasName governed verdict = .ok () := by
  unfold promoteEnter at h
  cases hgate : checkGate p.aliasName governed verdict with
  | error e => simp [hgate] at h
  | ok _ =>
    cases hcheck : checkPromotion hash p db with
    | error e => simp [hgate, hcheck] at h
    | ok _ => exact ⟨registered_of_checkPromotion hcheck, rfl⟩

theorem promoteStep_cases (call : Call) {a : Promotion} (hcall : call.promotion = some a)
    (phase : Phase) (db : Db) :
    (∃ status, promoteStep a.hash a.pointer a.governed a.verdict a.now phase db = (db, status) ∧
      (status = .running .move → MayMove db call)) ∨
    (phase = .move ∧ promoteStep a.hash a.pointer a.governed a.verdict a.now phase db =
      (movePointer a.hash a.pointer a.now db, .done (.ok none))) := by
  by_cases hmove : phase = .move
  · subst hmove
    exact .inr ⟨rfl, rfl⟩
  · refine .inl ⟨promoteEnter a.hash a.pointer a.governed a.verdict db, ?_, fun h => ?_⟩
    · cases phase <;> first | rfl | exact absurd rfl hmove
    · obtain ⟨hregistered, hgate⟩ := promoteEnter_running h
      exact ⟨a, hcall, hregistered, hgate⟩

/-- The database after a rollback to `prev`. -/
def rolledBack (p : Pointer) (prev : String) (now : Int) (db : Db) : Db :=
  { db with
    pointers := updatePointer ⟨p, prev, now⟩ db.pointers
    history := db.history ++ [⟨p, prev, now⟩] }

theorem rollbackPointer_cases (p : Pointer) (now : Int) (db : Db) :
    (∃ e, rollbackPointer p now db = (db, .error e)) ∨
    (∃ prev, priorTarget db p = some prev ∧ Registered db prev p ∧
      rollbackPointer p now db = (rolledBack p prev now db, .ok (some prev))) := by
  unfold rollbackPointer
  cases hprior : priorTarget db p with
  | none => exact .inl ⟨_, rfl⟩
  | some prev =>
    cases hmodel : getModel db prev with
    | none => exact .inl ⟨_, by simp only [hmodel]; rfl⟩
    | some m =>
      by_cases hm : m.tenant = p.tenant ∧ m.name = p.name
      · exact .inr ⟨prev, rfl, ⟨m, hmodel, hm⟩, by simp only [hmodel, if_pos hm]; rfl⟩
      · exact .inl ⟨_, by simp only [hmodel, if_neg hm]; rfl⟩

/-- A step leaves the database alone, adds a checkpoint under a fresh hash, moves the pointer of a
    promotion, or rolls a pointer back. -/
theorem step_cases (call : Call) (phase : Phase) (db : Db) :
    (∃ status, step call phase db = (db, status) ∧
      (status = .running .move → MayMove db call)) ∨
    (∃ row, getModel db row.modelHash = none ∧
      step call phase db = ({ db with models := db.models ++ [row] }, .done (.ok none))) ∨
    (∃ a, call.promotion = some a ∧ phase = .move ∧
      step call phase db = (movePointer a.hash a.pointer a.now db, .done (.ok none))) ∨
    (∃ p now prev, priorTarget db p = some prev ∧ Registered db prev p ∧
      step call phase db = (rolledBack p prev now db, .done (.ok (some prev)))) := by
  cases call with
  | register hash name tenant source now =>
    by_cases hinsert : phase = .insert
    · subst hinsert
      cases hmodel : getModel db hash with
      | none =>
        exact .inr (.inl ⟨⟨hash, name, tenant, source, now⟩, hmodel, by
          simp only [step, registerInsert, hmodel]⟩)
      | some m =>
        exact .inl ⟨.running .recheck, by simp only [step, registerInsert, hmodel], by simp⟩
    · refine .inl ⟨if phase = .recheck then registerRecheck hash name tenant db
        else registerEnter hash name tenant db, ?_, ?_⟩
      · cases phase <;> first | rfl | exact absurd rfl hinsert
      · intro h
        split at h
        · unfold registerRecheck at h
          split at h
          · split at h <;> cases h
          · cases h
        · unfold registerEnter at h
          split at h
          · cases h
          · split at h
            · cases h
            · split at h
              · cases h
              · split at h
                · split at h
                  · cases h
                  · split at h <;> cases h
                · cases h
  | promote hash p now =>
    obtain h | ⟨hphase, h⟩ := promoteStep_cases (.promote hash p now) rfl phase db
    · exact .inl h
    · exact .inr (.inr (.inl ⟨_, rfl, hphase, h⟩))
  | promoteGoverned hash p governed verdict now =>
    obtain h | ⟨hphase, h⟩ :=
      promoteStep_cases (.promoteGoverned hash p governed verdict now) rfl phase db
    · exact .inl h
    · exact .inr (.inr (.inl ⟨_, rfl, hphase, h⟩))
  | rollback p now =>
    obtain ⟨e, h⟩ | ⟨prev, hprior, hregistered, h⟩ := rollbackPointer_cases p now db
    · exact .inl ⟨.done (.error e), by simp only [step, h], by simp⟩
    · exact .inr (.inr (.inr ⟨p, now, prev, hprior, hregistered, by simp only [step, h]⟩))

/-! ## Soundness along every run -/

variable {calls : List (Call × Status Phase Result)}

theorem Registered.insert (h : Registered db hash p) (row : ModelReg) :
    Registered { db with models := db.models ++ [row] } hash p := by
  obtain ⟨m, hmodel, hm⟩ := h
  refine ⟨m, ?_, hm⟩
  unfold getModel at hmodel ⊢
  rw [List.find?_append, hmodel]
  rfl

/-- The history names registered checkpoints, and the newest move of a pointer is its target. -/
structure Db.Sound (db : Db) : Prop where
  recorded : ∀ row ∈ db.history, Registered db row.modelHash row.pointer
  newest : ∀ p, resolvePointer db p = newestTarget db p

theorem Db.Sound.insert (h : db.Sound) (row : ModelReg) :
    Db.Sound { db with models := db.models ++ [row] } :=
  ⟨fun r hr => (h.recorded r hr).insert row, h.newest⟩

/-- A pointer is moved and the move is recorded. -/
theorem Db.Sound.record (h : db.Sound) (row : HistoryRow) {pointers : List PointerRow}
    (hregistered : Registered db row.modelHash row.pointer)
    (hpointers : ∀ q, resolvePointer { db with pointers := pointers } q =
      if row.pointer = q then some row.modelHash else resolvePointer db q) :
    Db.Sound { db with pointers := pointers, history := db.history ++ [row] } where
  recorded r hr := by
    rcases List.mem_append.mp hr with hmem | hmem
    · exact h.recorded r hmem
    · rw [List.mem_singleton.mp hmem]
      exact hregistered
  newest q := by
    rw [newestTarget_append, ← h.newest q]
    exact hpointers q

theorem Db.Sound.movePointer (h : db.Sound) (now : Int) (hregistered : Registered db hash p) :
    Db.Sound (movePointer hash p now db) :=
  h.record ⟨p, hash, now⟩ hregistered (resolvePointer_upsert db ⟨p, hash, now⟩)

theorem Db.Sound.rolledBack (h : db.Sound) {prev : String} (now : Int)
    (hprior : priorTarget db p = some prev) (hregistered : Registered db prev p) :
    Db.Sound (rolledBack p prev now db) := by
  refine h.record ⟨p, prev, now⟩ hregistered fun q => ?_
  refine (resolvePointer_update db ⟨p, prev, now⟩ q).trans ?_
  -- there are two moves, so there is a row to update
  obtain ⟨-, hsome⟩ := priorTarget_mem hprior
  by_cases hq : p = q
  · subst hq
    obtain ⟨target, htarget⟩ := Option.isSome_iff_exists.mp hsome
    simp [h.newest p, htarget]
  · simp [hq]

/-- The database is sound, and a promotion that is about to move its pointer may. -/
structure Sound (sys : System Db Call Phase Result) : Prop where
  db : sys.state.Sound
  pending : ∀ call, (call, Status.running Phase.move) ∈ sys.calls → MayMove sys.state call

theorem Sound.start (h : Sound sys) (call : Call) :
    Sound ⟨sys.state, sys.calls ++ [(call, .running .enter)]⟩ where
  db := h.db
  pending other hother := by
    rcases List.mem_append.mp hother with hmem | hmem
    · exact h.pending other hmem
    · simp at hmem

/-- What is pending after a step was pending before, or is the call that took the step. -/
theorem pending_set {other : Call} {status : Status Phase Result}
    (h : (other, Status.running Phase.move) ∈ calls.set i (call, status)) :
    (other, Status.running Phase.move) ∈ calls ∨ (other = call ∧ status = .running .move) := by
  rcases List.mem_or_eq_of_mem_set h with hmem | heq
  · exact .inl hmem
  · exact .inr ⟨congrArg Prod.fst heq, (congrArg Prod.snd heq).symm⟩

/-- A call finishes and whatever was registered still is. -/
theorem Sound.finish (h : Sound sys) (hdb : db.Sound)
    (hkept : ∀ hash p, Registered sys.state hash p → Registered db hash p) (i : Nat) (call : Call)
    (result : Result) : Sound ⟨db, sys.calls.set i (call, .done result)⟩ where
  db := hdb
  pending other hother := by
    rcases pending_set hother with hmem | ⟨-, hstatus⟩
    · obtain ⟨a, ha, hregistered, hgate⟩ := h.pending other hmem
      exact ⟨a, ha, hkept _ _ hregistered, hgate⟩
    · cases hstatus

theorem Sound.step (h : Sound sys) (hcall : sys.calls[i]? = some (call, .running phase)) :
    Sound ⟨(Registry.step call phase sys.state).1,
      sys.calls.set i (call, (Registry.step call phase sys.state).2)⟩ := by
  obtain ⟨status, heq, hmay⟩ | ⟨row, -, heq⟩ | ⟨a, ha, rfl, heq⟩ |
    ⟨p, now, prev, hprior, hregistered, heq⟩ := step_cases call phase sys.state <;> rw [heq]
  · refine ⟨h.db, fun other hother => ?_⟩
    rcases pending_set hother with hmem | ⟨rfl, hstatus⟩
    · exact h.pending other hmem
    · exact hmay hstatus
  · exact h.finish (h.db.insert row) (fun _ _ hregistered => hregistered.insert row) i call _
  · obtain ⟨a', ha', hregistered, -⟩ := h.pending call (List.mem_of_getElem? hcall)
    rw [ha] at ha'
    cases ha'
    exact h.finish (h.db.movePointer a.now hregistered) (fun _ _ hkept => hkept) i call _
  · exact h.finish (h.db.rolledBack now hprior hregistered) (fun _ _ hkept => hkept) i call _

theorem sound_run (events : List (Event Call)) : Sound (run events) := by
  refine System.after_induction registryCode Sound (fun _ => True)
    (fun sys call _ h => h.start call) (fun sys i call phase hcall h => h.step hcall)
    (fun _ _ => trivial) ?_
  exact ⟨⟨by simp [System.idle, Db.empty], fun _ => rfl⟩, by simp [System.idle]⟩

/-! ## History and failures -/

theorem history_step (call : Call) (phase : Phase) (db : Db) :
    db.history <+: (step call phase db).1.history := by
  obtain ⟨status, heq, -⟩ | ⟨row, -, heq⟩ | ⟨a, -, -, heq⟩ | ⟨p, now, prev, -, -, heq⟩ :=
    step_cases call phase db <;> rw [heq]
  · exact List.prefix_append _ _
  · exact List.prefix_append _ _

theorem history_after (sys : System Db Call Phase Result) (events : List (Event Call)) :
    sys.state.history <+: (sys.after registryCode events).state.history := by
  refine System.after_induction registryCode
    (fun later => sys.state.history <+: later.state.history)
    (fun _ => True) (fun later call _ h => h)
    (fun later i call phase _ h => h.trans (history_step call phase later.state))
    (fun _ _ => trivial) (List.prefix_refl _)

def Failed : Result → Prop
  | .ok _ => False
  | .error _ => True

theorem step_quiet (call : Call) (phase : Phase) (db : Db)
    (h : ∀ result, (step call phase db).2 = .done result → Failed result) :
    (step call phase db).1 = db := by
  obtain ⟨status, heq, -⟩ | ⟨row, -, heq⟩ | ⟨a, -, -, heq⟩ | ⟨p, now, prev, -, -, heq⟩ :=
    step_cases call phase db <;> rw [heq] at h ⊢
  · exact (h _ rfl).elim
  · exact (h _ rfl).elim
  · exact (h _ rfl).elim

/-! ## Vetted targets -/

/-- Some call promoted the hash onto the pointer with a passing verdict. -/
def Vetted (calls : List (Call × Status Phase Result)) (hash : String) (p : Pointer) : Prop :=
  ∃ governed now,
    (Call.promoteGoverned hash p governed (some .pass) now, Status.done (.ok none)) ∈ calls

/-- A promotion onto `prod` with a list of its own has `prod` on it, or a passing verdict. -/
def Vouched : Call → Prop
  | .promoteGoverned _ p governed verdict _ =>
    p.aliasName = "prod" → "prod" ∈ governed ∨ verdict = some .pass
  | _ => True

/-- A promotion that clears the gate onto `prod` has a passing verdict. -/
theorem Vouched.pass (hvouched : Vouched call) {a : Promotion} (ha : call.promotion = some a)
    (hgate : checkGate a.pointer.aliasName a.governed a.verdict = .ok ())
    (hprod : a.pointer.aliasName = "prod") :
    call = .promoteGoverned a.hash a.pointer a.governed (some .pass) a.now := by
  have hpass (hmem : "prod" ∈ a.governed) : a.verdict = some .pass := by
    unfold checkGate isGoverned at hgate
    rw [hprod, if_pos (by simpa using hmem)] at hgate
    split at hgate
    · assumption
    all_goals cases hgate
  cases call with
  | promote hash p now =>
    cases ha
    exact absurd (hpass (by simp [defaultGovernedAliases])) (by simp)
  | promoteGoverned hash p governed verdict now =>
    cases ha
    rcases hvouched hprod with hmem | hverdict
    · rw [show verdict = some .pass from hpass hmem]
    · rw [hverdict]
  | register => cases ha
  | rollback => cases ha

structure Vouching (sys : System Db Call Phase Result) : Prop where
  sound : Sound sys
  calls : ∀ entry ∈ sys.calls, Vouched entry.1
  vetted : ∀ row ∈ sys.state.history, row.pointer.aliasName = "prod" →
    Vetted sys.calls row.modelHash row.pointer

theorem Vetted.set (h : Vetted calls hash p) (hcall : calls[i]? = some (call, .running phase))
    (status : Status Phase Result) :
    Vetted (calls.set i (call, status)) hash p := by
  obtain ⟨governed, now, hmem⟩ := h
  exact ⟨governed, now, mem_set_of_done hcall hmem⟩

theorem Vouching.start (h : Vouching sys) (hcall : Vouched call) :
    Vouching ⟨sys.state, sys.calls ++ [(call, .running .enter)]⟩ where
  sound := h.sound.start call
  calls entry hentry := by
    rcases List.mem_append.mp hentry with hmem | hmem
    · exact h.calls entry hmem
    · rw [List.mem_singleton.mp hmem]
      exact hcall
  vetted row hrow hprod := by
    obtain ⟨governed, now, hmem⟩ := h.vetted row hrow hprod
    exact ⟨governed, now, List.mem_append_left _ hmem⟩

theorem Vouching.step (h : Vouching sys) (hcall : sys.calls[i]? = some (call, .running phase)) :
    Vouching ⟨(Registry.step call phase sys.state).1,
      sys.calls.set i (call, (Registry.step call phase sys.state).2)⟩ where
  sound := h.sound.step hcall
  calls entry hentry := by
    rcases List.mem_or_eq_of_mem_set hentry with hmem | rfl
    · exact h.calls entry hmem
    · exact h.calls (call, .running phase) (List.mem_of_getElem? hcall)
  vetted := by
    obtain ⟨status, heq, -⟩ | ⟨row, -, heq⟩ | ⟨a, ha, rfl, heq⟩ | ⟨p, now, prev, hprior, -, heq⟩ :=
      step_cases call phase sys.state <;> rw [heq] <;> intro r hr hprod
    · exact (h.vetted r hr hprod).set hcall _
    · exact (h.vetted r hr hprod).set hcall _
    · rcases List.mem_append.mp hr with hmem | hmem
      · exact (h.vetted r hmem hprod).set hcall _
      · rw [List.mem_singleton.mp hmem] at hprod ⊢
        obtain ⟨a', ha', -, hgate⟩ := h.sound.pending call (List.mem_of_getElem? hcall)
        rw [ha] at ha'
        cases ha'
        have hvouched : Vouched call := h.calls _ (List.mem_of_getElem? hcall)
        have hpass := hvouched.pass ha hgate hprod
        have hlt : i < sys.calls.length := (List.getElem?_eq_some_iff.mp hcall).1
        refine ⟨a.governed, a.now, ?_⟩
        show (Call.promoteGoverned a.hash a.pointer a.governed (some .pass) a.now, _) ∈ _
        rw [← hpass]
        exact List.mem_set hlt _
    · rcases List.mem_append.mp hr with hmem | hmem
      · exact (h.vetted r hmem hprod).set hcall _
      · -- the target of a rollback was a target before
        rw [List.mem_singleton.mp hmem] at hprod ⊢
        obtain ⟨⟨old, hold, rfl, rfl⟩, -⟩ := priorTarget_mem hprior
        exact (h.vetted old hold hprod).set hcall _

theorem vouching_run {events : List (Event Call)}
    (hevents : ∀ call, Event.start call ∈ events → Vouched call) : Vouching (run events) := by
  refine System.after_induction registryCode Vouching Vouched
    (fun sys call hcall h => h.start hcall) (fun sys i call phase hcall h => h.step hcall)
    hevents ⟨sound_run [], ?_, ?_⟩
  · simp [System.idle]
  · simp [System.idle, Db.empty]

theorem exists_row_of_newestTarget (h : newestTarget db p = some hash) :
    ∃ row ∈ db.history, row.pointer = p ∧ row.modelHash = hash := by
  obtain ⟨row, hlast, hhash⟩ := Option.map_eq_some_iff.mp h
  obtain ⟨hmem, hpointer⟩ := List.mem_filter.mp (List.mem_of_getLast? hlast)
  exact ⟨row, hmem, by simpa using hpointer, hhash⟩

/-- What the registry holds after any interleaving of calls on an empty database. -/
structure RegistrySound (events : List (Event Call)) : Prop where
  target : ∀ p hash, resolvePointer (run events).state p = some hash →
    Registered (run events).state hash p
  recorded : ∀ row ∈ (run events).state.history,
    Registered (run events).state row.modelHash row.pointer
  newest : ∀ p, resolvePointer (run events).state p = newestTarget (run events).state p
  appendOnly : ∀ later, (run events).state.history <+: (run (events ++ later)).state.history
  failure : ∀ before later i call e, events = before ++ .advance i :: later →
    (run events).calls[i]? = some (call, .done (.error e)) →
      (run (before ++ [.advance i])).state = (run before).state

theorem registrySound (events : List (Event Call)) : RegistrySound events where
  target p hash h := by
    rw [(sound_run events).db.newest] at h
    obtain ⟨row, hrow, rfl, rfl⟩ := exists_row_of_newestTarget h
    exact (sound_run events).db.recorded row hrow
  recorded := (sound_run events).db.recorded
  newest := (sound_run events).db.newest
  appendOnly later := by
    unfold run
    rw [System.after_append]
    exact history_after _ later
  failure before later i call e heq hresult := by
    subst heq
    exact System.failed_call_quiet registryCode step_quiet hresult trivial

theorem prod_targets_vetted (events : List (Event Call))
    (hevents : ∀ call, Event.start call ∈ events → Vouched call) :
    RegistrySound events ∧ ∀ p hash, p.aliasName = "prod" →
      resolvePointer (run events).state p = some hash → Vetted (run events).calls hash p := by
  refine ⟨registrySound events, fun p hash hprod hresolve => ?_⟩
  have h := vouching_run hevents
  rw [h.sound.db.newest] at hresolve
  obtain ⟨row, hrow, rfl, rfl⟩ := exists_row_of_newestTarget hresolve
  exact h.vetted row hrow hprod

def sampleHash : String := String.ofList (List.replicate 64 'a')

def sampleProd : Pointer := ⟨"default", "net", "prod"⟩

/-- A checkpoint is registered and promoted onto `prod` by one call. -/
def promotedBy (call : Call) : List (Event Call) :=
  [.start (.register sampleHash "net" "default" none 0), .advance 0, .advance 0, .start call,
    .advance 1, .advance 1]

theorem prod_targets_vetted_pass :
    let events := promotedBy (.promoteGoverned sampleHash sampleProd ["prod"] (some .pass) 1)
    resolvePointer (run events).state sampleProd = some sampleHash ∧
      Vetted (run events).calls sampleHash sampleProd := by
  intro events
  have hresolve : resolvePointer (run events).state sampleProd = some sampleHash := by
    decide +kernel
  refine ⟨hresolve, (prod_targets_vetted events ?_).2 sampleProd sampleHash rfl hresolve⟩
  intro call hcall
  simp only [events, promotedBy, List.mem_cons, Event.start.injEq, reduceCtorEq, false_or, or_false,
    List.not_mem_nil] at hcall
  rcases hcall with rfl | rfl
  · trivial
  · exact fun _ => .inr rfl

/-- With an empty list of governed aliases `prod` moves without a verdict. -/
theorem prod_target_not_vetted :
    let events := promotedBy (.promoteGoverned sampleHash sampleProd [] none 1)
    resolvePointer (run events).state sampleProd = some sampleHash ∧
      ¬ Vetted (run events).calls sampleHash sampleProd := by
  intro events
  refine ⟨by decide +kernel, fun ⟨governed, now, hmem⟩ => ?_⟩
  have hcalls : (run events).calls.map Prod.fst =
      [.register sampleHash "net" "default" none 0,
        .promoteGoverned sampleHash sampleProd [] none 1] := by decide +kernel
  have hfirst := List.mem_map_of_mem (f := Prod.fst) hmem
  rw [hcalls] at hfirst
  simp at hfirst

end Blut.Registry
