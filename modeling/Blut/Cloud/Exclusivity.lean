/-
  The job queue neither loses nor duplicates work.

  What happened to a job is read off the events of a run: the last claim that handed it out
  (`latestClaim`), the results it got (`terminalResults`). `run_told` carries the ledger of leases
  through a run, with the remark that no lease was given back later than the clock shows; the
  generation counts the claims (`run_generations`), so that no assignment is returned twice.
-/
import Blut.Cloud.Leases

namespace Blut.Cloud

open Blut.Lib Blut.Lib.Leasing

variable {P O : Type}

/-! ## Reading events -/

def Accepted (events : List (Event P O)) (id : String) : Prop :=
  ∃ event ∈ events, event.deed = some (.add id)

/-- The assignment the last claim of a job returned, and when its lease ends. -/
def latestClaim (events : List (Event P O)) (id : String) : Option (Assignment × Nat) :=
  (events.filterMap fun event => event.deed.bind (Move.taking id)).getLast?

/-- The results a job got, by completion or cancellation. -/
def terminalResults (events : List (Event P O)) (id : String) : List (CloudResult O) :=
  events.filterMap fun event => event.deed.bind (Move.settlement id)

def Event.assignment (event : Event P O) : Option Assignment :=
  match event.reply with
  | .claimed (some claimed) => some claimed.assignment
  | _ => none

/-- The assignments returned by the claims. -/
def assignments (events : List (Event P O)) : List Assignment := events.filterMap Event.assignment

/-- In how many places a job is. -/
def Inner.places (q : Inner P O) (id : String) : Nat :=
  q.pendingIds.count id + (if q.leased.contains id then 1 else 0)
    + if q.done.contains id then 1 else 0

def history (events : List (Event P O)) : List (Move String Assignment (CloudResult O)) :=
  events.flatMap Event.moves

theorem history_concat (events : List (Event P O)) (event : Event P O) :
    history (events ++ [event]) = history events ++ event.moves := by
  simp [history]

/-- A reading that says nothing of leases given back is one of what the calls did. -/
theorem filterMap_history {β : Type} {f : Move String Assignment (CloudResult O) → Option β}
    (hback : ∀ id now, f (.giveBack id now) = none) (events : List (Event P O)) :
    (history events).filterMap f = events.filterMap fun event => event.deed.bind f := by
  unfold history
  induction events with
  | nil => rfl
  | cons event events ih =>
    have hnone : (event.order.map fun id => Move.giveBack id event.now).filterMap f = [] := by
      rw [List.filterMap_map]
      exact List.filterMap_eq_nil_iff.mpr fun id _ => hback id event.now
    rw [List.flatMap_cons, List.filterMap_append, ih, Event.moves, List.filterMap_append, hnone,
      List.nil_append, List.filterMap_cons]
    cases event.deed with
    | none => rfl
    | some move =>
      simp only [Option.toList_some, List.filterMap_cons, List.filterMap_nil, Option.bind_some]
      cases f move <;> rfl

theorem lastTaking_history (events : List (Event P O)) (id : String) :
    lastTaking id (history events) = latestClaim events id :=
  congrArg List.getLast? (filterMap_history (fun _ _ => rfl) events)

theorem settlements_history (events : List (Event P O)) (id : String) :
    settlements id (history events) = terminalResults events id :=
  filterMap_history (fun _ _ => rfl) events

variable {events : List (Event P O)} {id : String} {q : Inner P O} {clock clock' now : Nat}
  {order : List String}

theorem add_mem_history : .add id ∈ history events ↔ Accepted events id := by
  simp only [history, List.mem_flatMap, Accepted, Event.moves, List.mem_append, List.mem_map,
    Option.mem_toList]
  simp

/-! ## Runs -/

variable {event : Event P O}

/-- What a run keeps. -/
structure Told (events : List (Event P O)) (clock : Nat) (q : Inner P O) : Prop where
  wellFormed : q.WellFormed
  tells : ∀ id, Tells (history events) id (q.phase id)
  /-- no lease was given back later than the clock shows -/
  past : ∀ id now, .giveBack id now ∈ history events → now ≤ clock

theorem Possible.now_le {call : Call P O} (h : Possible q clock clock' call now order) :
    now ≤ clock' := by
  have hreading := h.reading
  split_ifs at hreading
  · exact hreading
  · exact hreading.le

theorem giveBack_mem_moves (h : .giveBack id now ∈ event.moves) :
    now = event.now := by
  unfold Event.moves at h
  rcases List.mem_append.mp h with h | h
  · obtain ⟨_, _, heq⟩ := List.mem_map.mp h
    cases heq
    rfl
  · -- a deed never gives back
    unfold Event.deed at h
    split at h <;> simp at h

theorem run_told (h : Run events clock q) : Told events clock q := by
  induction h with
  | start clock =>
    refine ⟨Inner.new_wellFormed, fun id => ?_, fun _ _ hmem => nomatch hmem⟩
    exact Tells.empty id
  | @step events clock clock' q call now order _ hpossible ih =>
    obtain ⟨hmoves, hwf⟩ := run_moves ih.wellFormed hpossible
    refine ⟨hwf, ?_, fun id now' hmem => ?_⟩
    · rw [history_concat]
      exact hmoves.tells ih.tells
    · rw [history_concat, List.mem_append] at hmem
      rcases hmem with hmem | hmem
      · exact (ih.past id now' hmem).trans hpossible.forward
      · rw [giveBack_mem_moves hmem]
        exact hpossible.now_le

theorem Told.places_eq_one (h : Told events clock q) (haccepted : Accepted events id) :
    q.places id = 1 := by
  have hknown : q.phase id ≠ none := fun hnone =>
    (h.tells id).known.mp hnone (add_mem_history.mpr haccepted)
  have hwf := h.wellFormed
  unfold Inner.places
  cases hdone : q.done.get? id with
  | some result =>
    have hknown : q.done.get? id ≠ none := hdone ▸ Option.some_ne_none result
    have hnot : id ∉ q.pendingIds := fun hmem => hknown (hwf.not_done id hmem)
    have hleased : q.leased.get? id = none := by
      by_contra hsome
      obtain ⟨lease, hlease⟩ := Option.ne_none_iff_exists'.mp hsome
      exact hknown (hwf.leased_not_done id lease hlease)
    rw [List.count_eq_zero.mpr hnot]
    simp [BTreeMap.contains, hdone, hleased]
  | none =>
    cases hleased : q.leased.get? id with
    | some lease =>
      have hnot : id ∉ q.pendingIds := fun hmem =>
        Option.some_ne_none lease (hleased.symm.trans (hwf.not_leased id hmem))
      rw [List.count_eq_zero.mpr hnot]
      simp [BTreeMap.contains, hdone, hleased]
    | none =>
      have hmem : id ∈ q.pendingIds := by
        by_contra hnot
        exact hknown (Inner.phase_of_absent hdone hleased hnot)
      rw [List.count_eq_one_of_mem hwf.nodup hmem]
      simp [BTreeMap.contains, hdone, hleased]

/-- The done jobs are those with a result, and that is the only one they got. -/
theorem Told.terminalResults_eq (h : Told events clock q) (id : String) :
    terminalResults events id = (q.done.get? id).toList := by
  rw [← settlements_history]
  cases hdone : q.done.get? id with
  | some result => exact (h.tells id).settled result (Inner.phase_of_done hdone)
  | none =>
    refine (h.tells id).unsettled fun result hphase => ?_
    exact nomatch hdone.symm.trans (Inner.done_of_phase hphase)

/-- A lease survives a call's reclaiming exactly when it has not expired. -/
theorem Possible.leased_iff {call : Call P O} (h : Possible q clock clock' call now order)
    (hcall : call.keepsLeases = false) {lease : Leased P} :
    (q.reclaim order).leased.get? id = some lease
      ↔ q.leased.get? id = some lease ∧ now < lease.expires := by
  have hfound : order.Perm (q.expired now) := by simpa [hcall] using h.found
  have hmem : id ∈ order ↔ ∃ lease, q.leased.get? id = some lease ∧ lease.expires ≤ now :=
    hfound.mem_iff.trans Inner.mem_expired
  rw [Inner.reclaim_leased]
  split_ifs with hexpired <;> rw [hmem] at hexpired
  · refine ⟨(fun heq => nomatch heq), fun ⟨hlease, hlt⟩ => ?_⟩
    obtain ⟨other, hother, hle⟩ := hexpired
    cases hother.symm.trans hlease
    exact absurd hle (Nat.not_le_of_lt hlt)
  · refine ⟨fun hlease => ⟨hlease, ?_⟩, fun hlease => hlease.1⟩
    by_contra hle
    exact hexpired ⟨lease, hlease, Nat.le_of_not_lt hle⟩

theorem Told.complete_iff (h : Told events clock q) {assignment : Assignment}
    {result : CloudResult O}
    (hpossible : Possible q clock clock' (.complete assignment result) now order) :
    (q.complete assignment result order).2 = .ok ()
      ↔ (∃ due, latestClaim events result.jobId = some (assignment, due) ∧ now < due)
        ∧ terminalResults events result.jobId = [] := by
  have htells := h.tells result.jobId
  rw [← lastTaking_history, ← settlements_history]
  constructor
  · intro hok
    rcases hcall : q.complete assignment result order with ⟨q', reply⟩
    rw [hcall] at hok
    cases hok
    obtain ⟨⟨lease, hlease, rfl⟩, _⟩ := Inner.complete_eq_ok hcall
    obtain ⟨hlease, hlt⟩ := (hpossible.leased_iff rfl).mp hlease
    have hphase := Inner.phase_of_leased (h.wellFormed.leased_not_done _ lease hlease) hlease
    refine ⟨⟨lease.expires, htells.held _ _ hphase, hlt⟩, htells.unsettled fun other heq => ?_⟩
    exact nomatch hphase.symm.trans heq
  · rintro ⟨⟨due, hlatest, hlt⟩, hopen⟩
    -- every lease given back so far was so at an earlier reading, when this one was not due
    have hnow : now = clock' := hpossible.reading
    have hphase := htells.kept assignment due hlatest (fun now' hmem => by
      have hpast := h.past _ now' hmem
      have hforward := hpossible.forward
      omega) hopen
    obtain ⟨lease, hlease, hassignment, hexpires⟩ := Inner.leased_of_phase hphase
    rcases hcall : q.complete assignment result order with ⟨q', (error | ⟨⟩)⟩
    · have hstill := (hpossible.leased_iff rfl).mpr ⟨hlease, hexpires ▸ hlt⟩
      exact absurd hassignment ((Inner.complete_eq_error hcall).1 lease hstill)
    · rfl

theorem Possible.claim_none_iff {leaseSecs : Nat} {workerId : String}
    (hpossible : Possible q clock clock' (.claim workerId leaseSecs) now order) :
    (q.claim workerId leaseSecs now order).2 = none ↔ q.pending = [] ∧ q.expired now = [] := by
  have hfound : order.Perm (q.expired now) := hpossible.found
  have hempty : (q.reclaim order).pending = [] ↔ q.pending = [] ∧ q.expired now = [] := by
    rw [Inner.reclaim_pending order hpossible.due, List.append_eq_nil_iff]
    refine and_congr_right fun _ => ⟨fun hjobs => ?_, fun hnone => ?_⟩
    · refine List.eq_nil_iff_forall_not_mem.mpr fun id hid => ?_
      obtain ⟨lease, hlease, _⟩ := Inner.mem_expired.mp hid
      have hno := List.filterMap_eq_nil_iff.mp hjobs id (hfound.mem_iff.mpr hid)
      rw [hlease] at hno
      cases hno
    · rw [hnone] at hfound
      rw [hfound.eq_nil]
      rfl
  rcases hcall : q.claim workerId leaseSecs now order with ⟨q', (_ | claimed)⟩
  · exact ⟨fun _ => hempty.mp (Inner.claim_eq_none hcall).1, fun _ => rfl⟩
  · obtain ⟨before, after, hpending, _⟩ := Inner.claim_eq_some hcall
    refine ⟨(fun heq => nomatch heq), fun hnone => ?_⟩
    have hnil := hempty.mpr hnone
    rw [hpending] at hnil
    simp at hnil

/-! ## Generations -/

theorem Inner.reclaim_generation (q : Inner P O) (order : List String) :
    (q.reclaim order).nextGeneration = q.nextGeneration :=
  q.reclaim_nextGeneration order

theorem Event.unassigned {p : Prop} {r : Assignment → Prop} (hnone : event.assignment = none)
    (hp : p) : (event.assignment = none → p)
      ∧ ∀ assignment, event.assignment = some assignment → r assignment :=
  ⟨fun _ => hp, fun assignment h =>
    absurd h (Option.eq_none_iff_forall_ne_some.mp hnone assignment)⟩

/-- A claim that hands out a job uses the next generation, every other call keeps it. -/
theorem run_generation (q : Inner P O) (call : Call P O) (now : Nat) (order : List String) :
    let event : Event P O := ⟨call, now, order, (q.run call now order).2⟩
    (event.assignment = none → (q.run call now order).1.nextGeneration = q.nextGeneration)
      ∧ ∀ assignment, event.assignment = some assignment →
        (q.run call now order).1.nextGeneration = assignment.generation
          ∧ assignment.generation = min (q.nextGeneration + 1) maxGeneration := by
  intro event
  cases call with
  | enqueue job =>
    refine Event.unassigned rfl ?_
    simp only [Inner.run, Inner.enqueue]
    split_ifs <;> rfl
  | claim workerId leaseSecs =>
    rcases hcall : q.claim workerId leaseSecs now order with ⟨q', (_ | claimed)⟩
    · have hassignment : event.assignment = none := by
        simp only [event, Event.assignment, Inner.run, hcall]
      refine Event.unassigned hassignment ?_
      simp only [Inner.run, hcall, (Inner.claim_eq_none hcall).2, Inner.reclaim_generation]
    · have hassignment : event.assignment = some claimed.assignment := by
        simp only [event, Event.assignment, Inner.run, hcall]
      obtain ⟨_, _, _, _, _, hgeneration, hq'⟩ := Inner.claim_eq_some hcall
      rw [hassignment]
      refine ⟨fun h => absurd h (Option.some_ne_none _), fun assignment h => ?_⟩
      cases h
      simp only [Inner.run, hcall, hq', hgeneration, and_self]
  | complete assignment result =>
    refine Event.unassigned rfl ?_
    simp only [Inner.run, Inner.complete]
    split_ifs
    · exact q.reclaim_generation order
    · exact q.reclaim_generation order
  | cancel jobId reason =>
    refine Event.unassigned rfl ?_
    simp only [Inner.run, Inner.cancel]
    split_ifs <;> rfl
  | status jobId => exact Event.unassigned rfl (q.reclaim_generation order)
  | reclaimExpired => exact Event.unassigned rfl (q.reclaim_generation order)

/-- The generation counts the claims that handed out a job. -/
theorem run_generations (h : Run events clock q)
    (hfew : (assignments events).length ≤ maxGeneration) :
    q.nextGeneration = (assignments events).length
      ∧ (assignments events).map Assignment.generation
        = List.range' 1 (assignments events).length := by
  induction h with
  | start clock => exact ⟨rfl, rfl⟩
  | @step events clock clock' q call now order _ _ ih =>
    obtain ⟨hkeep, hnext⟩ := run_generation q call now order
    have hconcat : assignments (events ++ [⟨call, now, order, (q.run call now order).2⟩])
        = assignments events
          ++ (Event.assignment ⟨call, now, order, (q.run call now order).2⟩).toList := by
      unfold assignments
      rw [List.filterMap_append]
      rfl
    rw [hconcat] at hfew ⊢
    cases hassignment : Event.assignment ⟨call, now, order, (q.run call now order).2⟩ with
    | none =>
      rw [hassignment] at hfew
      rw [Option.toList_none, List.append_nil] at hfew ⊢
      rw [hkeep hassignment]
      exact ih hfew
    | some assignment =>
      rw [hassignment] at hfew
      rw [Option.toList_some, List.length_append, List.length_singleton] at hfew ⊢
      obtain ⟨hgeneration, hgenerations⟩ := ih (by omega)
      obtain ⟨hq', hmin⟩ := hnext assignment hassignment
      have hvalue : assignment.generation = (assignments events).length + 1 := by
        rw [hmin, hgeneration]
        exact Nat.min_eq_left hfew
      refine ⟨hq'.trans hvalue, ?_⟩
      rw [List.map_append, hgenerations, List.range'_1_concat]
      simp [hvalue, Nat.add_comm]

theorem assignments_nodup (h : Run events clock q) (hfew : (assignments events).length < 2 ^ 64) :
    (assignments events).Nodup := by
  have hgenerations := (run_generations h (by unfold maxGeneration; omega)).2
  refine List.Nodup.of_map Assignment.generation ?_
  rw [hgenerations]
  exact List.nodup_range'

/-! ## The queue -/

/-- In every run every accepted job is in one place; results stay and there is at most one a job;
    the holder of the last lease, before it expires, completes a job without a result, and nobody
    else does; assignments are fresh; and a claim takes the first of the most urgent jobs. -/
theorem queue_neither_loses_nor_duplicates {events : List (Event P O)} {clock : Nat}
    {q : Inner P O} (hrun : Run events clock q) (hclaims : (assignments events).length < 2 ^ 64) :
    (∀ id, Accepted events id → q.places id = 1)
      ∧ (∀ id, terminalResults events id = (q.done.get? id).toList)
      ∧ (∀ clock' call now order, Possible q clock clock' call now order →
          ∀ id result, q.done.get? id = some result →
            (q.run call now order).1.done.get? id = some result)
      ∧ (∀ clock' assignment result now order,
          Possible q clock clock' (.complete assignment result) now order →
          ((q.complete assignment result order).2 = .ok ()
            ↔ (∃ due, latestClaim events result.jobId = some (assignment, due) ∧ now < due)
              ∧ terminalResults events result.jobId = [])
          ∧ ((q.complete assignment result order).2 = .ok () →
            (q.complete assignment result order).1.done.get? result.jobId
              = some { result with assignment := some assignment }))
      ∧ (assignments events).Nodup
      ∧ ∀ clock' workerId leaseSecs now order,
          Possible q clock clock' (.claim workerId leaseSecs) now order →
          ((q.claim workerId leaseSecs now order).2 = none
            ↔ q.pending = [] ∧ q.expired now = [])
          ∧ ∀ claimed, (q.claim workerId leaseSecs now order).2 = some claimed →
            ∃ before after, (q.reclaim order).pending = before ++ claimed.job :: after
              ∧ (∀ other ∈ before, other.priority < claimed.job.priority)
              ∧ ∀ other ∈ after, other.priority ≤ claimed.job.priority := by
  have htold := run_told hrun
  refine ⟨fun id => htold.places_eq_one, htold.terminalResults_eq,
    fun clock' call now order hpossible id result hdone => ?_,
    fun clock' assignment result now order hpossible =>
      ⟨htold.complete_iff hpossible, fun hok => ?_⟩,
    assignments_nodup hrun hclaims,
    fun clock' workerId leaseSecs now order hpossible =>
      ⟨hpossible.claim_none_iff, fun claimed hclaimed => ?_⟩⟩
  · have hmoves := (run_moves htold.wellFormed hpossible).1
    exact Inner.done_of_phase (hmoves.settled (Inner.phase_of_done hdone))
  · rcases hcall : q.complete assignment result order with ⟨q', reply⟩
    rw [hcall] at hok
    cases hok
    rw [(Inner.complete_eq_ok hcall).2]
    exact BTreeMap.get?_insert_self _ _ _
  · rcases hcall : q.claim workerId leaseSecs now order with ⟨q', reply⟩
    rw [hcall] at hclaimed
    cases hclaimed
    obtain ⟨before, after, hpending, hbefore, hafter, _⟩ := Inner.claim_eq_some hcall
    exact ⟨before, after, hpending, hbefore, hafter⟩

def errand : CloudJob Unit := ⟨"a", 0, ()⟩

def errandResult : CloudResult Unit := ⟨"a", none, .succeeded, none, 5, none⟩

def errandHolder : Assignment := ⟨"w1", 1⟩

/-- One job, accepted and claimed for thirty seconds. -/
def errandClaimed : Inner Unit Unit :=
  ((Inner.new.run (.enqueue errand) 0 []).1.run (.claim "w1" 30) 0 []).1

def errandEvents : List (Event Unit Unit) :=
  [⟨.enqueue errand, 0, [], .enqueued (.ok ())⟩,
    ⟨.claim "w1" 30, 0, [], .claimed (some ⟨errand, errandHolder⟩)⟩]

theorem errand_run : Run errandEvents 0 errandClaimed := by
  have haccepted := Run.step (.enqueue errand) 0 [] (Run.start (P := Unit) (O := Unit) 0)
    ⟨le_refl 0, rfl, rfl⟩
  exact Run.step (.claim "w1" 30) 0 [] haccepted ⟨le_refl 0, le_refl 0, List.Perm.refl _⟩

theorem queue_neither_loses_nor_duplicates_errand :
    errandClaimed.places "a" = 1
      ∧ (errandClaimed.complete errandHolder errandResult []).2 = .ok () := by
  obtain ⟨hplaces, _, _, hcomplete, _⟩ :=
    queue_neither_loses_nor_duplicates errand_run (by decide +kernel)
  refine ⟨hplaces "a" ⟨_, List.mem_cons_self, rfl⟩, ?_⟩
  refine ((hcomplete 0 errandHolder errandResult 0 [] ⟨le_refl 0, rfl, List.Perm.refl _⟩).1).mpr ?_
  exact ⟨⟨30000000000, rfl, by decide⟩, rfl⟩

/-- The holder of the last lease, not expired and not cancelled, is refused when it completes the
    job a second time. -/
theorem completed_twice :
    ∃ (events : List (Event Unit Unit)) (q : Inner Unit Unit) (due : Nat),
      Run events 0 q ∧ latestClaim events "a" = some (errandHolder, due) ∧ 0 < due
        ∧ (∀ event ∈ events, ∀ reason, event.call ≠ .cancel "a" reason)
        ∧ Possible q 0 0 (.complete errandHolder errandResult) 0 []
        ∧ (q.complete errandHolder errandResult []).2 = .error (.leaseLost "a") := by
  have hdone := Run.step (.complete errandHolder errandResult) 0 [] errand_run
    ⟨le_refl 0, rfl, List.Perm.refl _⟩
  refine ⟨_, _, 30000000000, hdone, rfl, by decide, ?_, ⟨le_refl 0, rfl, List.Perm.refl _⟩, rfl⟩
  intro event hevent reason
  rcases List.mem_append.mp hevent with hevent | hevent
  · simp only [errandEvents, List.mem_cons, List.not_mem_nil, or_false] at hevent
    rcases hevent with rfl | rfl
    · exact fun heq => nomatch heq
    · exact fun heq => nomatch heq
  · rw [List.mem_singleton.mp hevent]
    exact fun heq => nomatch heq

end Blut.Cloud
