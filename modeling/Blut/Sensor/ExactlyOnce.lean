/-
  How often an event is admitted.

  Memory of an admitted event lasts as long as a poll sees it: a sweep forgets what is no longer
  observable. So an event is admitted once as long as nothing that was forgotten comes back, be it
  a file or a child that nobody waits for (`Allowed`), in any history of file changes, passes,
  sweeps and restarts. `Remembers` is the invariant: an admitted id that is observable, or that the
  present pass still has to look at, is in memory or has its marker, and what is in memory is on
  disk.
-/
import Blut.Lib.Json
import Blut.Sensor.Trigger

namespace Blut.Sensor

open Blut.Lib

variable (trigger : FileDropTrigger) (digest : Digest)

/-! ## Memory -/

def Daemon.observable (d : Daemon) : Finset String := observableIds trigger digest d.spool

/-- The events the present pass still has to look at. -/
def Phase.pending : Phase → List TriggerEvent
  | .driving pending => pending
  | .admitted _ pending => pending
  | _ => []

/-- The ids the present sweep takes out of the set and whose markers it removes. -/
def Phase.forgetting (seen : Finset String) : Phase → Finset String
  | .sweeping observable => unobservable seen observable
  | .reclaiming dropped => dropped
  | _ => ∅

/-- The daemon will not launch the id: it is in the set or has a marker, and no sweep is about to
    take these away. -/
def Daemon.Remembered (d : Daemon) (id : String) : Prop :=
  (id ∈ d.seen ∨ id ∈ d.markers) ∧ id ∉ d.phase.forgetting d.seen

/-- A file that comes with the id of an admitted event comes while the id is remembered. A child
    nobody waits for is admitted only for an event that was not admitted before, unless it finds the
    marker, and not for one whose dispatch was refused. -/
def Allowed (d : Daemon) : Event → Prop
  | .drop name content =>
    trigger.watches name = true →
      (trigger.event digest name content).id ∈ d.admissions →
        d.Remembered (trigger.event digest name content).id
  | .acknowledge id => (id ∈ d.admissions → id ∈ d.markers) ∧ id ∉ d.refusals
  | _ => True

/-- Every step of the history meets the condition. -/
def Meets : Daemon → List Event → Prop
  | _, [] => True
  | d, e :: history => Allowed trigger digest d e ∧ Meets (d.next trigger digest e) history

/-- An admitted id that matters is remembered, what is remembered was admitted, and memory is on
    disk. The ids whose last dispatch was refused are nowhere on record. -/
structure Remembers (d : Daemon) : Prop where
  once : d.admissions.Nodup
  kept : ∀ id ∈ d.admissions,
    id ∈ d.observable trigger digest ∨ id ∈ d.phase.pending.map TriggerEvent.id → d.Remembered id
  counted : ∀ id, id ∈ d.seen ∨ id ∈ d.markers ∨ id ∈ d.phase.forgetting d.seen →
    id ∈ d.admissions
  stored : ∀ id ∈ d.seen, id ∈ load d.log d.markers
  logged : ∀ id ∈ d.log, id ∈ d.seen
  spared : ∀ dropped, d.phase = .reclaiming dropped → ∀ id ∈ d.seen, id ∉ dropped
  entering : ∀ event pending, d.phase = .admitted event pending → event.id ∈ d.markers
  valid : ∀ id, id ∈ d.markers ∨ id ∈ d.phase.pending.map TriggerEvent.id → isEventId id = true
  refused : ∀ id ∈ d.refusals, id ∉ d.seen ∧ id ∉ d.markers

variable {trigger digest}

variable {d : Daemon} {id : String} {spool : Spool} {event : TriggerEvent} {markers : Finset String}
  {pending : List TriggerEvent} {e : Event}

theorem mem_load {log : List String} :
    id ∈ load log markers ↔ id ∈ log ∨ (id ∈ markers ∧ isEventId id = true) := by
  simp [load]

/-! ## The spool changes -/

theorem mem_observable :
    id ∈ observableIds trigger digest spool ↔ ∃ name content, spool.get? name = some content ∧
      trigger.watches name = true ∧ (trigger.event digest name content).id = id := by
  simp only [observableIds, FileDropTrigger.poll, List.mem_toFinset, List.mem_map, List.mem_filter]
  constructor
  · rintro ⟨event, ⟨⟨name, content⟩, ⟨hmem, hwatch⟩, rfl⟩, rfl⟩
    exact ⟨name, content, (spool.get?_eq_some_iff).mpr hmem, hwatch, rfl⟩
  · rintro ⟨name, content, hget, hwatch, rfl⟩
    exact ⟨_, ⟨(name, content), ⟨(spool.get?_eq_some_iff).mp hget, hwatch⟩, rfl⟩, rfl⟩

theorem valid_observable (h : id ∈ observableIds trigger digest spool) : isEventId id = true := by
  obtain ⟨name, content, -, -, rfl⟩ := mem_observable.mp h
  exact digest.isEventId_hex _

theorem observable_erase {name : String}
    (h : id ∈ observableIds trigger digest (spool.erase name)) :
    id ∈ observableIds trigger digest spool := by
  obtain ⟨other, content, hget, hrest⟩ := mem_observable.mp h
  rw [BTreeMap.get?_erase] at hget
  split at hget
  · cases hget
  · exact mem_observable.mpr ⟨other, content, hget, hrest⟩

theorem observable_insert {name : String} {content : List (Fin 256)}
    (h : id ∈ observableIds trigger digest (spool.insert name content)) :
    id ∈ observableIds trigger digest spool ∨
      (trigger.watches name = true ∧ (trigger.event digest name content).id = id) := by
  obtain ⟨other, found, hget, hwatch, hid⟩ := mem_observable.mp h
  rw [BTreeMap.get?_insert] at hget
  split at hget
  · next heq =>
    subst heq
    cases hget
    exact .inr ⟨hwatch, hid⟩
  · exact .inl (mem_observable.mpr ⟨other, found, hget, hwatch, hid⟩)

theorem observable_archive
    (h : id ∈ observableIds trigger digest (archiveDispatched trigger event spool)) :
    id ∈ observableIds trigger digest spool := by
  unfold archiveDispatched at h
  split at h
  · exact observable_erase h
  · exact h

section

variable (h : Remembers trigger digest d)
include h

/-- Another spool, with nothing new to see but what is remembered. -/
theorem Remembers.respool
    (hnew : ∀ id ∈ d.admissions, id ∈ observableIds trigger digest spool →
      id ∈ d.observable trigger digest ∨ d.Remembered id) :
    Remembers trigger digest { d with spool := spool } :=
  { h with
    kept := fun id hid hsees => by
      rcases hsees with hsees | hpending
      · rcases hnew id hid hsees with hold | hremembered
        · exact h.kept id hid (.inl hold)
        · exact hremembered
      · exact h.kept id hid (.inr hpending) }

/-! ## Steps of the daemon -/

variable {observable : Finset String}

/-- A child is admitted whose event was not admitted before. -/
theorem Remembers.acknowledge (hnew : id ∈ d.admissions → id ∈ d.markers) (hid : id ∉ d.refusals) :
    Remembers trigger digest (acknowledgeAdmission id d) := by
  unfold acknowledgeAdmission
  split_ifs with hwrites
  · have hfresh : id ∉ d.admissions := fun hmem => hwrites.2 (hnew hmem)
    exact {
      once := by simpa using h.once.concat hfresh
      kept := fun other hother hsees => by
        rcases List.mem_append.mp hother with hother | hother
        · obtain ⟨hrecord, hspared⟩ := h.kept other hother hsees
          exact ⟨hrecord.imp_right Finset.mem_insert_of_mem, hspared⟩
        · obtain rfl := List.mem_singleton.mp hother
          exact ⟨.inr (Finset.mem_insert_self _ _), fun hmem =>
            hfresh (h.counted _ (.inr (.inr hmem)))⟩
      counted := fun other hother => by
        rw [List.mem_append, List.mem_singleton]
        rcases hother with hseen | hmarker | hforgetting
        · exact .inl (h.counted other (.inl hseen))
        · rcases Finset.mem_insert.mp hmarker with rfl | hmarker
          · exact .inr rfl
          · exact .inl (h.counted other (.inr (.inl hmarker)))
        · exact .inl (h.counted other (.inr (.inr hforgetting)))
      stored := fun other hother => mem_load.mpr ((mem_load.mp (h.stored other hother)).imp_right
        fun hmarker => ⟨Finset.mem_insert_of_mem hmarker.1, hmarker.2⟩)
      logged := h.logged
      spared := h.spared
      entering := fun event pending hphase =>
        Finset.mem_insert_of_mem (h.entering event pending hphase)
      valid := fun other hother => by
        rcases hother with hmarker | hpending
        · rcases Finset.mem_insert.mp hmarker with rfl | hmarker
          · exact hwrites.1
          · exact h.valid other (.inl hmarker)
        · exact h.valid other (.inr hpending)
      refused := fun other hother => by
        obtain ⟨hseen, hmarker⟩ := h.refused other hother
        refine ⟨hseen, fun hmem => ?_⟩
        rcases Finset.mem_insert.mp hmem with rfl | hmem
        · exact hid hother
        · exact hmarker hmem }
  · exact h

/-- The daemon goes on to a phase that looks at nothing new and forgets nothing that is seen. -/
theorem Remembers.rephase (phase : Phase)
    (hpending : ∀ id ∈ phase.pending.map TriggerEvent.id,
      id ∈ d.observable trigger digest ∨ id ∈ d.phase.pending.map TriggerEvent.id)
    (hforgetting : ∀ id ∈ phase.forgetting d.seen, id ∈ d.seen ∧
      id ∉ d.observable trigger digest ∧ id ∉ phase.pending.map TriggerEvent.id)
    (hreclaiming : ∀ dropped, phase ≠ .reclaiming dropped)
    (hentering : ∀ event pending, phase = .admitted event pending → event.id ∈ d.markers) :
    Remembers trigger digest { d with phase := phase } where
  once := h.once
  kept id hid hsees := by
    have hold : id ∈ d.observable trigger digest ∨ id ∈ d.phase.pending.map TriggerEvent.id := by
      rcases hsees with hsees | hlater
      · exact .inl hsees
      · exact hpending id hlater
    refine ⟨(h.kept id hid hold).1, fun hmem => ?_⟩
    obtain ⟨-, hunseen, hdone⟩ := hforgetting id hmem
    exact hsees.elim hunseen hdone
  counted id hid := by
    rcases hid with hseen | hmarker | hmem
    · exact h.counted id (.inl hseen)
    · exact h.counted id (.inr (.inl hmarker))
    · exact h.counted id (.inl (hforgetting id hmem).1)
  stored := h.stored
  logged := h.logged
  spared dropped hphase := absurd hphase (hreclaiming dropped)
  entering := hentering
  valid id hid := by
    rcases hid with hmarker | hlater
    · exact h.valid id (.inl hmarker)
    · rcases hpending id hlater with hsees | hold
      · exact valid_observable hsees
      · exact h.valid id (.inr hold)
  refused := h.refused

theorem Remembers.idle : Remembers trigger digest { d with phase := .idle } :=
  h.rephase .idle (fun _ hmem => absurd hmem List.not_mem_nil)
    (fun id hmem => absurd hmem (Finset.notMem_empty id)) (fun _ heq => by cases heq)
    fun _ _ heq => by cases heq

/-- A pass goes on with events of the poll, or of those that were left. -/
theorem Remembers.driving (hpending : ∀ id ∈ pending.map TriggerEvent.id,
      id ∈ d.observable trigger digest ∨ id ∈ d.phase.pending.map TriggerEvent.id) :
    Remembers trigger digest { d with phase := .driving pending } :=
  h.rephase (.driving pending) hpending (fun id hmem => absurd hmem (Finset.notMem_empty id))
    (fun _ heq => by cases heq) fun _ _ heq => by cases heq

theorem Remembers.sweep :
    Remembers trigger digest
      { d with phase := .sweeping (observableIds trigger digest d.spool) } := by
  refine h.rephase _ (fun _ hmem => absurd hmem List.not_mem_nil) (fun id hmem => ?_)
    (fun _ heq => by cases heq) fun _ _ heq => by cases heq
  obtain ⟨hseen, hunseen⟩ := Finset.mem_filter.mp hmem
  exact ⟨hseen, hunseen, List.not_mem_nil⟩

theorem Remembers.refuse (refusals : Finset String)
    (hrefused : ∀ id ∈ refusals, id ∉ d.seen ∧ id ∉ d.markers) :
    Remembers trigger digest { d with refusals := refusals } :=
  { h with refused := hrefused }

section

variable (hphase : d.phase = .driving (event :: pending))
include hphase

omit h in
theorem pending_tail : ∀ id ∈ pending.map TriggerEvent.id,
    id ∈ d.observable trigger digest ∨ id ∈ d.phase.pending.map TriggerEvent.id := by
  intro id hid
  rw [hphase]
  exact .inr (List.mem_cons_of_mem _ hid)

/-- The event of a pass that is launched was not admitted before, unless its marker is there. -/
theorem Remembers.admission (hseen : event.id ∉ d.seen) : Remembers trigger digest
      { acknowledgeAdmission event.id { d with refusals := d.refusals.erase event.id } with
        phase := .admitted event pending } := by
  have hlooked : event.id ∈ d.phase.pending.map TriggerEvent.id := by
    rw [hphase]
    exact List.mem_cons_self
  have herased := h.refuse (d.refusals.erase event.id) fun id hid =>
    h.refused id (Finset.mem_of_mem_erase hid)
  have hadmitted : Remembers trigger digest (acknowledgeAdmission event.id _) := herased.acknowledge
    (fun hid => (h.kept event.id hid (.inr hlooked)).1.resolve_left hseen)
    (Finset.notMem_erase _ _)
  have hmarker : event.id ∈ (acknowledgeAdmission event.id
      { d with refusals := d.refusals.erase event.id }).markers := by
    unfold acknowledgeAdmission
    split_ifs with hwrites
    · exact Finset.mem_insert_self _ _
    · exact by_contra fun hmem => hwrites ⟨h.valid _ (.inr hlooked), hmem⟩
  refine hadmitted.rephase (.admitted event pending) (fun id hid => ?_)
    (fun id hmem => absurd hmem (Finset.notMem_empty id)) (fun _ heq => by cases heq) ?_
  · rw [acknowledgeAdmission_phase, Daemon.observable, acknowledgeAdmission_spool]
    exact pending_tail hphase id hid
  · intro other rest heq
    cases heq
    exact hmarker

theorem Remembers.dispatchNext (outcome : DispatchOutcome) :
    Remembers trigger digest (dispatchNext outcome event pending d) := by
  unfold Sensor.dispatchNext
  split_ifs with hseen
  · exact h.driving (pending_tail hphase)
  · cases hlaunch : launch d.markers event.id outcome with
    | admitted => exact h.admission hphase hseen
    | refused =>
      have hmarker : event.id ∉ d.markers := by
        intro hmem
        simp [launch, hmem] at hlaunch
      refine (h.driving (pending_tail hphase)).refuse _ fun id hid => ?_
      rcases Finset.mem_insert.mp hid with rfl | hid
      · exact ⟨hseen, hmarker⟩
      · exact h.refused id hid

end

omit h in
theorem insertSeen_spec (id : String) (seen : Finset String) (log : List String) :
    (insertSeen id seen log).1 = insert id seen ∧
      (∀ other, other ∈ (insertSeen id seen log).2 → other ∈ log ∨ other = id) ∧
      (∀ other ∈ log, other ∈ (insertSeen id seen log).2) := by
  unfold insertSeen
  split_ifs with hseen
  · exact ⟨(Finset.insert_eq_self.mpr hseen).symm, fun _ hmem => .inl hmem, fun _ hmem => hmem⟩
  · refine ⟨rfl, fun other hmem => ?_, fun other hmem => List.mem_append_left _ hmem⟩
    simpa using hmem

theorem Remembers.append (hphase : d.phase = .admitted event pending) : Remembers trigger digest
      { d with
        seen := (insertSeen event.id d.seen d.log).1
        log := (insertSeen event.id d.seen d.log).2
        phase := .driving pending } := by
  have hmarker := h.entering event pending hphase
  obtain ⟨hset, hback, hlog⟩ := insertSeen_spec event.id d.seen d.log
  rw [hset]
  exact {
    once := h.once
    kept := fun id hid hsees => by
      have hremembered := h.kept id hid (by rw [hphase]; exact hsees)
      exact ⟨hremembered.1.imp_left Finset.mem_insert_of_mem, Finset.notMem_empty id⟩
    counted := fun id hid => by
      rcases hid with hseen | hmem | hnone
      · rcases Finset.mem_insert.mp hseen with rfl | hseen
        · exact h.counted _ (.inr (.inl hmarker))
        · exact h.counted id (.inl hseen)
      · exact h.counted id (.inr (.inl hmem))
      · exact absurd hnone (Finset.notMem_empty id)
    stored := fun id hid => by
      rcases Finset.mem_insert.mp hid with rfl | hid
      · exact mem_load.mpr (.inr ⟨hmarker, h.valid _ (.inl hmarker)⟩)
      · exact mem_load.mpr ((mem_load.mp (h.stored id hid)).imp_left (hlog id))
    logged := fun id hid => Finset.mem_insert.mpr ((hback id hid).symm.imp_right (h.logged id))
    spared := fun dropped heq => by cases heq
    entering := fun other rest heq => by cases heq
    valid := fun id hid => h.valid id (by rw [hphase]; exact hid)
    refused := fun id hid => by
      obtain ⟨hseen, hunmarked⟩ := h.refused id hid
      refine ⟨fun hmem => ?_, hunmarked⟩
      rcases Finset.mem_insert.mp hmem with rfl | hmem
      · exact hunmarked hmarker
      · exact hseen hmem }

theorem Remembers.retain (hphase : d.phase = .sweeping observable) : Remembers trigger digest
      { d with
        seen := d.seen \ unobservable d.seen observable
        log := (d.seen \ unobservable d.seen observable).sort (· ≤ ·)
        phase := .reclaiming (unobservable d.seen observable) } where
  once := h.once
  kept id hid hsees := by
    rcases hsees with hsees | hpending
    · obtain ⟨hrecord, hspared⟩ := h.kept id hid (.inl hsees)
      rw [hphase] at hspared
      exact ⟨hrecord.imp_left fun hseen => Finset.mem_sdiff.mpr ⟨hseen, hspared⟩, hspared⟩
    · cases hpending
  counted id hid := by
    rcases hid with hseen | hmarker | hdropped
    · exact h.counted id (.inl (Finset.mem_sdiff.mp hseen).1)
    · exact h.counted id (.inr (.inl hmarker))
    · exact h.counted id (.inl (Finset.mem_filter.mp hdropped).1)
  stored id hid := mem_load.mpr (.inl ((Finset.mem_sort _).mpr hid))
  logged id hid := (Finset.mem_sort _).mp hid
  spared dropped heq id hid := by
    cases heq
    exact (Finset.mem_sdiff.mp hid).2
  entering event pending heq := by cases heq
  valid id hid := by
    rcases hid with hmarker | hpending
    · exact h.valid id (.inl hmarker)
    · cases hpending
  refused id hid := ⟨fun hmem => (h.refused id hid).1 (Finset.mem_sdiff.mp hmem).1,
    (h.refused id hid).2⟩

theorem Remembers.reclaim {dropped : Finset String} (hphase : d.phase = .reclaiming dropped) :
    Remembers trigger digest { d with markers := d.markers \ dropped, phase := .idle } where
  once := h.once
  kept id hid hsees := by
    rcases hsees with hsees | hpending
    · obtain ⟨hrecord, hspared⟩ := h.kept id hid (.inl hsees)
      rw [hphase] at hspared
      exact ⟨hrecord.imp_right fun hmarker => Finset.mem_sdiff.mpr ⟨hmarker, hspared⟩,
        Finset.notMem_empty id⟩
    · cases hpending
  counted id hid := by
    rcases hid with hseen | hmarker | hnone
    · exact h.counted id (.inl hseen)
    · exact h.counted id (.inr (.inl (Finset.mem_sdiff.mp hmarker).1))
    · exact absurd hnone (Finset.notMem_empty id)
  stored id hid := mem_load.mpr ((mem_load.mp (h.stored id hid)).imp_right fun hmarker =>
    ⟨Finset.mem_sdiff.mpr ⟨hmarker.1, h.spared dropped hphase id hid⟩, hmarker.2⟩)
  logged := h.logged
  spared dropped heq := by cases heq
  entering event pending heq := by cases heq
  valid id hid := by
    rcases hid with hmarker | hpending
    · exact h.valid id (.inl (Finset.mem_sdiff.mp hmarker).1)
    · cases hpending
  refused id hid := ⟨(h.refused id hid).1, fun hmem =>
    (h.refused id hid).2 (Finset.mem_sdiff.mp hmem).1⟩

theorem Remembers.restart :
    Remembers trigger digest { d with seen := load d.log d.markers, phase := .idle } where
  once := h.once
  kept id hid hsees := by
    rcases hsees with hsees | hpending
    · exact ⟨(h.kept id hid (.inl hsees)).1.imp_left (h.stored id), Finset.notMem_empty id⟩
    · cases hpending
  counted id hid := by
    rcases hid with hloaded | hmarker | hnone
    · rcases mem_load.mp hloaded with hlog | hmarker
      · exact h.counted id (.inl (h.logged id hlog))
      · exact h.counted id (.inr (.inl hmarker.1))
    · exact h.counted id (.inr (.inl hmarker))
    · exact absurd hnone (Finset.notMem_empty id)
  stored id hid := hid
  logged id hid := mem_load.mpr (.inl hid)
  spared dropped heq := by cases heq
  entering event pending heq := by cases heq
  valid id hid := by
    rcases hid with hmarker | hpending
    · exact h.valid id (.inl hmarker)
    · cases hpending
  refused id hid := by
    obtain ⟨hseen, hmarker⟩ := h.refused id hid
    refine ⟨fun hmem => ?_, hmarker⟩
    rcases mem_load.mp hmem with hlog | hmem
    · exact hseen (h.logged id hlog)
    · exact hmarker hmem.1

end

/-- Every allowed step keeps the invariant. -/
theorem Remembers.next (h : Remembers trigger digest d) (hallowed : Allowed trigger digest d e) :
    Remembers trigger digest (d.next trigger digest e) := by
  cases e with
  | drop name content =>
    refine h.respool fun id hid hsees => ?_
    rcases observable_insert hsees with hold | ⟨hwatch, rfl⟩
    · exact .inl hold
    · exact .inr (hallowed hwatch hid)
  | remove name => exact h.respool fun id _ hsees => .inl (observable_erase hsees)
  | archive event => exact h.respool fun id _ hsees => .inl (observable_archive hsees)
  | acknowledge id => exact h.acknowledge hallowed.1 hallowed.2
  | drive =>
    cases hphase : d.phase with
    | idle =>
      simp only [Daemon.next, hphase]
      exact h.driving fun id hid => .inl (List.mem_toFinset.mpr hid)
    | _ => simpa only [Daemon.next, hphase] using h
  | dispatch outcome =>
    cases hphase : d.phase with
    | driving pending =>
      cases pending with
      | nil =>
        simp only [Daemon.next, hphase]
        exact h.idle
      | cons event pending =>
        simp only [Daemon.next, hphase]
        exact h.dispatchNext hphase outcome
    | _ => simpa only [Daemon.next, hphase] using h
  | append =>
    cases hphase : d.phase with
    | admitted event pending => simpa only [Daemon.next, hphase] using h.append hphase
    | _ => simpa only [Daemon.next, hphase] using h
  | sweep =>
    cases hphase : d.phase with
    | idle =>
      simp only [Daemon.next, hphase]
      exact h.sweep
    | _ => simpa only [Daemon.next, hphase] using h
  | retain =>
    cases hphase : d.phase with
    | sweeping observable =>
      simp only [Daemon.next, hphase]
      split_ifs with hnone
      · exact h.idle
      · exact h.retain hphase
    | _ => simpa only [Daemon.next, hphase] using h
  | reclaim =>
    cases hphase : d.phase with
    | reclaiming dropped =>
      simp only [Daemon.next, hphase]
      exact h.reclaim hphase
    | _ => simpa only [Daemon.next, hphase] using h
  | restart => exact h.restart

/-! ## Histories -/

variable {history : List Event}

theorem Remembers.after (h : Remembers trigger digest d)
    (hmeets : Meets trigger digest d history) :
    Remembers trigger digest (d.after trigger digest history) := by
  induction history generalizing d with
  | nil => exact h
  | cons e history ih => exact ih (h.next hmeets.1) hmeets.2

theorem remembers_fresh : Remembers trigger digest Daemon.fresh := by
  constructor <;> simp [Daemon.fresh, Phase.pending, Phase.forgetting]

/-- The pass is at an event with this id that it has to launch. -/
def Offers (d : Daemon) (id : String) : Prop :=
  ∃ event pending, d.phase = .driving (event :: pending) ∧ event.id = id ∧ id ∉ d.seen

theorem pending_dispatchNext (hne : event.id ≠ id) (hpending : id ∈ pending.map TriggerEvent.id)
    (hrefused : id ∈ d.refusals) (outcome : DispatchOutcome) :
    id ∈ (dispatchNext outcome event pending d).phase.pending.map TriggerEvent.id ∧
      id ∈ (dispatchNext outcome event pending d).refusals := by
  unfold dispatchNext
  split_ifs with hseen
  · exact ⟨hpending, hrefused⟩
  · cases launch d.markers event.id outcome with
    | admitted =>
      refine ⟨hpending, ?_⟩
      rw [acknowledgeAdmission_refusals]
      exact Finset.mem_erase.mpr ⟨hne.symm, hrefused⟩
    | refused => exact ⟨hpending, Finset.mem_insert_of_mem hrefused⟩

variable (trigger digest) in
/-- Unless the daemon restarts, a refused event the pass has before it stays there until the pass
    is at it. -/
theorem pending_next (hpending : id ∈ d.phase.pending.map TriggerEvent.id)
    (hrefused : id ∈ d.refusals) (hrestart : e ≠ .restart) :
    (∃ outcome event pending, e = .dispatch outcome ∧ d.phase = .driving (event :: pending) ∧
      event.id = id) ∨
    (id ∈ (d.next trigger digest e).phase.pending.map TriggerEvent.id ∧
      id ∈ (d.next trigger digest e).refusals) := by
  cases hphase : d.phase with
  | driving pending =>
    rw [hphase] at hpending
    cases e with
    | dispatch outcome =>
      cases pending with
      | nil => cases hpending
      | cons event pending =>
        by_cases hid : event.id = id
        · exact .inl ⟨outcome, event, pending, rfl, rfl, hid⟩
        · refine .inr ?_
          simp only [Daemon.next, hphase]
          refine pending_dispatchNext hid ?_ hrefused outcome
          rcases List.mem_cons.mp hpending with heq | hmem
          · exact absurd heq.symm hid
          · exact hmem
    | restart => exact absurd rfl hrestart
    | _ =>
      simp only [Daemon.next, hphase, acknowledgeAdmission_phase, acknowledgeAdmission_refusals]
      exact .inr ⟨hpending, hrefused⟩
  | admitted event pending =>
    rw [hphase] at hpending
    cases e with
    | restart => exact absurd rfl hrestart
    | _ =>
      simp only [Daemon.next, hphase, acknowledgeAdmission_phase, acknowledgeAdmission_refusals]
      exact .inr ⟨hpending, hrefused⟩
  | _ =>
    rw [hphase] at hpending
    cases hpending

/-- A pass that comes to its end came to every refused event it had before it. -/
theorem pass_offers (hpending : id ∈ d.phase.pending.map TriggerEvent.id)
    (hrefused : id ∈ d.refusals) (h : Remembers trigger digest d)
    (hmeets : Meets trigger digest d history)
    (hrestart : Event.restart ∉ history) (hend : (d.after trigger digest history).phase = .idle) :
    ∃ before outcome later, history = before ++ .dispatch outcome :: later ∧
      Offers (d.after trigger digest before) id := by
  induction history generalizing d with
  | nil =>
    change d.phase = .idle at hend
    rw [hend] at hpending
    cases hpending
  | cons e history ih =>
    have he : e ≠ .restart := fun heq => hrestart (heq ▸ List.mem_cons_self)
    obtain ⟨outcome, event, pending, rfl, hphase, hid⟩ | ⟨hpending', hrefused'⟩ :=
      pending_next trigger digest hpending hrefused he
    · exact ⟨[], outcome, history, rfl, event, pending, hphase, hid, (h.refused id hrefused).1⟩
    · obtain ⟨before, outcome, later, rfl, hoffers⟩ := ih hpending' hrefused'
        (h.next hmeets.1) hmeets.2 (fun hmem => hrestart (List.mem_cons_of_mem _ hmem)) hend
      exact ⟨e :: before, outcome, later, rfl, hoffers⟩

variable (trigger digest) in
theorem event_admitted_once {history : List Event}
    (hmeets : Meets trigger digest Daemon.fresh history) :
    let d := Daemon.fresh.after trigger digest history
    d.admissions.Nodup ∧
      ∀ id more, d.phase = .idle → id ∈ d.refusals → id ∈ d.observable trigger digest →
        Meets trigger digest d (.drive :: more) → Event.restart ∉ more →
        (d.after trigger digest (.drive :: more)).phase = .idle →
          ∃ before outcome later, more = before ++ .dispatch outcome :: later ∧
            Offers (d.after trigger digest (.drive :: before)) id := by
  intro d
  have h := remembers_fresh.after hmeets
  refine ⟨h.once, fun id more hidle hrefused hsees hmore hrestart hend => ?_⟩
  have hnext : d.next trigger digest .drive =
      { d with phase := .driving (trigger.poll digest d.spool) } := by
    simp only [Daemon.next, hidle]
  refine pass_offers (d := d.next trigger digest .drive) ?_ ?_ (h.next hmore.1)
    hmore.2 hrestart hend
  · rw [hnext]
    exact List.mem_toFinset.mp hsees
  · rw [hnext]
    exact hrefused

/-- A file is dropped, admitted and archived, and its record is reclaimed. -/
def dropAndForget (name : String) (content : List (Fin 256)) (event : TriggerEvent) : List Event :=
  [.drop name content, .drive, .dispatch .admitted, .append, .dispatch .refused, .archive event,
    .sweep, .retain, .reclaim]

def sampleTrigger : FileDropTrigger := ⟨"spool", none⟩

/-- The texts' lengths, in hexadecimal. -/
def sampleDigest : Digest where
  hex bytes := String.ofList (List.replicate 63 'a' ++ [hexDigit (bytes.length % 16)])
  isEventId_hex bytes := by
    have hlt : bytes.length % 16 < 16 := Nat.mod_lt _ (by decide)
    interval_cases bytes.length % 16 <;> decide +kernel

/-- A refused event is launched in the next pass. -/
theorem event_admitted_once_retry :
    let id := (sampleTrigger.event sampleDigest "a.json" [1]).id
    let d := Daemon.fresh.after sampleTrigger sampleDigest
      [.drop "a.json" [1], .drive, .dispatch .refused, .dispatch .refused]
    d.admissions.Nodup ∧ ∃ before outcome later,
      [Event.dispatch .admitted, .append, .dispatch .refused] =
        before ++ .dispatch outcome :: later ∧
        Offers (d.after sampleTrigger sampleDigest (.drive :: before)) id := by
  intro id d
  have hmeets : Meets sampleTrigger sampleDigest Daemon.fresh
      [.drop "a.json" [1], .drive, .dispatch .refused, .dispatch .refused] :=
    ⟨fun _ hmem => (nomatch hmem), trivial, trivial, trivial, trivial⟩
  obtain ⟨honce, hoffers⟩ := event_admitted_once sampleTrigger sampleDigest hmeets
  refine ⟨honce, hoffers id _ rfl (by decide +kernel) (by decide +kernel)
    ⟨trivial, trivial, trivial, trivial, trivial⟩ (by simp) (by decide +kernel)⟩

/-- The same file dropped again after the sweep is admitted again. -/
theorem forgotten_event_admitted_twice :
    let event := sampleTrigger.event sampleDigest "a.json" [1]
    let d := Daemon.fresh.after sampleTrigger sampleDigest
      (dropAndForget "a.json" [1] event ++ [.drop "a.json" [1], .drive, .dispatch .admitted])
    d.admissions = [event.id, event.id] ∧ ¬ d.admissions.Nodup := by
  intro event d
  have htwice : d.admissions = [event.id, event.id] := by decide +kernel
  refine ⟨htwice, ?_⟩
  rw [htwice]
  simp

end Blut.Sensor
