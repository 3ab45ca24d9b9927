/-
  The job queue is a ledger of leases.

  A queue is well formed when its pending jobs have different ids and no id is in two of pending,
  leased and done (`WellFormed`). Then it says of every id where the job is (`phase`), and a call
  moves that ledger (`run_moves`): every expired lease it found is given back, then at most one
  job is added, taken or settled, which the reply tells (`Event.deed`, `Event.moves`).
-/
import Blut.Lib.Leasing
import Blut.Cloud.Queue

namespace Blut.Cloud

open Blut.Lib Blut.Lib.Leasing

variable {P O : Type}

namespace Inner

def pendingIds (q : Inner P O) : List String := q.pending.map CloudJob.id

structure WellFormed (q : Inner P O) : Prop where
  nodup : q.pendingIds.Nodup
  not_leased : ∀ id ∈ q.pendingIds, q.leased.get? id = none
  not_done : ∀ id ∈ q.pendingIds, q.done.get? id = none
  leased_not_done : ∀ id lease, q.leased.get? id = some lease → q.done.get? id = none
  leased_id : ∀ id lease, q.leased.get? id = some lease → lease.job.id = id

theorem new_wellFormed : (new : Inner P O).WellFormed where
  nodup := List.nodup_nil
  not_leased := fun _ h => nomatch h
  not_done := fun _ h => nomatch h
  leased_not_done := fun _ _ h => nomatch h
  leased_id := fun _ _ h => nomatch h

/-- Where a job is. -/
def phase (q : Inner P O) : Ledger String Assignment (CloudResult O) := fun id =>
  match q.done.get? id, q.leased.get? id with
  | some result, _ => some (.settled result)
  | none, some lease => some (.held lease.assignment lease.expires)
  | none, none => if id ∈ q.pendingIds then some .waiting else none

variable {q q' : Inner P O} {id : String} {result : CloudResult O} {lease : Leased P}
  {assignment : Assignment} {now : Nat} {order : List String} {job : CloudJob P}

theorem phase_congr (hdone : q'.done.get? id = q.done.get? id)
    (hleased : q'.leased.get? id = q.leased.get? id)
    (hpending : id ∈ q'.pendingIds ↔ id ∈ q.pendingIds) : q'.phase id = q.phase id := by
  simp only [phase, hdone, hleased, hpending]

theorem phase_of_done (h : q.done.get? id = some result) : q.phase id = some (.settled result) := by
  simp only [phase, h]

theorem phase_of_leased (hdone : q.done.get? id = none) (h : q.leased.get? id = some lease) :
    q.phase id = some (.held lease.assignment lease.expires) := by
  simp only [phase, hdone, h]

theorem phase_of_pending (hdone : q.done.get? id = none) (hleased : q.leased.get? id = none)
    (h : id ∈ q.pendingIds) : q.phase id = some .waiting := by
  simp only [phase, hdone, hleased, if_pos h]

theorem phase_of_absent (hdone : q.done.get? id = none) (hleased : q.leased.get? id = none)
    (h : id ∉ q.pendingIds) : q.phase id = none := by
  simp only [phase, hdone, hleased, if_neg h]

theorem done_of_phase (h : q.phase id = some (.settled result)) : q.done.get? id = some result := by
  unfold phase at h
  split at h
  · rename_i other hdone
    cases h
    exact hdone
  · cases h
  · split_ifs at h
    cases h

theorem leased_of_phase {due : Nat} (h : q.phase id = some (.held assignment due)) :
    ∃ lease, q.leased.get? id = some lease ∧ lease.assignment = assignment ∧
      lease.expires = due := by
  unfold phase at h
  split at h
  · cases h
  · rename_i lease _ hleased
    cases h
    exact ⟨lease, hleased, rfl, rfl⟩
  · split_ifs at h
    cases h

/-! ## Reclaiming -/

theorem mem_expired :
    id ∈ q.expired now ↔ ∃ lease, q.leased.get? id = some lease ∧ lease.expires ≤ now := by
  simp only [expired, List.mem_map, List.mem_filter, decide_eq_true_eq]
  constructor
  · rintro ⟨⟨key, lease⟩, ⟨hmem, hdue⟩, rfl⟩
    exact ⟨lease, q.leased.get?_eq_some_iff.mpr hmem, hdue⟩
  · rintro ⟨lease, hget, hdue⟩
    exact ⟨(id, lease), ⟨q.leased.get?_eq_some_iff.mp hget, hdue⟩, rfl⟩

/-- Different leases that have all elapsed. -/
structure Due (q : Inner P O) (now : Nat) (order : List String) : Prop where
  nodup : order.Nodup
  due : ∀ id ∈ order, ∃ lease, q.leased.get? id = some lease ∧ lease.expires ≤ now

theorem Due.of_perm (h : order.Perm (q.expired now)) : q.Due now order where
  nodup := h.nodup_iff.mpr (q.leased.nodup_keys.sublist (List.filter_sublist.map Prod.fst))
  due := fun _ hid => mem_expired.mp (h.mem_iff.mp hid)

theorem requeue_eq (h : q.leased.get? id = some lease) :
    q.requeue id = { q with pending := q.pending ++ [lease.job], leased := q.leased.erase id } := by
  simp only [requeue, h]

theorem requeue_wellFormed (hq : q.WellFormed) (h : q.leased.get? id = some lease) :
    (q.requeue id).WellFormed := by
  have hid := hq.leased_id id lease h
  have hids : (q.requeue id).pendingIds = q.pendingIds ++ [id] := by
    rw [requeue_eq h]
    simp [pendingIds, hid]
  have hleased : ∀ k, (q.requeue id).leased.get? k = if k = id then none else q.leased.get? k := by
    intro k
    rw [requeue_eq h]
    exact q.leased.get?_erase id k
  have hdone : (q.requeue id).done = q.done := by rw [requeue_eq h]
  constructor
  · rw [hids]
    have hnew : id ∉ q.pendingIds := fun hk => nomatch (hq.not_leased id hk).symm.trans h
    simpa using hq.nodup.concat hnew
  · intro k hk
    rw [hleased]
    split_ifs with hne
    · rfl
    · rw [hids, List.mem_append, List.mem_singleton] at hk
      exact hq.not_leased k (hk.resolve_right hne)
  · intro k hk
    rw [hdone]
    rw [hids, List.mem_append, List.mem_singleton] at hk
    rcases hk with hk | rfl
    · exact hq.not_done k hk
    · exact hq.leased_not_done k lease h
  · intro k other hk
    rw [hleased] at hk
    rw [hdone]
    split_ifs at hk with hne
    exact hq.leased_not_done k other hk
  · intro k other hk
    rw [hleased] at hk
    split_ifs at hk with hne
    exact hq.leased_id k other hk

theorem requeue_moves (hq : q.WellFormed) (h : q.leased.get? id = some lease)
    (hdue : lease.expires ≤ now) : Step (.giveBack id now) q.phase (q.requeue id).phase := by
  have hdone := hq.leased_not_done id lease h
  have hid := hq.leased_id id lease h
  have hphase : (q.requeue id).phase = Function.update q.phase id (some .waiting) := by
    rw [requeue_eq h, Function.eq_update_iff]
    refine ⟨phase_of_pending hdone ?_ (by simp [pendingIds, hid]), fun k hk => ?_⟩
    · exact (q.leased.get?_erase id id).trans (if_pos rfl)
    · refine phase_congr rfl ((q.leased.get?_erase id k).trans (if_neg hk)) ?_
      simp [pendingIds, hid, hk]
  rw [hphase]
  exact Step.giveBack now (phase_of_leased hdone h) hdue

theorem Due.requeue (h : q.Due now (id :: order)) (hlease : q.leased.get? id = some lease) :
    (q.requeue id).Due now order := by
  obtain ⟨hfresh, hnodup⟩ := List.nodup_cons.mp h.nodup
  refine ⟨hnodup, fun k hk => ?_⟩
  obtain ⟨other, hother, hdue⟩ := h.due k (List.mem_cons_of_mem _ hk)
  refine ⟨other, ?_, hdue⟩
  rw [requeue_eq hlease]
  have hne : k ≠ id := fun heq => hfresh (heq ▸ hk)
  exact (q.leased.get?_erase id k).trans ((if_neg hne).trans hother)

theorem reclaim_moves (order : List String) (hq : q.WellFormed) (h : q.Due now order) :
    Moves (order.map fun id => .giveBack id now) q.phase (q.reclaim order).phase
      ∧ (q.reclaim order).WellFormed := by
  induction order generalizing q with
  | nil => exact ⟨Moves.nil _, hq⟩
  | cons id order ih =>
    obtain ⟨lease, hlease, hdue⟩ := h.due id List.mem_cons_self
    obtain ⟨hmoves, hwf⟩ := ih (requeue_wellFormed hq hlease) (h.requeue hlease)
    exact ⟨Moves.cons (requeue_moves hq hlease hdue) hmoves, hwf⟩

/-- The jobs of the leases found go behind the pending ones. -/
theorem reclaim_pending (order : List String) (h : q.Due now order) : (q.reclaim order).pending
      = q.pending ++ order.filterMap fun id => (q.leased.get? id).map Leased.job := by
  induction order generalizing q with
  | nil => exact (List.append_nil _).symm
  | cons id order ih =>
    obtain ⟨lease, hlease, _⟩ := h.due id List.mem_cons_self
    have hrest := ih (h.requeue hlease)
    have hsame : (order.filterMap fun k => ((q.requeue id).leased.get? k).map Leased.job)
        = order.filterMap fun k => (q.leased.get? k).map Leased.job := by
      refine List.filterMap_congr fun k hk => ?_
      have hne : k ≠ id := fun heq => (List.nodup_cons.mp h.nodup).1 (heq ▸ hk)
      rw [requeue_eq hlease]
      exact congrArg _ ((q.leased.get?_erase id k).trans (if_neg hne))
    rw [List.filterMap_cons, hlease, Option.map_some]
    rw [hsame, requeue_eq hlease, List.append_assoc] at hrest
    rw [← List.singleton_append]
    exact (congrArg (fun q' => (q'.reclaim order).pending) (requeue_eq hlease)).trans hrest

theorem reclaim_leased (order : List String) (q : Inner P O) (id : String) :
    (q.reclaim order).leased.get? id = if id ∈ order then none else q.leased.get? id := by
  unfold reclaim
  induction order generalizing q with
  | nil => rfl
  | cons first order ih =>
    have hrequeue : (q.requeue first).leased.get? id
        = if id = first then none else q.leased.get? id := by
      unfold requeue
      split
      · exact q.leased.get?_erase first id
      · rename_i hnone
        split_ifs with hid
        · rw [hid, hnone]
        · rfl
    rw [List.foldl_cons, ih, hrequeue]
    by_cases hfirst : id = first
    · simp [hfirst]
    · simp [hfirst]

theorem reclaim_nextGeneration (order : List String) (q : Inner P O) :
    (q.reclaim order).nextGeneration = q.nextGeneration := by
  unfold reclaim
  induction order generalizing q with
  | nil => rfl
  | cons id order ih =>
    rw [List.foldl_cons, ih (q.requeue id)]
    unfold requeue
    split <;> rfl

/-! ## Handing out -/

variable {pending : List (CloudJob P)} {workerId : String}

theorem best_eq_none : best pending = none ↔ pending = [] := by
  rw [best, maxBy_eq_none, List.zipIdx_eq_nil_iff]

/-- Nothing before the chosen job has its priority, nothing after it has more. -/
theorem best_eq_some {idx : Nat} (h : best pending = some (job, idx)) :
    ∃ before after, pending = before ++ job :: after ∧ before.length = idx
      ∧ (∀ other ∈ before, other.priority < job.priority)
      ∧ ∀ other ∈ after, other.priority ≤ job.priority := by
  obtain ⟨hmem, hmax⟩ := maxBy_eq_some h
  have hget : pending[idx]? = some job := by
    simpa using List.mem_zipIdx_iff_getElem?.mp hmem
  obtain ⟨hlt, hjob⟩ := List.getElem?_eq_some_iff.mp hget
  -- the key orders by priority first
  have hle : ∀ (i : Nat) (other : CloudJob P), pending[i]? = some other →
      other.priority < job.priority ∨ other.priority = job.priority ∧ idx ≤ i := by
    intro i other hother
    have hkey := hmax (other, i) (List.mem_zipIdx_iff_getElem?.mpr (by simpa using hother))
    exact (Prod.Lex.toLex_le_toLex).mp hkey
  refine ⟨pending.take idx, pending.drop (idx + 1), ?_, by simp [hlt.le], fun other hother => ?_,
    fun other hother => ?_⟩
  · rw [← hjob, ← List.drop_eq_getElem_cons hlt, List.take_append_drop]
  · obtain ⟨i, hi⟩ := List.mem_iff_getElem?.mp hother
    rw [List.getElem?_take] at hi
    split_ifs at hi with hlt'
    rcases hle i other hi with hless | ⟨_, hge⟩
    · exact hless
    · omega
  · obtain ⟨i, hi⟩ := List.mem_iff_getElem?.mp hother
    rw [List.getElem?_drop] at hi
    rcases hle _ other hi with hless | ⟨heq, _⟩
    · exact hless.le
    · exact heq.le

/-- What a claim does to the queue it finds after reclaiming. -/
theorem claim_eq_some {leaseSecs : Nat} {claimed : ClaimedJob P}
    (h : q.claim workerId leaseSecs now order = (q', some claimed)) :
    ∃ before after, (q.reclaim order).pending = before ++ claimed.job :: after
      ∧ (∀ other ∈ before, other.priority < claimed.job.priority)
      ∧ (∀ other ∈ after, other.priority ≤ claimed.job.priority)
      ∧ claimed.assignment = ⟨workerId, min (q.nextGeneration + 1) maxGeneration⟩
      ∧ q' = { q.reclaim order with
          pending := before ++ after
          leased := (q.reclaim order).leased.insert claimed.job.id
            ⟨claimed.job, now + fromSecs leaseSecs, claimed.assignment⟩
          nextGeneration := claimed.assignment.generation } := by
  unfold claim at h
  dsimp only at h
  split at h
  · cases h
  · rename_i job idx hbest
    obtain ⟨before, after, hpending, hlength, hbefore, hafter⟩ := best_eq_some hbest
    cases h
    refine ⟨before, after, hpending, hbefore, hafter, ?_, ?_⟩
    · rw [reclaim_nextGeneration order q]
    · rw [hpending, List.eraseIdx_append_of_length_le (by omega)]
      simp [hlength]

theorem claim_eq_none {leaseSecs : Nat} (h : q.claim workerId leaseSecs now order = (q', none)) :
    (q.reclaim order).pending = [] ∧ q' = q.reclaim order := by
  unfold claim at h
  dsimp only at h
  split at h
  · rename_i hbest
    cases h
    exact ⟨best_eq_none.mp hbest, rfl⟩
  · cases h

/-- The job between `before` and `after` goes out under a lease. -/
theorem take_moves (hq : q.WellFormed) {before after : List (CloudJob P)}
    (hpending : q.pending = before ++ job :: after) (assignment : Assignment)
    (due generation : Nat) :
    let q' := { q with
      pending := before ++ after
      leased := q.leased.insert job.id ⟨job, due, assignment⟩
      nextGeneration := generation }
    Step (.take job.id assignment due) q.phase q'.phase ∧ q'.WellFormed := by
  intro q'
  have hids : q.pendingIds = before.map CloudJob.id ++ job.id :: after.map CloudJob.id := by
    simp [pendingIds, hpending]
  have hids' : q'.pendingIds = before.map CloudJob.id ++ after.map CloudJob.id := by
    simp [pendingIds, q']
  have hmem : job.id ∈ q.pendingIds := by simp [hids]
  have hnodup : (job.id :: q'.pendingIds).Nodup := by
    rw [hids']
    exact List.perm_middle.nodup_iff.mp (hids ▸ hq.nodup)
  obtain ⟨hfresh, hnodup'⟩ := List.nodup_cons.mp hnodup
  have hkeep : ∀ k, k ∈ q.pendingIds ↔ k = job.id ∨ k ∈ q'.pendingIds := by
    intro k
    simp only [hids, hids', List.mem_append, List.mem_cons]
    tauto
  have hleased : ∀ k, k ≠ job.id → q'.leased.get? k = q.leased.get? k := fun k hk =>
    q.leased.get?_insert_ne _ hk
  have hself : q'.leased.get? job.id = some ⟨job, due, assignment⟩ :=
    q.leased.get?_insert_self _ _
  constructor
  · have hdone : q'.done.get? job.id = none := hq.not_done _ hmem
    have hphase : q'.phase = Function.update q.phase job.id (some (.held assignment due)) :=
      Function.eq_update_iff.mpr ⟨phase_of_leased hdone hself, fun k hk =>
        phase_congr rfl (hleased k hk) (by rw [hkeep]; simp [hk])⟩
    rw [hphase]
    exact Step.take assignment due
      (phase_of_pending (hq.not_done _ hmem) (hq.not_leased _ hmem) hmem)
  · refine ⟨hnodup', fun k hk => ?_, fun k hk => hq.not_done k ((hkeep k).mpr (Or.inr hk)),
      fun k lease hk => ?_, fun k lease hk => ?_⟩
    · have hne : k ≠ job.id := fun heq => hfresh (heq ▸ hk)
      exact (hleased k hne).trans (hq.not_leased k ((hkeep k).mpr (Or.inr hk)))
    · by_cases hne : k = job.id
      · rw [hne]
        exact hq.not_done _ hmem
      · exact hq.leased_not_done k lease ((hleased k hne).symm.trans hk)
    · by_cases hne : k = job.id
      · rw [hne, hself, Option.some_inj] at hk
        rw [hne, ← hk]
      · exact hq.leased_id k lease ((hleased k hne).symm.trans hk)

/-! ## Accepting and settling -/

variable {error : CloudError}

theorem enqueue_eq_ok (h : q.enqueue job = (q', .ok ())) :
    q.leased.get? job.id = none ∧ q.done.get? job.id = none ∧ job.id ∉ q.pendingIds
      ∧ q' = { q with pending := q.pending ++ [job] } := by
  unfold enqueue at h
  split_ifs at h with hsafe hdup
  · cases h
  · cases h
  · cases h
    simp only [Bool.or_eq_true, not_or, Bool.not_eq_true, List.any_eq_false, decide_eq_true_eq]
      at hdup
    obtain ⟨⟨hleased, hdone⟩, hpending⟩ := hdup
    refine ⟨q.leased.contains_eq_false_iff.mp hleased, q.done.contains_eq_false_iff.mp hdone,
      fun hmem => ?_, rfl⟩
    obtain ⟨other, hother, hid⟩ := List.mem_map.mp hmem
    exact hpending other hother hid

theorem enqueue_eq_error (h : q.enqueue job = (q', .error error)) :
    q' = q := by
  unfold enqueue at h
  split_ifs at h <;> cases h <;> rfl

theorem add_moves (hq : q.WellFormed) (hleased : q.leased.get? job.id = none)
    (hdone : q.done.get? job.id = none) (hfresh : job.id ∉ q.pendingIds) :
    let q' := { q with pending := q.pending ++ [job] }
    Step (.add job.id) q.phase q'.phase ∧ q'.WellFormed := by
  intro q'
  have hids : q'.pendingIds = q.pendingIds ++ [job.id] := by simp [pendingIds, q']
  have hmem : ∀ k, k ∈ q'.pendingIds ↔ k ∈ q.pendingIds ∨ k = job.id := by simp [hids]
  constructor
  · have hdone' : q'.done.get? job.id = none := hdone
    have hphase : q'.phase = Function.update q.phase job.id (some .waiting) :=
      Function.eq_update_iff.mpr ⟨phase_of_pending hdone' hleased ((hmem _).mpr (Or.inr rfl)),
        fun k hk => phase_congr rfl rfl (by rw [hmem]; simp [hk])⟩
    rw [hphase]
    exact Step.add (phase_of_absent hdone hleased hfresh)
  · refine ⟨?_, fun k hk => ?_, fun k hk => ?_, hq.leased_not_done, hq.leased_id⟩
    · rw [hids]
      simpa using hq.nodup.concat hfresh
    · rcases (hmem k).mp hk with hk | rfl
      · exact hq.not_leased k hk
      · exact hleased
    · rcases (hmem k).mp hk with hk | rfl
      · exact hq.not_done k hk
      · exact hdone

/-- A job leaves the pending and the leased ones and gets its result. -/
structure Settles (q q' : Inner P O) (id : String) (result : CloudResult O) : Prop where
  pending : q'.pendingIds.Sublist q.pendingIds
  gone : id ∉ q'.pendingIds
  kept : ∀ k ∈ q.pendingIds, k ≠ id → k ∈ q'.pendingIds
  leased : q'.leased = q.leased.erase id
  done : q'.done = q.done.insert id result

theorem Settles.of_erase (hnodup : q.pendingIds.Nodup)
    (hids : q'.pendingIds = q.pendingIds.erase id) (hleased : q'.leased = q.leased.erase id)
    (hdone : q'.done = q.done.insert id result) : Settles q q' id result where
  pending := hids ▸ List.erase_sublist
  gone := hids ▸ fun hmem => (hnodup.mem_erase_iff.mp hmem).1 rfl
  kept := fun _ hk hne => hids ▸ hnodup.mem_erase_iff.mpr ⟨hne, hk⟩
  leased := hleased
  done := hdone

theorem settle_moves (hq : q.WellFormed) (h : Settles q q' id result)
    (hopen : id ∈ q.pendingIds ∨ ∃ lease, q.leased.get? id = some lease) :
    Step (.settle id result) q.phase q'.phase ∧ q'.WellFormed := by
  have hleased : ∀ k, q'.leased.get? k = if k = id then none else q.leased.get? k := by
    intro k
    rw [h.leased]
    exact q.leased.get?_erase id k
  have hself : q'.done.get? id = some result := by
    rw [h.done]
    exact q.done.get?_insert_self id result
  have hdone : ∀ k, k ≠ id → q'.done.get? k = q.done.get? k := by
    intro k hk
    rw [h.done]
    exact q.done.get?_insert_ne result hk
  constructor
  · have hphase : q'.phase = Function.update q.phase id (some (.settled result)) := by
      refine Function.eq_update_iff.mpr ⟨phase_of_done hself, fun k hk => ?_⟩
      refine phase_congr (hdone k hk) ((hleased k).trans (if_neg hk)) ?_
      exact ⟨fun hmem => h.pending.subset hmem, fun hmem => h.kept k hmem hk⟩
    rw [hphase]
    refine Step.settle result ?_
    rcases hopen with hmem | ⟨lease, hlease⟩
    · exact Or.inl (phase_of_pending (hq.not_done id hmem) (hq.not_leased id hmem) hmem)
    · exact Or.inr ⟨_, _, phase_of_leased (hq.leased_not_done id lease hlease) hlease⟩
  · refine ⟨hq.nodup.sublist h.pending, fun k hk => ?_, fun k hk => ?_, fun k lease hk => ?_,
      fun k lease hk => ?_⟩
    · rw [hleased]
      split_ifs
      · rfl
      · exact hq.not_leased k (h.pending.subset hk)
    · have hne : k ≠ id := fun heq => h.gone (heq ▸ hk)
      exact (hdone k hne).trans (hq.not_done k (h.pending.subset hk))
    · rw [hleased] at hk
      split_ifs at hk with hne
      exact (hdone k hne).trans (hq.leased_not_done k lease hk)
    · rw [hleased] at hk
      split_ifs at hk with hne
      exact hq.leased_id k lease hk

theorem complete_eq_ok (h : q.complete assignment result order = (q', .ok ())) :
    (∃ lease, (q.reclaim order).leased.get? result.jobId = some lease
        ∧ lease.assignment = assignment)
      ∧ q' = { q.reclaim order with
          leased := (q.reclaim order).leased.erase result.jobId
          done := (q.reclaim order).done.insert result.jobId
            { result with assignment := some assignment } } := by
  unfold complete at h
  dsimp only at h
  split_ifs at h with hfence
  · cases h
    rw [Option.any_eq_true] at hfence
    obtain ⟨lease, hlease, heq⟩ := hfence
    exact ⟨⟨lease, hlease, of_decide_eq_true heq⟩, rfl⟩
  · cases h

theorem complete_eq_error (h : q.complete assignment result order = (q', .error error)) :
    (∀ lease, (q.reclaim order).leased.get? result.jobId = some lease →
        lease.assignment ≠ assignment)
      ∧ q' = q.reclaim order := by
  unfold complete at h
  dsimp only at h
  split_ifs at h with hfence
  · cases h
  · cases h
    refine ⟨fun lease hlease heq => hfence ?_, rfl⟩
    rw [hlease]
    exact decide_eq_true heq

theorem complete_settles (hq : q.WellFormed) {stored : CloudResult O}
    (h : q.leased.get? result.jobId = some lease) : Settles q { q with
      leased := q.leased.erase result.jobId
      done := q.done.insert result.jobId stored } result.jobId stored where
  pending := List.Sublist.refl _
  gone := fun hmem => nomatch (hq.not_leased _ hmem).symm.trans h
  kept := fun _ hk _ => hk
  leased := rfl
  done := rfl

theorem erase_of_absent (h : q.leased.get? id = none) : q.leased.erase id = q.leased := by
  refine BTreeMap.ext_get? fun k => ?_
  rw [BTreeMap.get?_erase]
  split_ifs with hk
  · rw [hk, h]
  · rfl

theorem cancel_eq_true (hq : q.WellFormed) {jobId reason : String}
    (h : q.cancel jobId reason = (q', true)) :
    (jobId ∈ q.pendingIds ∨ ∃ lease, q.leased.get? jobId = some lease)
      ∧ Settles q q' jobId (CloudResult.cancelled jobId reason) := by
  unfold cancel at h
  dsimp only at h
  cases hplace : q.pending.findIdx? fun job => decide (job.id = jobId) with
  | none =>
    rw [hplace] at h
    have hno : jobId ∉ q.pendingIds := by
      intro hmem
      obtain ⟨job, hjob, hid⟩ := List.mem_map.mp hmem
      have hnone := List.findIdx?_eq_none_iff.mp hplace job hjob
      exact of_decide_eq_false hnone hid
    split_ifs at h with hdone hexisted
    · cases h
    · cases h
      refine ⟨Or.inr (q.leased.contains_iff.mp (by simpa using hexisted)), ?_⟩
      exact ⟨List.Sublist.refl _, hno, fun k hk _ => hk, rfl, rfl⟩
    · cases h
  | some idx =>
    rw [hplace] at h
    obtain ⟨hlt, hid, _⟩ := List.findIdx?_eq_some_iff_getElem.mp hplace
    have hid : q.pending[idx].id = jobId := of_decide_eq_true hid
    have hids : q.pendingIds[idx]? = some jobId := by simp [pendingIds, hlt, hid]
    have herase : (q.pending.eraseIdx idx).map CloudJob.id = q.pendingIds.erase jobId := by
      obtain ⟨hlt', heq⟩ := List.getElem?_eq_some_iff.mp hids
      have hidx : q.pendingIds.idxOf jobId = idx := by
        rw [← heq]
        exact hq.nodup.idxOf_getElem idx hlt'
      rw [List.erase_eq_eraseIdx_of_idxOf hidx, pendingIds, List.eraseIdx_map]
    split_ifs at h with hdone hexisted
    · cases h
    · cases h
      exact ⟨Or.inl (List.mem_of_getElem? hids), Settles.of_erase hq.nodup herase rfl rfl⟩
    · exact absurd rfl hexisted

theorem cancel_eq_false {jobId reason : String} (h : q.cancel jobId reason = (q', false)) :
    q' = q := by
  unfold cancel at h
  dsimp only at h
  split_ifs at h with hdone hexisted
  · cases h
    rfl
  · cases h
  · simp only [Bool.or_eq_true, not_or, Bool.not_eq_true, Option.isSome_eq_false_iff,
      Option.isNone_iff_eq_none] at hexisted
    rw [hexisted.1, erase_of_absent (q.leased.contains_eq_false_iff.mp hexisted.2)] at h
    cases h
    rfl

end Inner

/-! ## Runs move the ledger -/

variable {order : List String}

/-- What a call did, as its reply tells. -/
def Event.deed (event : Event P O) : Option (Move String Assignment (CloudResult O)) :=
  match event.call, event.reply with
  | .enqueue job, .enqueued (.ok ()) => some (.add job.id)
  | .claim _ leaseSecs, .claimed (some claimed) =>
    some (.take claimed.job.id claimed.assignment (event.now + fromSecs leaseSecs))
  | .complete assignment result, .completed (.ok ()) =>
    some (.settle result.jobId { result with assignment := some assignment })
  | .cancel jobId reason, .cancelled true =>
    some (.settle jobId (CloudResult.cancelled jobId reason))
  | _, _ => none

/-- The moves of a call: the expired leases it found, then what it did. -/
def Event.moves (event : Event P O) : List (Move String Assignment (CloudResult O)) :=
  event.order.map (fun id => .giveBack id event.now) ++ event.deed.toList

theorem Possible.due {q : Inner P O} {clock clock' now : Nat} {call : Call P O}
    (h : Possible q clock clock' call now order) : q.Due now order := by
  have hfound := h.found
  split_ifs at hfound with hkeeps
  · rw [hfound]
    exact ⟨List.nodup_nil, fun _ hid => nomatch hid⟩
  · exact Inner.Due.of_perm hfound

/-- A call moves the ledger as its event tells. -/
theorem run_moves {q : Inner P O} (hq : q.WellFormed) {clock clock' now : Nat} {call : Call P O}
    (h : Possible q clock clock' call now order) :
    Moves (Event.moves ⟨call, now, order, (q.run call now order).2⟩) q.phase
        (q.run call now order).1.phase
      ∧ (q.run call now order).1.WellFormed := by
  obtain ⟨hback, hwf⟩ := Inner.reclaim_moves order hq h.due
  have hfound := h.found
  unfold Event.moves Event.deed
  cases call with
  | enqueue job =>
    cases hfound
    simp only [Inner.run, List.map_nil, List.nil_append]
    rcases hcall : q.enqueue job with ⟨q', (error | ⟨⟩)⟩
    · rw [Inner.enqueue_eq_error hcall]
      exact ⟨Moves.nil _, hq⟩
    · obtain ⟨hleased, hdone, hfresh, rfl⟩ := Inner.enqueue_eq_ok hcall
      obtain ⟨hstep, hwf'⟩ := Inner.add_moves hq hleased hdone hfresh
      exact ⟨Moves.single hstep, hwf'⟩
  | claim workerId leaseSecs =>
    simp only [Inner.run]
    rcases hcall : q.claim workerId leaseSecs now order with ⟨q', (_ | claimed)⟩
    · rw [(Inner.claim_eq_none hcall).2]
      exact ⟨hback.append (Moves.nil _), hwf⟩
    · obtain ⟨before, after, hpending, _, _, _, rfl⟩ := Inner.claim_eq_some hcall
      obtain ⟨hstep, hwf'⟩ := Inner.take_moves hwf hpending claimed.assignment
        (now + fromSecs leaseSecs) claimed.assignment.generation
      exact ⟨hback.append (Moves.single hstep), hwf'⟩
  | complete assignment result =>
    simp only [Inner.run]
    rcases hcall : q.complete assignment result order with ⟨q', (error | ⟨⟩)⟩
    · rw [(Inner.complete_eq_error hcall).2]
      exact ⟨hback.append (Moves.nil _), hwf⟩
    · obtain ⟨⟨lease, hlease, _⟩, rfl⟩ := Inner.complete_eq_ok hcall
      obtain ⟨hstep, hwf'⟩ := Inner.settle_moves hwf (Inner.complete_settles hwf hlease)
        (Or.inr ⟨lease, hlease⟩)
      exact ⟨hback.append (Moves.single hstep), hwf'⟩
  | cancel jobId reason =>
    cases hfound
    simp only [Inner.run, List.map_nil, List.nil_append]
    rcases hcall : q.cancel jobId reason with ⟨q', (_ | _)⟩
    · rw [Inner.cancel_eq_false hcall]
      exact ⟨Moves.nil _, hq⟩
    · obtain ⟨hopen, hsettles⟩ := Inner.cancel_eq_true hq hcall
      obtain ⟨hstep, hwf'⟩ := Inner.settle_moves hq hsettles hopen
      exact ⟨Moves.single hstep, hwf'⟩
  | status jobId => exact ⟨hback.append (Moves.nil _), hwf⟩
  | reclaimExpired => exact ⟨hback.append (Moves.nil _), hwf⟩

end Blut.Cloud
