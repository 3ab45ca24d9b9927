/-
  What reconciliation decides.

  An unresolved stage gets one action, and a result is adopted only as it was reported and
  expected. The action is taken from the first report on the stage, so where one peer does not know
  the stage and another claims it, the order of the reports decides whether claimed work is
  dispatched again. Without such a pair reconciliation is sound, and only then
  (`reconcile_sound_iff`).
-/
import Blut.Raft.HighAvailability

namespace Blut.Raft

open Blut.Lib HaScheduler

/-- The stage an action is about. -/
def ReconcileAction.stage : ReconcileAction → String
  | .adopt stage _ => stage
  | .keepRunning stage _ => stage
  | .redispatch stage => stage
  | .rejectedMismatch stage _ _ => stage

/-- What reconciliation promises for a state and the reports of the live peers. -/
structure Reconciles (state : SchedulerState) (reports : List PeerReport) : Prop where
  /-- one action for each unresolved stage -/
  each : (reconcileActions state reports).map ReconcileAction.stage = state.unresolved
    ∧ state.unresolved.Nodup
  /-- claimed work is not dispatched again -/
  unclaimed : ∀ stage, .redispatch stage ∈ reconcileActions state reports →
    ∀ report ∈ reports, report.stage = stage → report.state = .absent
  adopted : ∀ stage hash, .adopt stage hash ∈ reconcileActions state reports →
    (∃ report ∈ reports, report.stage = stage ∧ report.state = .complete hash)
      ∧ ∀ expected, (state.record stage).expected = some expected → hash = expected
  /-- another order of the reports dispatches nothing more -/
  permuted : ∀ reports', reports'.Perm reports → ∀ stage,
    .redispatch stage ∈ reconcileActions state reports' →
      .redispatch stage ∈ reconcileActions state reports

/-- Of the reports on an unresolved stage, all know it or none does. -/
def Unanimous (state : SchedulerState) (reports : List PeerReport) : Prop :=
  ∀ stage ∈ state.unresolved,
    (∀ report ∈ reports, report.stage = stage → report.state = .absent)
      ∨ ∀ report ∈ reports, report.stage = stage → report.state ≠ .absent

/-! ## Actions -/

variable {state : SchedulerState} {report : PeerReport}

theorem stage_reconcileAction (record : StageRecord) (stage : String) (report : Option PeerReport) :
    (reconcileAction record stage report).stage = stage := by
  unfold reconcileAction
  split
  · split
    · split
      · split_ifs <;> rfl
      · rfl
    · rfl
    · rfl
  · rfl

variable {stage : String} {reports : List PeerReport}

/-- A stage is dispatched again when the first report on it is that it is absent, or there is
    none. -/
theorem reconcileAction_eq_redispatch {record : StageRecord} {stage' : String}
    {report : Option PeerReport} : reconcileAction record stage report = .redispatch stage' ↔
      stage = stage' ∧ ∀ r, report = some r → r.state = .absent := by
  unfold reconcileAction
  cases report with
  | none => simp
  | some r =>
    obtain ⟨s, peer, state⟩ := r
    cases state with
    | complete hash =>
      cases record.expected with
      | none => simp
      | some expected =>
        dsimp only
        split_ifs <;> simp
    | running => simp
    | absent => simp

theorem reconcileAction_eq_adopt {record : StageRecord} {stage' hash : String}
    {report : Option PeerReport} (h : reconcileAction record stage report = .adopt stage' hash) :
    stage = stage' ∧ (∃ r, report = some r ∧ r.state = .complete hash)
      ∧ ∀ expected, record.expected = some expected → hash = expected := by
  unfold reconcileAction at h
  cases report with
  | none => cases h
  | some r =>
    obtain ⟨s, peer, state⟩ := r
    cases state with
    | complete hash' =>
      cases hexpected : record.expected with
      | none =>
        rw [hexpected] at h
        cases h
        exact ⟨rfl, ⟨_, rfl, rfl⟩, fun _ heq => nomatch heq⟩
      | some expected =>
        rw [hexpected] at h
        dsimp only at h
        split_ifs at h with hne
        cases h
        refine ⟨rfl, ⟨_, rfl, rfl⟩, fun _ heq => ?_⟩
        rw [← Option.some.inj heq]
        exact (not_not.mp hne).symm
    | running => cases h
    | absent => cases h

theorem unresolved_nodup (state : SchedulerState) : state.unresolved.Nodup := by
  have hkeys : (state.stages.entries.map Prod.fst).Nodup := state.stages.nodup_keys
  exact hkeys.sublist (List.filter_sublist.map _)

theorem mem_of_find_report {r : PeerReport}
    (h : reports.find? (fun report => report.stage = stage) = some r) :
    r ∈ reports ∧ r.stage = stage :=
  ⟨List.mem_of_find?_eq_some h, by simpa using List.find?_some h⟩

theorem exists_find_report (h : report ∈ reports) :
    ∃ r, reports.find? (fun r => r.stage = report.stage) = some r := by
  rw [← Option.isSome_iff_exists, List.find?_isSome]
  exact ⟨report, h, decide_eq_true rfl⟩

theorem mem_redispatch :
    .redispatch stage ∈ reconcileActions state reports ↔ stage ∈ state.unresolved
      ∧ ∀ r, reports.find? (fun report => report.stage = stage) = some r → r.state = .absent := by
  unfold reconcileActions
  rw [List.mem_map]
  constructor
  · rintro ⟨s, hs, haction⟩
    obtain ⟨rfl, hreport⟩ := reconcileAction_eq_redispatch.mp haction
    exact ⟨hs, hreport⟩
  · rintro ⟨hs, hreport⟩
    exact ⟨stage, hs, reconcileAction_eq_redispatch.mpr ⟨rfl, hreport⟩⟩

/-! ## Reconciliation -/

theorem reconcile_each (state : SchedulerState) (reports : List PeerReport) :
    (reconcileActions state reports).map ReconcileAction.stage = state.unresolved
      ∧ state.unresolved.Nodup := by
  refine ⟨?_, unresolved_nodup state⟩
  unfold reconcileActions
  rw [List.map_map]
  conv_rhs => rw [← List.map_id state.unresolved]
  exact List.map_congr_left fun stage _ => stage_reconcileAction _ _ _

theorem reconcile_adopted {hash : String} (h : .adopt stage hash ∈ reconcileActions state reports) :
    (∃ report ∈ reports, report.stage = stage ∧ report.state = .complete hash)
      ∧ ∀ expected, (state.record stage).expected = some expected → hash = expected := by
  obtain ⟨s, -, haction⟩ := List.mem_map.mp h
  obtain ⟨rfl, ⟨r, hfind, hcomplete⟩, hexpected⟩ := reconcileAction_eq_adopt haction
  obtain ⟨hmem, hof⟩ := mem_of_find_report hfind
  exact ⟨⟨r, hmem, hof, hcomplete⟩, hexpected⟩

/-- Among reports that disagree on a stage, an order puts an absence first. -/
theorem exists_perm_absent_first (h : report ∈ reports) :
    ∃ reports' : List PeerReport, reports'.Perm reports
      ∧ reports'.find? (fun r => r.stage = report.stage) = some report := by
  refine ⟨report :: reports.erase report, (List.perm_cons_erase h).symm, ?_⟩
  rw [List.find?_cons_of_pos]
  exact decide_eq_true rfl

/-- Reconciliation keeps its promises exactly where the reports on each unresolved stage agree on
    whether it is known. -/
theorem reconcile_sound_iff (state : SchedulerState) (reports : List PeerReport) :
    Reconciles state reports ↔ Unanimous state reports := by
  constructor
  · intro h stage hstage
    by_contra hmixed
    push Not at hmixed
    obtain ⟨⟨known, hknown, hof, hclaims⟩, absent, habsent, hof', habs⟩ := hmixed
    -- an order with the absence first dispatches the stage again, and so would this one
    obtain ⟨reports', hperm, hfind⟩ := exists_perm_absent_first habsent
    have hredispatch : .redispatch stage ∈ reconcileActions state reports' := by
      refine mem_redispatch.mpr ⟨hstage, fun r hr => ?_⟩
      rw [hof'] at hfind
      rw [hfind] at hr
      rw [← Option.some.inj hr]
      exact habs
    exact hclaims (h.unclaimed stage (h.permuted reports' hperm stage hredispatch) known hknown hof)
  · intro h
    refine ⟨reconcile_each state reports, fun stage hredispatch => ?_,
      fun stage hash => reconcile_adopted, fun reports' hperm stage hredispatch => ?_⟩
    · obtain ⟨hstage, hfirst⟩ := mem_redispatch.mp hredispatch
      rcases h stage hstage with habsent | hknown
      · exact habsent
      · -- a report on the stage would make the first one known
        intro report hreport hof
        exfalso
        obtain ⟨r, hr⟩ := exists_find_report hreport
        rw [hof] at hr
        obtain ⟨hmem, hof'⟩ := mem_of_find_report hr
        exact hknown r hmem hof' (hfirst r hr)
    · obtain ⟨hstage, hfirst⟩ := mem_redispatch.mp hredispatch
      refine mem_redispatch.mpr ⟨hstage, fun r hr => ?_⟩
      obtain ⟨hmem, hof⟩ := mem_of_find_report hr
      rcases h stage hstage with habsent | hknown
      · exact habsent r hmem hof
      · exfalso
        obtain ⟨r', hr'⟩ := exists_find_report (hperm.mem_iff.mpr hmem)
        rw [hof] at hr'
        obtain ⟨hmem', hof'⟩ := mem_of_find_report hr'
        exact hknown r' (hperm.mem_iff.mp hmem') hof' (hfirst r' hr')

/-- A peer that does not know the stage is listed before the one that runs it. -/
theorem claimed_work_redispatched :
    let state := SchedulerState.ofLog [⟨1, .dispatch "s" "p" none⟩]
    let reports := [⟨"s", "q", .absent⟩, ⟨"s", "p", .running⟩]
    reconcileActions state reports = [.redispatch "s"] ∧ ¬ Reconciles state reports := by
  intro state reports
  have hactions : reconcileActions state reports = [.redispatch "s"] := by decide +kernel
  refine ⟨hactions, fun h => ?_⟩
  have hclaim := h.unclaimed "s" (by rw [hactions]; exact List.mem_singleton_self _)
    ⟨"s", "p", .running⟩ (by simp [reports]) rfl
  cases hclaim

end Blut.Raft
