/-
  Runs of one plan compared.

  Two runs of the parallel executor return the same, whatever their schedules, their limits and
  their fusion (`schedule_independent`).
-/
import Blut.Framework.Sequential

namespace Blut.Framework

open Blut.Lib

variable {V Key : Type}

/-! ## One program -/

/-- Two ways to run one plan with the same stages. -/
structure SameProgram (setup setup' : Setup V Key) : Prop where
  plan : setup.plan = setup'.plan
  runtime : setup.runtime = setup'.runtime
  strict : setup.ctx.strictAdvisory = setup'.ctx.strictAdvisory

section Same

variable {setup setup' : Setup V Key} {answer answer' : Answer V}

theorem SameProgram.order (h : SameProgram setup setup') : setup.order = setup'.order := by
  have hok := setup.ordered
  rw [h.plan, setup'.ordered] at hok
  exact (Except.ok.inj hok).symm

theorem SameProgram.fates (h : SameProgram setup setup')
    (hanswer : ∀ n < setup.plan.nodes.length, answer n = answer' n) :
    setup.fates answer = setup'.fates answer' := by
  unfold Setup.fates
  rw [fateRule_congr _ _ hanswer, h.plan, h.runtime, h.strict, h.order]

theorem SameProgram.denoted (h : SameProgram setup setup')
    (hanswer : ∀ n < setup.plan.nodes.length, answer n = answer' n) :
    setup.denoted answer = setup'.denoted answer' := by
  have hfates := h.fates hanswer
  have hwarning : setup.warningOf answer = setup'.warningOf answer' := by
    funext n
    unfold Setup.warningOf
    rw [hfates, h.plan, h.order]
  have hterminal : setup.conditionalTerminal = setup'.conditionalTerminal := by
    unfold Setup.conditionalTerminal
    rw [h.plan, h.order]
  have hcandidates : setup.outputCandidates = setup'.outputCandidates := by
    funext terminal
    unfold Setup.outputCandidates
    rw [h.plan]
  have hchosen : setup.chosenOutput = setup'.chosenOutput := by
    funext clean order outputs
    unfold Setup.chosenOutput
    rw [hterminal, hcandidates]
  unfold Setup.denoted
  rw [hfates, hwarning, hchosen, h.order]

/-- With sound keys it does not matter what comes from the cache. -/
theorem Consults.agree {stages : Behaviour V} (hkeys : KeysSound setup.runtime stages)
    (h : Consults setup.runtime stages setup.plan.nodes answer)
    (h' : Consults setup.runtime stages setup.plan.nodes answer') :
    ∀ n < setup.plan.nodes.length, answer n = answer' n := by
  intro n hn
  have hnode : setup.plan.nodes[n]? = some (setup.plan.nodes.get ⟨n, hn⟩) :=
    List.getElem?_eq_getElem hn
  funext input
  exact ((h n _ hnode input).eq hkeys).trans ((h' n _ hnode input).eq hkeys).symm

end Same

/-! ## The parallel executor -/

variable [DecidableEq Key]

/-- What the parallel executor can return: the end of a run of the coordinator, or of the chain
    when the plan is one. -/
inductive Setup.ParallelReturns (setup : Setup V Key) (answer : Answer V) :
    Outcome PlanError (Report V) → Prop where
  | loop {s : Coordinator V Key} : Reachable setup (Given answer) s → s.Done →
      ParallelReturns setup answer (setup.result s)
  | chain {members : List Nat} : setup.plan.fullLinearFusionOrder = some members →
      ParallelReturns setup answer (setup.linearResult answer members)

/-- The result is the one that follows from the fates of the nodes. -/
def Setup.Denotes (setup : Setup V Key) (answer : Answer V)
    (result : Outcome PlanError (Report V)) : Prop :=
  (setup.Fails answer ∧ ∃ fault, result = .error fault) ∨
    (¬ setup.Fails answer ∧ result = .ok (setup.denoted answer))

theorem Setup.ParallelReturns.eq {setup : Setup V Key} {answer : Answer V}
    {result : Outcome PlanError (Report V)} (hplain : setup.Plain)
    (h : setup.ParallelReturns answer result) : setup.Denotes answer result := by
  cases h with
  | loop hreach hdone => exact hreach.result_eq hplain hdone
  | chain hmembers => exact setup.linear_eq answer hmembers

/-- Two runs of a plan both fail, or return the same completed and pruned nodes, outputs, warnings
    and final output. -/
theorem schedule_independent {setup setup' : Setup V Key} (hsame : SameProgram setup setup')
    (hone : setup.plan.conditionGates.length ≤ 1) (hexp : setup.plan.expansions = [])
    (hcontrol : setup.ctx.control = false) (hcontrol' : setup'.ctx.control = false)
    {stages : Behaviour V} (hkeys : KeysSound setup.runtime stages) {answer answer' : Answer V}
    (hanswer : Consults setup.runtime stages setup.plan.nodes answer)
    (hanswer' : Consults setup.runtime stages setup.plan.nodes answer')
    {result result' : Outcome PlanError (Report V)} (h : setup.ParallelReturns answer result)
    (h' : setup'.ParallelReturns answer' result') :
    (∃ fault fault', result = .error fault ∧ result' = .error fault') ∨
      ∃ report, result = .ok report ∧ result' = .ok report := by
  have hagree := hanswer.agree hkeys hanswer'
  have hplain : setup.Plain := ⟨.of_one setup.ordered hone, hexp, hcontrol⟩
  have hplain' : setup'.Plain := by
    refine ⟨.of_one setup'.ordered ?_, ?_, hcontrol'⟩
    · rw [← hsame.plan]
      exact hone
    · rw [← hsame.plan]
      exact hexp
  have hfails : setup.Fails answer ↔ setup'.Fails answer' := by
    unfold Setup.Fails
    rw [hsame.fates hagree]
  rcases h.eq hplain with ⟨hf, fault, rfl⟩ | ⟨hf, rfl⟩
  · rcases h'.eq hplain' with ⟨-, fault', rfl⟩ | ⟨hf', -⟩
    · exact Or.inl ⟨fault, fault', rfl, rfl⟩
    · exact absurd (hfails.mp hf) hf'
  · rcases h'.eq hplain' with ⟨hf', -⟩ | ⟨-, rfl⟩
    · exact absurd (hfails.mpr hf') hf
    · exact Or.inr ⟨_, rfl, by rw [hsame.denoted hagree]⟩

/-! Two schedules of the sample plan, one of them with a single task in flight. -/

def sampleStages : Behaviour Nat := fun node input =>
  if node.stage.name = "load" then .ok 5
  else if node.stage.name = "choose" then .ok 1
  else .ok (input + 4)

def answersOf (plan : CompiledPlan V) (stages : Behaviour V) : Answer V := fun n input =>
  match plan.nodes[n]? with
  | some node => stages node input
  | none => .error "no such node"

omit [DecidableEq Key] in
theorem consults_answersOf (runtime : Runtime V Key) (plan : CompiledPlan V)
    (stages : Behaviour V) : Consults runtime stages plan.nodes (answersOf plan stages) := by
  intro n node hnode input
  unfold answersOf
  rw [hnode]
  exact Or.inl rfl

def narrowSetup : Setup Nat (String × Nat) :=
  { sampleSetup with ctx := { sampleSetup.ctx with maxInFlight := 1 } }

theorem sampleKeys_sound : KeysSound sampleSetup.runtime sampleStages := by
  intro node node' input input' output hkey hrun
  obtain ⟨hname, hinput⟩ := Prod.mk.inj hkey
  unfold sampleStages at hrun ⊢
  rw [← hname, ← hinput]
  exact hrun

def wideChoices : List Choice :=
  [.take 0, .take 3, .await 0, .take 1, .take 3, .await 1, .await 0, .take 2, .await 0]

def narrowChoices : List Choice :=
  [.take 3, .await 0, .take 0, .await 0, .take 1, .await 0, .take 2, .await 0]

theorem wideChoices_play : (sampleSetup.play (answersOf samplePlan sampleStages) wideChoices
    sampleSetup.start).isSome = true := by
  decide +kernel

theorem narrowChoices_play : (narrowSetup.play (answersOf samplePlan sampleStages) narrowChoices
    narrowSetup.start).isSome = true := by
  decide +kernel

theorem schedule_independent_sample : ∃ s s',
    s.completed = [0, 3, 1, 2] ∧ s'.completed = [3, 0, 1, 2] ∧
      ∃ report, sampleSetup.result s = .ok report ∧ narrowSetup.result s' = .ok report := by
  have hwide := Reachable.start.play (Option.some_get wideChoices_play).symm
  have hnarrow := Reachable.start.play (Option.some_get narrowChoices_play).symm
  have hsame : SameProgram sampleSetup narrowSetup := ⟨rfl, rfl, rfl⟩
  have hboth := schedule_independent hsame (by decide) rfl rfl rfl sampleKeys_sound
    (consults_answersOf _ samplePlan _) (consults_answersOf _ samplePlan _)
    (.loop hwide ⟨by decide +kernel, Or.inr ⟨by decide +kernel, by decide +kernel⟩⟩)
    (.loop hnarrow ⟨by decide +kernel, Or.inr ⟨by decide +kernel, by decide +kernel⟩⟩)
  refine ⟨_, _, by decide +kernel, by decide +kernel, hboth.resolve_left ?_⟩
  rintro ⟨fault, -, hfault, -⟩
  have hok : ((sampleSetup.play (answersOf samplePlan sampleStages) wideChoices
      sampleSetup.start).get wideChoices_play).firstError = none := by
    decide +kernel
  unfold Setup.result at hfault
  rw [hok] at hfault
  cases hfault

end Blut.Framework
