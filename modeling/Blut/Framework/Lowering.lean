/-
  What a specification asks for and what its compiled plan has.

  A plan node is what its specification gives (`SpecNode.Gives`): the registered stage, the
  arguments and the execution controls. The nodes of the plan are resolved and then overridden, so
  they have all of it. The nodes of a template are resolved only: they have the controls of the
  specification exactly when that gives none.
-/
import Blut.Framework.PlanSpec

namespace Blut.Framework

open Blut.Lib

variable {V : Type}

/-! ## Faithful plans -/

/-- The node is the registered stage with the arguments and the controls given. -/
structure SpecNode.Gives (registry : StageRegistry) (spec : SpecNode) (node : PlanNode) : Prop where
  stage : ∃ registered, registry spec.stage = some registered ∧ node.stage = registered.stage
  args : node.canonArgs = spec.args
  retry : ∀ policy, spec.retry = some policy → node.retry = some policy
  timeout : ∀ limit, spec.timeout = some limit → node.timeout = some limit
  priority : ∀ level, spec.priority = some level → node.priority = some level
  pure : node.pure = spec.pure

/-- Node by node, with the same predecessors in the same order. -/
structure Lowered (registry : StageRegistry) (specs : List SpecNode) (specEdges : List PlanEdge)
    (nodes : List PlanNode) (edges : List PlanEdge) : Prop where
  nodes : List.Forall₂ (SpecNode.Gives registry) specs nodes
  predecessors : ∀ id, predecessors edges id = Framework.predecessors specEdges id

/-- The plan is what the specification says. -/
structure PlanSpec.Faithful (spec : PlanSpec) (unit : V) (registry : StageRegistry)
    (plan : CompiledPlan V) : Prop where
  graph : Lowered registry spec.nodes spec.edges plan.nodes plan.edges
  seeds : ∀ id v, plan.initial id = some v
    ↔ v = unit ∧ id < plan.nodes.length ∧ predecessors plan.edges id = []
  gates : plan.conditionGates = spec.conditionGates
  expansions : List.Forall₂ (fun map expansion =>
    expansion.parent = map.parent ∧ expansion.label = map.label
      ∧ Lowered registry map.template.nodes map.template.edges expansion.template.nodes
        expansion.template.edges) spec.expansions plan.expansions

/-- No template node asks for a retry policy, a timeout or a priority. -/
def PlanSpec.PlainTemplates (spec : PlanSpec) : Prop :=
  ∀ map ∈ spec.expansions, ∀ node ∈ map.template.nodes,
    node.retry = none ∧ node.timeout = none ∧ node.priority = none

/-! ## Nodes -/

/-- What `resolve_nodes` makes of a node. -/
def Resolves (registry : StageRegistry) (spec : SpecNode) (resolved : RegisteredStage × PlanNode) :
    Prop :=
  registry spec.stage = some resolved.1 ∧ resolved.2 = resolved.1.node spec.args

variable {registry : StageRegistry} {specs : List SpecNode}
  {resolved : List (RegisteredStage × PlanNode)}

theorem resolveNodes_eq_ok {name : String} (h : resolveNodes name registry specs = .ok resolved) :
    List.Forall₂ (Resolves registry) specs resolved := by
  refine (mapM_ok_forall₂ h).imp fun spec pair hpair => ?_
  obtain ⟨registered, hregistered, hpair⟩ := bind_eq_ok.mp hpair
  obtain rfl := Except.ok.inj hpair
  exact ⟨okOr_eq_ok.mp hregistered, rfl⟩

section

variable {spec : SpecNode} {resolved : RegisteredStage × PlanNode}
  (h : Resolves registry spec resolved)
include h

/-- An overridden node has everything. -/
theorem Resolves.gives_override :
    spec.Gives registry (resolved.2.override spec.overrides) := by
  obtain ⟨hregistered, hnode⟩ := h
  rw [hnode]
  exact ⟨⟨resolved.1, hregistered, rfl⟩, rfl,
    fun _ h => by simp [PlanNode.override, SpecNode.overrides, h],
    fun _ h => by simp [PlanNode.override, SpecNode.overrides, h],
    fun _ h => by simp [PlanNode.override, SpecNode.overrides, h], rfl⟩

/-- A node that is only resolved has no controls. -/
theorem Resolves.gives_iff (hpure : spec.pure = false) :
    spec.Gives registry resolved.2
      ↔ spec.retry = none ∧ spec.timeout = none ∧ spec.priority = none := by
  obtain ⟨hregistered, hnode⟩ := h
  rw [hnode]
  have hnone : ∀ {α : Type} {o : Option α}, (∀ a, o = some a → none = some a) ↔ o = none := by
    intro α o
    cases o <;> simp
  constructor
  · exact fun hgives => ⟨hnone.mp hgives.retry, hnone.mp hgives.timeout, hnone.mp hgives.priority⟩
  · rintro ⟨hretry, htimeout, hpriority⟩
    exact ⟨⟨resolved.1, hregistered, rfl⟩, rfl, hnone.mpr hretry, hnone.mpr htimeout,
      hnone.mpr hpriority, hpure.symm⟩

end

section

variable (h : List.Forall₂ (Resolves registry) specs resolved)
include h

theorem forall₂_overrideNodes :
    List.Forall₂ (SpecNode.Gives registry) specs
      (overrideNodes (resolved.map Prod.snd) (specs.map SpecNode.overrides)) := by
  induction h with
  | nil => exact List.Forall₂.nil
  | cons hpair _ ih => exact List.Forall₂.cons hpair.gives_override ih

theorem forall₂_gives_iff (hpure : ∀ spec ∈ specs, spec.pure = false) :
    List.Forall₂ (SpecNode.Gives registry) specs (resolved.map Prod.snd)
      ↔ ∀ spec ∈ specs, spec.retry = none ∧ spec.timeout = none ∧ spec.priority = none := by
  induction h with
  | nil => simp
  | cons hpair _ ih =>
    rw [List.map_cons, List.forall₂_cons, List.forall_mem_cons,
      hpair.gives_iff (hpure _ List.mem_cons_self),
      ih fun spec hspec => hpure spec (List.mem_cons_of_mem _ hspec)]

end

/-! ## Templates -/

variable {nodes : List (RegisteredStage × PlanNode)}

theorem fromErasedTemplate_eq_ok {elemKind : String} {nodes : List PlanNode} {edges : List PlanEdge}
    {template : CompiledTemplate} (h : fromErasedTemplate elemKind nodes edges = .ok template) :
    template.nodes = nodes ∧ template.edges = edges := by
  unfold fromErasedTemplate at h
  obtain ⟨-, h⟩ := reject_bind_eq_ok.mp h
  obtain ⟨_, -, h⟩ := bind_eq_ok.mp h
  obtain ⟨_, -, h⟩ := bind_eq_ok.mp h
  split at h
  · split_ifs at h with hin
    obtain ⟨_, -, h⟩ := bind_eq_ok.mp h
    obtain rfl := Except.ok.inj h
    exact ⟨rfl, rfl⟩
  · cases h

/-- A compiled fan-out: the template's nodes are resolved, and none of them asks to be pure. -/
theorem PlanSpec.compileMap_eq_ok {spec : PlanSpec} {map : MapSpec} {expansion : MapExpansion}
    (h : spec.compileMap registry nodes map = .ok expansion) :
    expansion.parent = map.parent ∧ expansion.label = map.label
      ∧ (∀ node ∈ map.template.nodes, node.pure = false)
      ∧ expansion.template.edges = map.template.edges
      ∧ ∃ resolved, List.Forall₂ (Resolves registry) map.template.nodes resolved
        ∧ expansion.template.nodes = resolved.map Prod.snd := by
  simp only [PlanSpec.compileMap, bind_eq_ok, reject_eq_ok] at h
  obtain ⟨_, -, elemKind, -, _, hpure, resolved, hresolved, template, htemplate, h⟩ := h
  obtain rfl := Except.ok.inj h
  obtain ⟨hnodes, hedges⟩ := fromErasedTemplate_eq_ok (mapErr_eq_ok.mp htemplate)
  simp only [Bool.or_eq_false_iff, List.any_eq_false, Bool.not_eq_true] at hpure
  exact ⟨rfl, rfl, hpure.2, hedges, resolved, resolveNodes_eq_ok hresolved, hnodes⟩

/-! ## Specifications -/

/-- The accepted gates are those of the specification. -/
theorem PlanSpec.compileConditionGates_eq {spec : PlanSpec} {gates : List CompiledConditionGate}
    (h : spec.compileConditionGates nodes = .ok gates) : gates = spec.conditionGates := by
  rcases PlanSpec.compileConditionGates_eq_ok h with ⟨hnil, rfl⟩ | ⟨gate, hhead, rfl, hcheck⟩
  · exact hnil.symm
  · unfold PlanSpec.checkGate at hcheck
    obtain ⟨hone, -⟩ := reject_bind_eq_ok.mp hcheck
    have hlength : spec.conditionGates.length = 1 := by simpa using hone
    obtain ⟨only, honly⟩ := List.length_eq_one_iff.mp hlength
    rw [honly] at hhead ⊢
    cases hhead
    rfl

/-- The compiled plan is what the specification says exactly when no template node asks for a
    retry policy, a timeout or a priority. -/
theorem compiled_faithful_iff {spec : PlanSpec} {unit : V} {registry : StageRegistry}
    {plan : CompiledPlan V} (h : spec.compile unit registry = .ok plan) :
    spec.Faithful unit registry plan ↔ spec.PlainTemplates := by
  obtain ⟨nodes, gates, hnodes, hgates, hplan, hedges, hplanGates, hinitial, hexpansions⟩ :=
    PlanSpec.compile_eq_ok h
  have hmaps := mapM_ok_forall₂ hexpansions
  constructor
  · intro hfaithful map hmap
    obtain ⟨expansion, hexpansion, hcompiled, hlowered⟩ :
        ∃ expansion ∈ plan.expansions, spec.compileMap registry nodes map = .ok expansion
          ∧ Lowered registry map.template.nodes map.template.edges expansion.template.nodes
            expansion.template.edges := by
      have hboth := hmaps.mp (fun map expansion hcompiled hfaith => And.intro hcompiled hfaith.2.2)
        hfaithful.expansions
      exact exists_right_of_forall₂ hboth hmap
    obtain ⟨-, -, hpure, -, resolved, hresolved, htemplate⟩ := PlanSpec.compileMap_eq_ok hcompiled
    exact (forall₂_gives_iff hresolved hpure).mp (htemplate ▸ hlowered.nodes)
  · intro hplain
    refine ⟨⟨?_, fun id => by rw [hedges]⟩, fun id v => ?_, ?_, ?_⟩
    · rw [hplan]
      exact forall₂_overrideNodes (resolveNodes_eq_ok hnodes)
    · rw [hinitial, hedges]
      unfold rootSeeds
      split_ifs with hroot
      · rw [Option.some_inj, eq_comm]
        exact ⟨fun hv => ⟨hv, hroot⟩, fun hv => hv.1⟩
      · exact ⟨(fun hv => nomatch hv), fun hv => absurd hv.2 hroot⟩
    · rw [hplanGates]
      exact PlanSpec.compileConditionGates_eq hgates
    · refine forall₂_imp_mem hmaps fun map hmap expansion _ hcompiled => ?_
      obtain ⟨hparent, hlabel, hpure, htemplateEdges, resolved, hresolved, htemplate⟩ :=
        PlanSpec.compileMap_eq_ok hcompiled
      refine ⟨hparent, hlabel, ?_, fun id => by rw [htemplateEdges]⟩
      rw [htemplate]
      exact (forall₂_gives_iff hresolved hpure).mpr (hplain map hmap)

/-- A stage that lists rows and one that takes a row. -/
def sweepRegistry : StageRegistry := fun name =>
  if name = "list" then
    some { stage := ⟨"list", unitKind, "list", false, true, .inProcess, false⟩
           speculationSafe := true, outputElementKind := some "row", memoryGibFor := fun _ => 0 }
  else if name = "fit" then
    some { stage := ⟨"fit", "row", "model", false, true, .inProcess, false⟩
           speculationSafe := true, outputElementKind := none, memoryGibFor := fun _ => 0 }
  else none

/-- A fit for every row, with the given retry policy. -/
def sweepSpec (retry : Option RetryPolicy) : PlanSpec where
  name := "sweep"
  nodes := [{ stage := "list", args := "", priority := some 5 }]
  edges := []
  expansions := [{
    parent := 0
    template := {
      name := "row"
      nodes := [{ stage := "fit", args := "", retry := retry }]
      edges := []
      nested := false }
    label := none }]
  conditionGates := []

def threeAttempts : RetryPolicy := ⟨3, .none, .transient⟩

theorem sweepSpec_compiles :
    (Outcome.value ((sweepSpec none).compile 0 sweepRegistry)).isSome = true
      ∧ (Outcome.value ((sweepSpec (some threeAttempts)).compile 0 sweepRegistry)).isSome =
        true := by
  decide +kernel

theorem compiled_faithful_iff_sweep :
    ∃ plan : CompiledPlan Nat, (sweepSpec none).compile 0 sweepRegistry = .ok plan
      ∧ (sweepSpec none).Faithful 0 sweepRegistry plan := by
  obtain ⟨plan, hplan⟩ := Option.isSome_iff_exists.mp sweepSpec_compiles.1
  have hcompiled := value_eq_some.mp hplan
  refine ⟨plan, hcompiled, (compiled_faithful_iff hcompiled).mpr fun map hmap node hnode => ?_⟩
  rw [List.mem_singleton.mp hmap] at hnode
  rw [List.mem_singleton.mp hnode]
  exact ⟨rfl, rfl, rfl⟩

/-- The retry policy of a template node is lost. -/
theorem template_retry_dropped :
    ∃ plan : CompiledPlan Nat, (sweepSpec (some threeAttempts)).compile 0 sweepRegistry = .ok plan
      ∧ plan.expansions.flatMap (fun expansion => expansion.template.nodes.map PlanNode.retry)
        = [none]
      ∧ (sweepSpec (some threeAttempts)).expansions.flatMap
          (fun map => map.template.nodes.map SpecNode.retry) = [some threeAttempts] := by
  obtain ⟨plan, hplan⟩ := Option.isSome_iff_exists.mp sweepSpec_compiles.2
  refine ⟨plan, value_eq_some.mp hplan, ?_, rfl⟩
  have hretry : ((Outcome.value ((sweepSpec (some threeAttempts)).compile 0 sweepRegistry)).map
      fun plan => plan.expansions.flatMap fun expansion =>
        expansion.template.nodes.map PlanNode.retry) = some [none] := by decide +kernel
  rw [hplan] at hretry
  exact Option.some_inj.mp hretry

end Blut.Framework
