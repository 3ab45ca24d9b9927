/-
  The upstream provenance graph (`lineage_db.rs`, `blut-types/src/report.rs`).

  Custody is a property of runs; the walk is over content hashes, which runs of different tenants
  may share. Every writer lowercases the hashes it stores and the walk lowercases its root, so a
  hash here is its lowercase text. Of the rows of one hash `ORDER BY produced_unix DESC LIMIT 1`
  returns one with the greatest time; which of several is up to the database (`Latest`). The order
  in which a query without `ORDER BY` lists its rows does not reach the result, which is sorted.
-/
import Blut.Lib.Sorting
import Blut.Lib.Lists
import Blut.Lib.Worklist
import Blut.Types.Tenant

namespace Blut.Lineage

open Blut.Lib Blut.Types

/-! ## Tables -/

structure RunRow where
  jobId : String
  recipe : String
  configFingerprint : Option String
  outcome : Option String
  tenant : String
  deriving DecidableEq

/-- A missing time is less than any other. -/
structure ArtifactRow (H : Type) where
  jobId : String
  stageIdx : Int
  stageName : String
  contentHash : H
  kind : String
  producedUnix : WithBot Int
  deriving DecidableEq

structure EdgeRow (H : Type) where
  jobId : String
  toIdx : Int
  inputHash : H
  outputHash : H
  deriving DecidableEq

/-- `finalMetrics` is the answer to the query of that name. -/
structure LineageDb (H V : Type) where
  runs : List RunRow
  artifacts : List (ArtifactRow H)
  edges : List (EdgeRow H)
  finalMetrics : String → List (String × V)

variable {H V : Type} [LinearOrder H]

local instance lawful_hash : LawfulBEq H := inferInstance

def getRun (db : LineageDb H V) (jobId : String) : Option RunRow :=
  db.runs.find? fun run => run.jobId = jobId

/-- Which row of a hash the database returns as the latest. -/
structure Latest (db : LineageDb H V) where
  artifactByHash : H → Option (ArtifactRow H)
  found : ∀ h a, artifactByHash h = some a → a ∈ db.artifacts ∧ a.contentHash = h ∧
    ∀ b ∈ db.artifacts, b.contentHash = h → b.producedUnix ≤ a.producedUnix
  absent : ∀ h, artifactByHash h = none → ∀ a ∈ db.artifacts, a.contentHash ≠ h

/-- `SELECT DISTINCT input_hash`. -/
def inputsForOutput (db : LineageDb H V) (output : H) : List H :=
  ((db.edges.filter fun e => e.outputHash = output).map EdgeRow.inputHash).dedup

/-! ## The walk -/

structure GraphNode (H : Type) where
  contentHash : H
  stageName : Option String
  kind : Option String
  jobId : Option String
  deriving DecidableEq

structure ProvenanceGraph (H : Type) where
  root : H
  nodes : List (GraphNode H)
  edges : List (H × H)
  deriving DecidableEq

variable (db : LineageDb H V) (latest : Latest db)

/-- The run of the latest artifact under a hash. -/
def runOf (h : H) : Option RunRow :=
  (latest.artifactByHash h).bind fun a => getRun db a.jobId

/-- The test of the walk: a tenant that parses and is restricted. -/
def dropped (excludeRestricted : Bool) (h : H) : Bool :=
  excludeRestricted && (runOf db latest h).any fun run =>
    (Tenant.parse run.tenant).any Tenant.isRestricted

def graphNode (h : H) : GraphNode H :=
  let artifact := latest.artifactByHash h
  ⟨h, artifact.map ArtifactRow.stageName, artifact.map ArtifactRow.kind,
    artifact.map ArtifactRow.jobId⟩

/-- The loop; `none` when the fuel runs out. -/
def walk (excludeRestricted : Bool) : Nat → List H → List H → List (GraphNode H) → List (H × H) →
    Option (List (GraphNode H) × List (H × H))
  | _, [], _, nodes, edges => some (nodes, edges)
  | 0, _ :: _, _, _, _ => none
  | fuel + 1, cur :: queue, seen, nodes, edges =>
    if cur ∈ seen then walk excludeRestricted fuel queue seen nodes edges
    else if dropped db latest excludeRestricted cur then
      walk excludeRestricted fuel queue (seen ++ [cur]) nodes edges
    else
      let inputs := inputsForOutput db cur
      walk excludeRestricted fuel (queue ++ inputs.filter fun input => input ∉ seen ++ [cur])
        (seen ++ [cur]) (nodes ++ [graphNode db latest cur])
        (edges ++ inputs.map fun input => (input, cur))

/-- A step for the root and for every row of the edge table. -/
def walkFuel : Nat := db.edges.length + 1

def graphUpstream (root : H) (excludeRestricted : Bool) : Option (ProvenanceGraph H) := do
  let (nodes, edges) ← walk db latest excludeRestricted (walkFuel db) [root] [] [] []
  let kept := nodes.map GraphNode.contentHash
  let edges := edges.filter fun (src, dst) => src ∈ kept && dst ∈ kept
  return ⟨root, sortBy GraphNode.contentHash nodes, sortBy (fun edge => toLex edge) edges⟩

/-! ## Model cards -/

/-- Nodes without an edge into them. -/
def ProvenanceGraph.sources (graph : ProvenanceGraph H) : List H :=
  sortBy id ((graph.nodes.map GraphNode.contentHash).filter fun h =>
    h ∉ graph.edges.map Prod.snd)

/-- What the hash of a card is taken of. -/
structure CardContent (H V : Type) where
  modelHash : H
  jobId : Option String
  recipe : Option String
  configFingerprint : Option String
  gateOutcome : Option String
  dataSources : List H
  metrics : List (String × V)

def cardContent (root : H) (graph : ProvenanceGraph H) : Option (CardContent H V) :=
  match graph.nodes.find? fun n => n.contentHash = root with
  | none => none
  | some node =>
    if node.stageName.isNone && graph.edges.isEmpty then none
    else
      let run := node.jobId.bind (getRun db)
      some {
        modelHash := root
        jobId := node.jobId
        recipe := run.map RunRow.recipe
        configFingerprint := run.bind RunRow.configFingerprint
        gateOutcome := run.bind RunRow.outcome
        dataSources := sortBy id (graph.sources.filter fun s => s ≠ root)
        metrics := sortBy Prod.fst ((node.jobId.map db.finalMetrics).getD []) }

def modelCard (root : H) (excludeRestricted : Bool) : Option (CardContent H V) := do
  let graph ← graphUpstream db latest root excludeRestricted
  cardContent db root graph

/-! ## What the walk returns -/

/-- The inputs the walk goes on with. -/
def nextOf (excludeRestricted : Bool) (h : H) : List H :=
  if dropped db latest excludeRestricted h then [] else inputsForOutput db h

def nodesOf (excludeRestricted : Bool) (seen : List H) : List (GraphNode H) :=
  (seen.filter fun h => !dropped db latest excludeRestricted h).map (graphNode db latest)

def edgesOf (excludeRestricted : Bool) (seen : List H) : List (H × H) :=
  (seen.filter fun h => !dropped db latest excludeRestricted h).flatMap fun cur =>
    (inputsForOutput db cur).map fun input => (input, cur)

/-- The loop is a search that collects a node and its edges whenever it keeps what it sees. -/
theorem walk_eq (excludeRestricted : Bool) (fuel : Nat) (queue seen : List H) :
    walk db latest excludeRestricted fuel queue seen (nodesOf db latest excludeRestricted seen)
        (edgesOf db latest excludeRestricted seen) =
      (worklist (nextOf db latest excludeRestricted) fuel queue seen).map fun out =>
        (nodesOf db latest excludeRestricted out, edgesOf db latest excludeRestricted out) := by
  induction fuel generalizing queue seen with
  | zero => cases queue <;> rfl
  | succ fuel ih =>
    cases queue with
    | nil => rfl
    | cons cur queue =>
      rw [walk, worklist]
      split_ifs with hseen hdropped
      · exact ih queue seen
      · rw [← ih]
        simp [nodesOf, edgesOf, pushed, nextOf, hdropped]
      · rw [← ih]
        simp [nodesOf, edgesOf, pushed, nextOf, hdropped]

theorem mem_inputsForOutput {x h : H} :
    x ∈ inputsForOutput db h ↔ ∃ e ∈ db.edges, e.inputHash = x ∧ e.outputHash = h := by
  simp only [inputsForOutput, List.mem_dedup, List.mem_map, List.mem_filter, decide_eq_true_eq]
  tauto

/-- The fuel of `graphUpstream` is enough. -/
theorem worklist_walkFuel (excludeRestricted : Bool) (root : H) :
    ∃ out, worklist (nextOf db latest excludeRestricted) (walkFuel db) [root] [] = some out := by
  refine worklist_isSome (insert root (db.edges.map EdgeRow.inputHash).toFinset) ?_ _ (by simp)
    ?_
  · intro x _ y hy
    unfold nextOf at hy
    split at hy
    · cases hy
    · obtain ⟨e, he, rfl, -⟩ := (mem_inputsForOutput db).mp hy
      exact Finset.mem_insert_of_mem (List.mem_toFinset.mpr (List.mem_map_of_mem he))
  · have hle (h : H) : (nextOf db latest excludeRestricted h).length ≤
        (db.edges.filter fun e => e.outputHash = h).length := by
      unfold nextOf inputsForOutput
      split
      · exact Nat.zero_le _
      · exact (List.dedup_sublist _).length_le.trans (by simp)
    have hsum := (Finset.sum_le_sum fun h _ => hle h).trans
      (sum_length_filter_le EdgeRow.outputHash
        (insert root (db.edges.map EdgeRow.inputHash).toFinset \ ∅) db.edges)
    simp only [walkFuel, unpushed, List.toFinset_nil, List.length_singleton]
    omega

/-- The walk returns. Its nodes are the hashes that are reached and not dropped, its edges the
    rows between them. -/
theorem graphUpstream_spec (root : H) (excludeRestricted : Bool) :
    ∃ graph, graphUpstream db latest root excludeRestricted = some graph ∧
      (∀ h, h ∈ graph.nodes.map GraphNode.contentHash ↔
        Reaches (nextOf db latest excludeRestricted) root h ∧
          dropped db latest excludeRestricted h = false) ∧
      ∀ x h, (x, h) ∈ graph.edges ↔ x ∈ graph.nodes.map GraphNode.contentHash ∧
        h ∈ graph.nodes.map GraphNode.contentHash ∧ x ∈ inputsForOutput db h := by
  obtain ⟨out, hout⟩ := worklist_walkFuel db latest excludeRestricted root
  have hwalk := walk_eq db latest excludeRestricted (walkFuel db) [root] []
  rw [hout] at hwalk
  have hnodes (h : H) : h ∈ (nodesOf db latest excludeRestricted out).map GraphNode.contentHash ↔
      Reaches (nextOf db latest excludeRestricted) root h ∧
        dropped db latest excludeRestricted h = false := by
    rw [← mem_worklist hout]
    simp [nodesOf, graphNode]
  have hedges (x h : H) : (x, h) ∈ edgesOf db latest excludeRestricted out ↔
      h ∈ (nodesOf db latest excludeRestricted out).map GraphNode.contentHash ∧
        x ∈ inputsForOutput db h := by
    rw [hnodes, ← mem_worklist hout]
    simp [edgesOf]
  have hfirst : walk db latest excludeRestricted (walkFuel db) [root] [] [] [] =
      some (nodesOf db latest excludeRestricted out, edgesOf db latest excludeRestricted out) :=
    hwalk
  refine ⟨_, by simp only [graphUpstream, hfirst]; rfl, fun h => ?_, fun x h => ?_⟩
  · rw [← hnodes]
    simp
  · simp only [mem_sortBy, List.mem_filter, hedges, List.mem_map, Bool.and_eq_true,
      decide_eq_true_eq]
    tauto

end Blut.Lineage
