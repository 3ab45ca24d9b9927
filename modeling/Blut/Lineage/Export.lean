/-
  What leaves in an export of the provenance graph.

  A run is sealed when its tenant is restricted or does not parse. An export should be free of
  hashes a sealed run produced and of edges only sealed runs recorded, and otherwise complete. The
  walk looks at one row of a hash, the latest, and at no row of an edge:
  `export_sound_iff` says for which databases and roots that is enough.
-/
import Blut.Lineage.Graph

namespace Blut.Lineage

open Blut.Lib Blut.Types

variable {H V : Type} [LinearOrder H] (db : LineageDb H V) (latest : Latest db)

/-! ## What may be exported -/

/-- The run's tenant is restricted or does not parse. -/
def sealedRun (jobId : String) : Bool :=
  (getRun db jobId).any fun run => (Tenant.parse run.tenant).all Tenant.isRestricted

/-- A sealed run has an artifact under the hash. -/
def Excluded (h : H) : Prop :=
  ∃ a ∈ db.artifacts, a.contentHash = h ∧ sealedRun db a.jobId = true

/-- A run that is not sealed recorded the edge. -/
def Remaining (x h : H) : Prop :=
  ∃ e ∈ db.edges, e.inputHash = x ∧ e.outputHash = h ∧ sealedRun db e.jobId = false

/-- Reached from the root along remaining edges, through hashes that are not excluded. -/
def Upstream (root h : H) : Prop :=
  ¬ Excluded db root ∧
    Relation.ReflTransGen (fun h x => Remaining db x h ∧ ¬ Excluded db x) root h

omit [LinearOrder H] in
theorem Upstream.not_excluded {root h : H} (hup : Upstream db root h) : ¬ Excluded db h := by
  obtain ⟨hroot, hpath⟩ := hup
  cases hpath with
  | refl => exact hroot
  | tail _ hstep => exact hstep.2

/-- The export from a root: it ends, and has exactly the upstream hashes and the remaining edges
    between them; so no node and no data source of a card is excluded, and no edge comes from
    sealed runs alone. -/
structure ExportSound (root : H) (graph : ProvenanceGraph H) : Prop where
  exported : graphUpstream db latest root true = some graph
  nodeClear : ∀ n ∈ graph.nodes, ¬ Excluded db n.contentHash
  edgeClear : ∀ x h, (x, h) ∈ graph.edges → Remaining db x h
  nodes : ∀ h, h ∈ graph.nodes.map GraphNode.contentHash ↔ Upstream db root h
  edges : ∀ x h, (x, h) ∈ graph.edges ↔
    Upstream db root x ∧ Upstream db root h ∧ Remaining db x h
  card : ∀ card, modelCard db latest root true = some card →
    ∀ s ∈ card.dataSources, ¬ Excluded db s

/-! ## Databases the walk is enough for -/

/-- Reached from the root by the walk, and kept. -/
def Walked (root h : H) : Prop :=
  Reaches (nextOf db latest true) root h ∧ dropped db latest true h = false

/-- Among the hashes that the walk reaches from the root: if a sealed run has an artifact under
    one, the walk drops it; and an edge between two that it keeps was also recorded by a run that
    is not sealed. -/
structure Clean (root : H) : Prop where
  hashes : ∀ h, Reaches (nextOf db latest true) root h → Excluded db h →
    dropped db latest true h = true
  edges : ∀ e ∈ db.edges, Walked db latest root e.inputHash → Walked db latest root e.outputHash →
    Remaining db e.inputHash e.outputHash

omit [LinearOrder H] in
/-- What the walk drops is excluded. -/
theorem excluded_of_dropped {h : H} (hdropped : dropped db latest true h = true) :
    Excluded db h := by
  unfold dropped runOf at hdropped
  rw [Bool.true_and] at hdropped
  cases hlatest : latest.artifactByHash h with
  | none => simp [hlatest] at hdropped
  | some a =>
    obtain ⟨hmem, hhash, -⟩ := latest.found h a hlatest
    refine ⟨a, hmem, hhash, ?_⟩
    unfold sealedRun
    cases hrun : getRun db a.jobId with
    | none => simp [hlatest, hrun] at hdropped
    | some run =>
      cases htenant : Tenant.parse run.tenant with
      | none => simp [hlatest, hrun, htenant] at hdropped
      | some tenant => simpa [hlatest, hrun, htenant] using hdropped

variable {db latest} {root : H}

omit [LinearOrder H] in
theorem kept_of_not_excluded {x : H} (h : ¬ Excluded db x) : dropped db latest true x = false :=
  Bool.of_not_eq_true fun hdropped => h (excluded_of_dropped db latest hdropped)

/-- The walk goes on to the input of an edge whose output it keeps. -/
theorem Walked.reaches_input {x y : H} (h : Walked db latest root y)
    (hedge : x ∈ inputsForOutput db y) : Reaches (nextOf db latest true) root x := by
  refine h.1.tail ?_
  unfold nextOf
  rw [if_neg (by simp [h.2])]
  exact hedge

/-- The walk misses nothing upstream. -/
theorem Upstream.walked {x : H} (h : Upstream db root x) : Walked db latest root x := by
  obtain ⟨hroot, hpath⟩ := h
  induction hpath with
  | refl => exact ⟨.refl, kept_of_not_excluded hroot⟩
  | tail _ hstep ih =>
    obtain ⟨⟨e, he, hinput, houtput, -⟩, hclear⟩ := hstep
    exact ⟨ih.reaches_input ((mem_inputsForOutput db).mpr ⟨e, he, hinput, houtput⟩),
      kept_of_not_excluded hclear⟩

/-- On a clean part of the database it stays upstream. -/
theorem Clean.upstream (h : Clean db latest root) {x : H} (hwalked : Walked db latest root x) :
    Upstream db root x := by
  have hclear : ∀ y, Walked db latest root y → ¬ Excluded db y := fun y hy hexcluded =>
    Bool.false_ne_true (hy.2.symm.trans (h.hashes y hy.1 hexcluded))
  obtain ⟨hpath, hkept⟩ := hwalked
  induction hpath with
  | refl => exact ⟨hclear root ⟨.refl, hkept⟩, .refl⟩
  | @tail y x hbefore hstep ih =>
    have hreached := hbefore.tail hstep
    unfold nextOf at hstep
    split at hstep
    · cases hstep
    · next hy =>
      have hy : dropped db latest true y = false := Bool.of_not_eq_true hy
      obtain ⟨hroot, hpath⟩ := ih hy
      obtain ⟨e, he, rfl, rfl⟩ := (mem_inputsForOutput db).mp hstep
      exact ⟨hroot, hpath.tail ⟨h.edges e he ⟨hreached, hkept⟩ ⟨hbefore, hy⟩,
        hclear _ ⟨hreached, hkept⟩⟩⟩

theorem mem_dataSources {root : H} {graph : ProvenanceGraph H} {card : CardContent H V}
    (hcard : cardContent db root graph = some card) {s : H} (hs : s ∈ card.dataSources) :
    ∃ n ∈ graph.nodes, n.contentHash = s := by
  unfold cardContent at hcard
  split at hcard
  · cases hcard
  · split at hcard
    · cases hcard
    · cases hcard
      rw [mem_sortBy] at hs
      have hsource := List.mem_of_mem_filter hs
      unfold ProvenanceGraph.sources at hsource
      rw [mem_sortBy] at hsource
      exact List.mem_map.mp (List.mem_of_mem_filter hsource)

/-- An export from a root is sound exactly where what the walk reaches from it is clean. -/
theorem export_sound_iff (db : LineageDb H V) (latest : Latest db) (root : H) :
    (∃ graph, ExportSound db latest root graph) ↔ Clean db latest root := by
  obtain ⟨graph, hgraph, hnodes, hedges⟩ := graphUpstream_spec db latest root true
  constructor
  · rintro ⟨_, hsound⟩
    cases hgraph.symm.trans hsound.exported
    refine ⟨fun x hreached hexcluded => ?_, fun e he hinput houtput => ?_⟩
    · by_contra hkept
      obtain ⟨n, hn, rfl⟩ :=
        List.mem_map.mp ((hnodes x).mpr ⟨hreached, Bool.of_not_eq_true hkept⟩)
      exact hsound.nodeClear n hn hexcluded
    · refine hsound.edgeClear _ _
        ((hedges _ _).mpr ⟨(hnodes _).mpr hinput, (hnodes _).mpr houtput, ?_⟩)
      exact (mem_inputsForOutput db).mpr ⟨e, he, rfl, rfl⟩
  · intro h
    have hup (x : H) : x ∈ graph.nodes.map GraphNode.contentHash ↔ Upstream db root x :=
      (hnodes x).trans ⟨h.upstream, Upstream.walked⟩
    have hclear : ∀ n ∈ graph.nodes, ¬ Excluded db n.contentHash := fun n hn =>
      ((hup _).mp (List.mem_map_of_mem hn)).not_excluded
    have hremaining (x y : H) (hx : x ∈ graph.nodes.map GraphNode.contentHash)
        (hy : y ∈ graph.nodes.map GraphNode.contentHash) (hedge : x ∈ inputsForOutput db y) :
        Remaining db x y := by
      obtain ⟨e, he, rfl, rfl⟩ := (mem_inputsForOutput db).mp hedge
      exact h.edges e he ((hnodes _).mp hx) ((hnodes _).mp hy)
    refine ⟨graph, hgraph, hclear, fun x y hedge => ?_, hup, fun x y => ?_,
      fun card hcard s hs => ?_⟩
    · obtain ⟨hx, hy, hmem⟩ := (hedges x y).mp hedge
      exact hremaining x y hx hy hmem
    · rw [hedges, hup, hup]
      refine ⟨fun ⟨hx, hy, hmem⟩ =>
        ⟨hx, hy, hremaining x y ((hup x).mpr hx) ((hup y).mpr hy) hmem⟩, ?_⟩
      rintro ⟨hx, hy, e, he, hinput, houtput, -⟩
      exact ⟨hx, hy, (mem_inputsForOutput db).mpr ⟨e, he, hinput, houtput⟩⟩
    · unfold modelCard at hcard
      rw [hgraph] at hcard
      obtain ⟨n, hn, rfl⟩ := mem_dataSources hcard hs
      exact hclear n hn

/-- A clinical run and then a run of the default tenant produced the same content. -/
def sharedDb : LineageDb Nat Unit where
  runs := [⟨"sealed", "fit", none, none, "clinical"⟩, ⟨"open", "fit", none, none, "default"⟩]
  artifacts :=
    [⟨"sealed", 0, "fit", 1, "model", (10 : Int)⟩, ⟨"open", 0, "fit", 1, "model", (20 : Int)⟩]
  edges := []
  finalMetrics := fun _ => []

def sharedLatest : Latest sharedDb where
  artifactByHash := fun h =>
    if h = 1 then some ⟨"open", 0, "fit", 1, "model", (20 : Int)⟩ else none
  found := by
    intro h a ha
    split at ha
    · next heq =>
      cases ha
      subst heq
      simp only [sharedDb, List.mem_cons, List.not_mem_nil, or_false, forall_eq_or_imp, forall_eq]
      exact ⟨.inr trivial, trivial, fun _ => by decide, fun _ => le_rfl⟩
    · cases ha
  absent := by
    intro h ha a hmem
    split at ha
    · cases ha
    · next hne =>
      have hhash : a.contentHash = 1 := by
        simp only [sharedDb, List.mem_cons, List.not_mem_nil, or_false] at hmem
        rcases hmem with rfl | rfl <;> rfl
      exact fun heq => hne (heq.symm.trans hhash)

/-- The export lists the content of the clinical run, because the latest row is the other one. -/
theorem shared_hash_exported : ¬ ∃ graph, ExportSound sharedDb sharedLatest 1 graph := by
  rintro ⟨graph, h⟩
  have hgraph : graphUpstream sharedDb sharedLatest 1 true =
      some ⟨1, [⟨1, some "fit", some "model", some "open"⟩], []⟩ := by decide +kernel
  rw [h.exported] at hgraph
  cases hgraph
  refine h.nodeClear _ (List.mem_singleton.mpr rfl)
    ⟨⟨"sealed", 0, "fit", 1, "model", (10 : Int)⟩, List.mem_cons_self, rfl, ?_⟩
  decide +kernel

end Blut.Lineage
