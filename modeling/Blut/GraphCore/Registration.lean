/-
  Registered hierarchies are well founded, and registration is atomic.

  No check compares a new descriptor or schema with what refers to it later: the order is the
  order of registration. An entry refers to registered entries only and is new itself, so it
  sits on top of a relation that was well founded before (`uses_wellFounded`).
-/
import Blut.GraphCore.RegistryInvariant

namespace Blut.GraphCore

variable {s : SubgraphSchema}

open Blut.Lib

/-- What a registry defines: descriptors by key and schemas by id. -/
inductive Definition where
  | descriptor (key : DescriptorKey)
  | subgraph (id : SubgraphId)

/-- A descriptor lowers to a schema; a schema has a child, or contains a node of a descriptor. -/
inductive KernelRegistry.Uses (registry : KernelRegistry) : Definition → Definition → Prop where
  | lowers {key : DescriptorKey} {d : NodeDescriptor} {lowering : SubgraphLowering}
      (hd : registry.descriptors.get? key = some d) (hl : d.subgraph = some lowering) :
      registry.Uses (.descriptor key) (.subgraph lowering.subgraph)
  | child {id childId : SubgraphId} {s : SubgraphSchema} {node : SubgraphNode}
      (hs : registry.subgraphs.get? id = some s) (hn : node ∈ s.nodes)
      (hc : node.child = some childId) : registry.Uses (.subgraph id) (.subgraph childId)
  | contains {id : SubgraphId} {s : SubgraphSchema} {node : SubgraphNode}
      (hs : registry.subgraphs.get? id = some s) (hn : node ∈ s.nodes) :
      registry.Uses (.subgraph id) (.descriptor node.nodeType.key)

/-- The registry has an entry for it. -/
def KernelRegistry.Defines (registry : KernelRegistry) : Definition → Prop
  | .descriptor key => ∃ d, registry.descriptors.get? key = some d
  | .subgraph id => ∃ s, registry.subgraphs.get? id = some s

variable {blake3 : Blake3} {registry : KernelRegistry} {x y : Definition}

theorem KernelRegistry.Invariant.uses_defined (hi : registry.Invariant blake3)
    (h : registry.Uses x y) : registry.Defines y := by
  cases h with
  | lowers hd hl =>
    obtain ⟨schema, hv⟩ := hi.lowering _ _ hd _ hl
    exact ⟨schema, hv.registered⟩
  | child hs hn hc =>
    obtain ⟨d, hd⟩ := (hi.schema _ _ hs).node _ hn
    obtain ⟨-, child, hchild, -⟩ := hd.child _ hc
    exact ⟨child, hchild⟩
  | contains hs hn =>
    obtain ⟨d, hd⟩ := (hi.schema _ _ hs).node _ hn
    exact ⟨d, hd.described⟩

/-- An entry that is not the new one uses what it used before the insertion. -/
theorem uses_of_insert_descriptor {d : NodeDescriptor} (hx : x ≠ .descriptor d.key)
    (h : { registry with descriptors := registry.descriptors.insert d.key d }.Uses x y) :
    registry.Uses x y := by
  cases h with
  | @lowers key d' lowering hd hl =>
    have hkey : key ≠ d.key := fun he => hx (by rw [he])
    dsimp only at hd
    rw [BTreeMap.get?_insert_ne _ _ hkey] at hd
    exact .lowers hd hl
  | child hs hn hc => exact .child hs hn hc
  | contains hs hn => exact .contains hs hn

theorem uses_of_insert_subgraph (hx : x ≠ .subgraph s.id)
    (h : { registry with subgraphs := registry.subgraphs.insert s.id s }.Uses x y) :
    registry.Uses x y := by
  cases h with
  | lowers hd hl => exact .lowers hd hl
  | @child id childId s' node hs hn hc =>
    have hid : id ≠ s.id := fun he => hx (by rw [he])
    dsimp only at hs
    rw [BTreeMap.get?_insert_ne _ _ hid] at hs
    exact .child hs hn hc
  | @contains id s' node hs hn =>
    have hid : id ≠ s.id := fun he => hx (by rw [he])
    dsimp only at hs
    rw [BTreeMap.get?_insert_ne _ _ hid] at hs
    exact .contains hs hn

/-- In a reachable registry nothing is defined in terms of itself. -/
theorem uses_wellFounded (h : registry.Reachable blake3) :
    WellFounded (fun y x => registry.Uses x y) := by
  refine KernelRegistry.Reachable.induct (P := fun r => WellFounded (fun y x => r.Uses x y))
    ?_ ?_ ?_ ?_ h
  · refine ⟨fun x => Acc.intro x fun y hy => ?_⟩
    cases hy with
    | lowers hd _ => exact absurd hd (by simp [KernelRegistry.empty])
    | child hs _ _ => exact absurd hs (by simp [KernelRegistry.empty])
    | contains hs _ => exact absurd hs (by simp [KernelRegistry.empty])
  · intro registry d stored hreach hwf hadmit
    obtain ⟨-, -, hfresh, -⟩ := admitDescriptor_ok hadmit
    rw [BTreeMap.contains_eq_false_iff] at hfresh
    refine wellFounded_of_fresh (.descriptor stored.key) hwf ?_ ?_
    · intro y x hx hy
      have hold := uses_of_insert_descriptor hx hy
      refine ⟨hold, fun he => ?_⟩
      obtain ⟨d', hd'⟩ := he ▸ hreach.invariant.uses_defined hold
      exact absurd (hfresh.symm.trans hd') (by simp)
    · intro y hy he
      rw [he] at hy
      cases hy
  · intro registry s stored hreach hwf hadmit
    obtain ⟨hvalid, hfresh⟩ := admitSubgraph_ok hadmit
    rw [BTreeMap.contains_eq_false_iff] at hfresh
    refine wellFounded_of_fresh (.subgraph stored.id) hwf ?_ ?_
    · intro y x hx hy
      have hold := uses_of_insert_subgraph hx hy
      refine ⟨hold, fun he => ?_⟩
      obtain ⟨s', hs'⟩ := he ▸ hreach.invariant.uses_defined hold
      exact absurd (hfresh.symm.trans hs') (by simp)
    · intro y hy he
      rw [he] at hy
      cases hy with
      | @child _ _ s' node hs hn hc =>
        rw [BTreeMap.get?_insert_self] at hs
        obtain ⟨d, hd⟩ := hvalid.node node (Option.some.inj hs ▸ hn)
        exact (hd.child _ hc).1 rfl
  · intro registry k stored _ hwf _
    refine ⟨fun x => ?_⟩
    induction x using hwf.induction with
    | h x ih =>
      refine Acc.intro x fun y hy => ih y ?_
      cases hy with
      | lowers hd hl => exact .lowers hd hl
      | child hs hn hc => exact .child hs hn hc
      | contains hs hn => exact .contains hs hn

/-- A call that does not return `Ok` leaves the registry as it was. -/
theorem run_error {call : RegisterCall} {fault : Fault CompileError}
    (h : (call.run blake3 registry).1 = .error fault) :
    (call.run blake3 registry).2 = registry := by
  rcases run_cases blake3 registry call with ⟨_, hr⟩ | ⟨_, _, -, -, hr⟩ | ⟨_, _, -, -, hr⟩ |
    ⟨_, _, -, -, hr⟩ <;> rw [hr] at h ⊢
  all_goals exact absurd h (by simp)

/-- Each inner input is bound at most once, and a non-optional one exactly once. -/
theorem ValidSchema.bound_count (hv : ValidSchema blake3 registry s) :
    (∀ port, s.bindings.count port ≤ 1) ∧
      ∀ node ∈ s.nodes, ∀ d, registry.descriptors.get? node.nodeType.key = some d →
        ∀ input ∈ d.inputs, input.optional = false →
          s.bindings.count { node := node.id, port := input.name } = 1 := by
  refine ⟨fun port => List.nodup_iff_count_le_one.mp hv.bindings_nodup port, ?_⟩
  intro node hnode d hd input hinput hopt
  exact List.count_eq_one_of_mem hv.bindings_nodup (hv.bound node hnode d hd input hinput hopt)

/-- After any sequence of registrations, failed ones included: every node of a stored schema
    names a registered descriptor, every child and every lowering a registered schema; no
    definition leads down to others forever; every schema is acyclic, with each inner input bound
    at most once and each non-optional one exactly once; and a call that fails changes nothing. -/
theorem registration_wellFounded_atomic (blake3 : Blake3) (calls : List RegisterCall) :
    let registry := KernelRegistry.after blake3 calls
    (∀ id s, registry.subgraphs.get? id = some s → ∀ node ∈ s.nodes,
      ∃ d, registry.descriptors.get? node.nodeType.key = some d) ∧
    (∀ id s, registry.subgraphs.get? id = some s → ∀ node ∈ s.nodes, ∀ childId,
      node.child = some childId → ∃ child, registry.subgraphs.get? childId = some child) ∧
    (∀ key d, registry.descriptors.get? key = some d → ∀ lowering, d.subgraph = some lowering →
      ∃ s, registry.subgraphs.get? lowering.subgraph = some s) ∧
    (¬ ∃ chain : Nat → Definition, ∀ n, registry.Uses (chain n) (chain (n + 1))) ∧
    (∀ id s, registry.subgraphs.get? id = some s → s.Acyclic ∧
      (∀ port, s.bindings.count port ≤ 1) ∧
      ∀ node ∈ s.nodes, ∀ d, registry.descriptors.get? node.nodeType.key = some d →
        ∀ input ∈ d.inputs, input.optional = false →
          s.bindings.count { node := node.id, port := input.name } = 1) ∧
    (∀ call fault, (RegisterCall.run blake3 registry call).1 = .error fault →
      (RegisterCall.run blake3 registry call).2 = registry) := by
  intro registry
  have hreach : registry.Reachable blake3 := ⟨calls, rfl⟩
  have hi := hreach.invariant
  refine ⟨fun id s hs node hnode => hi.uses_defined (.contains hs hnode),
    fun id s hs node hnode childId hc => hi.uses_defined (.child hs hnode hc),
    fun key d hd lowering hl => hi.uses_defined (.lowers hd hl), ?_,
    fun id s hs => ⟨(hi.schema id s hs).acyclic, (hi.schema id s hs).bound_count⟩,
    fun call fault h => run_error h⟩
  rintro ⟨chain, hchain⟩
  exact (wellFounded_iff_isEmpty_descending_chain.mp (uses_wellFounded hreach)).elim
    ⟨chain, hchain⟩

end Blut.GraphCore
