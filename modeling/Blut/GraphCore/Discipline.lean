/-
  The buffer discipline of a plan.

  In a disciplined plan every buffer has one producer, is read only after it and at most until
  its last consumer.
-/
import Blut.Lib.Writes
import Blut.GraphCore.Model

namespace Blut.GraphCore

open Blut.Lib

/-! ## Locations -/

/-- A port of a step: the step and the index of the port. -/
abbrev Location := StepId × Nat

def inputAt (nodes : List CompiledNode) (loc : Location) : Option InputBinding :=
  nodes[loc.1]?.bind fun node => node.inputBindings[loc.2]?

def outputAt (nodes : List CompiledNode) (loc : Location) : Option OutputBinding :=
  nodes[loc.1]?.bind fun node => node.outputBindings[loc.2]?

/-- None of the ports is wired. -/
structure CompiledNode.Unwired (node : CompiledNode) : Prop where
  inputs : ∀ binding ∈ node.inputBindings, binding = .absent
  outputs : ∀ binding ∈ node.outputBindings, binding = .terminal

/-- Every buffer is written at one place, before it is read, and not read after its last
    consumer. -/
structure Disciplined (nodes : List CompiledNode) (buffers : List BufferPlan) : Prop where
  stepIds : ∀ (s : Nat) (node : CompiledNode), nodes[s]? = some node → node.id = s
  reads : ∀ (s i b : Nat), inputAt nodes (s, i) = some (.buffer b) →
    ∃ buffer : BufferPlan, buffers[b]? = some buffer ∧ buffer.producer < s ∧ s ≤ buffer.lastConsumer
  writes : ∀ (s o b : Nat), outputAt nodes (s, o) = some (.buffer b) →
    ∃ buffer : BufferPlan, buffers[b]? = some buffer ∧ buffer.producer = s
  produced : ∀ (b : Nat) (buffer : BufferPlan), buffers[b]? = some buffer →
    ∃ o, outputAt nodes (buffer.producer, o) = some (.buffer b)
  unique : ∀ (loc loc' : Location) (b : Nat), outputAt nodes loc = some (.buffer b) →
    outputAt nodes loc' = some (.buffer b) → loc = loc'

/-! ## Runs over slots -/

/-- The root whose slot a buffer occupies. -/
def BufferPlan.root (buffer : BufferPlan) : BufferId := buffer.aliases.getD buffer.id

/-- The buffers a step writes, with their values. -/
def scattered {V : Type} (node : CompiledNode) (outputs : List V) : List (BufferId × V) :=
  (node.outputBindings.zip outputs).filterMap fun (binding, output) =>
    binding.buffer?.map fun b => (b, output)

/-- The buffers whose last consumer is the step. -/
def released (buffers : List BufferPlan) (node : CompiledNode) : List BufferId :=
  (node.inputBindings.filterMap InputBinding.buffer?).filter fun b =>
    buffers[b]?.any fun buffer => buffer.lastConsumer = node.id

end Blut.GraphCore
