/-
  A store as a function, and a log of writes to it.

  `writeAll` replays a log. Two logs one after the other are one log (`writeAll_append`), a
  location outside the log keeps its value, and one that is only written with one value holds it
  (`writeAll_of_unique`), whatever the order of the log.
-/
import Blut.Lib.Lists

namespace Blut.Lib

variable {κ α β : Type} [DecidableEq κ]

/-- The store after the writes, the last one to a location winning. -/
def writeAll (log : List (κ × α)) (store : κ → Option α) : κ → Option α :=
  log.foldl (fun store entry => Function.update store entry.1 (some entry.2)) store

theorem writeAll_append (log log' : List (κ × α)) (store : κ → Option α) :
    writeAll (log ++ log') store = writeAll log' (writeAll log store) := by
  unfold writeAll
  rw [List.foldl_append]

theorem writeAll_singleton (k : κ) (a : α) (store : κ → Option α) :
    writeAll [(k, a)] store = Function.update store k (some a) := rfl

variable {log : List (κ × α)} {k : κ} {a : α}

/-- A location holds what was written to it last, or what it held before. -/
theorem writeAll_eq (log : List (κ × α)) (store : κ → Option α) (k : κ) :
    writeAll log store k = (log.reverse.lookup k).or (store k) := by
  induction log generalizing store with
  | nil => rfl
  | cons entry log ih =>
    show writeAll log (Function.update store entry.1 (some entry.2)) k = _
    rw [ih, List.reverse_cons, List.lookup_append, Option.or_assoc, lookup_cons_eq,
      Function.update_apply]
    congr 1
    split <;> rfl

theorem writeAll_of_not_mem (h : k ∉ log.map Prod.fst) (store : κ → Option α) :
    writeAll log store k = store k := by
  have hnone : log.reverse.lookup k = none := lookup_eq_none.mpr (by simpa using h)
  rw [writeAll_eq, hnone, Option.none_or]

/-- A location that is only written with one value holds it. -/
theorem writeAll_of_unique (h : (k, a) ∈ log) (hall : ∀ b, (k, b) ∈ log → b = a)
    (store : κ → Option α) : writeAll log store k = some a := by
  rw [writeAll_eq]
  cases hlast : log.reverse.lookup k with
  | none => exact absurd (List.mem_map_of_mem (List.mem_reverse.mpr h)) (lookup_eq_none.mp hlast)
  | some b => rw [hall b (List.mem_reverse.mp (mem_of_lookup hlast)), Option.some_or]

/-- What a location holds after a log that writes it at most once. -/
theorem writeAll_eq_some (hnd : (log.map Prod.fst).Nodup) (store : κ → Option α) :
    writeAll log store k = some a ↔ (k, a) ∈ log ∨ (k ∉ log.map Prod.fst ∧ store k = some a) := by
  have hkeys : (log.reverse.map Prod.fst).Nodup := by
    rw [List.map_reverse]
    exact List.nodup_reverse.mpr hnd
  rw [writeAll_eq, Option.or_eq_some_iff, lookup_eq_some hkeys, lookup_eq_none, List.mem_reverse,
    List.map_reverse, List.mem_reverse]

end Blut.Lib
