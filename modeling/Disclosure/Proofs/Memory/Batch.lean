import Disclosure.Proofs.Memory

/-!
# Batches are writes one by one

A batch keeps its writes apart from its base until it is closed.  Whatever is written, and however
often to the same location, what it reads and what it gives at the end is what the writes give
that are made one after the other: `close_write` says so of one write, and `close_writeAll` of a
list of them.  The base is taken unchanged exactly if the writes leave it as it is.
-/

namespace Disclosure

namespace Memory

namespace Batch

def writeAll (b : Batch) (ws : List (Location × Sensitivity)) : Batch :=
  ws.foldl (fun b w => b.write w.1 w.2) b

@[simp] theorem writeAll_cons (b : Batch) (w : Location × Sensitivity)
    (ws : List (Location × Sensitivity)) :
    b.writeAll (w :: ws) = (b.write w.1 w.2).writeAll ws := rfl

theorem close_writeAll (b : Batch) (ws : List (Location × Sensitivity)) :
    (b.writeAll ws).close = b.close.insertAll ws := by
  induction ws generalizing b with
  | nil => rfl
  | cons w ws ih => rw [writeAll_cons, ih, close_write, Table.insertAll_cons]

theorem base_writeAll (b : Batch) (ws : List (Location × Sensitivity)) :
    (b.writeAll ws).base = b.base := by
  induction ws generalizing b with
  | nil => rfl
  | cons w ws ih => exact ih (b.write w.1 w.2)

/-- What is listed after the writes: a write that is still to be applied comes before the base. -/
theorem get?_close (b : Batch) (l : Location) :
    b.close.get? l = (b.updates.get? l).or (b.base.get? l) := by
  rw [close_eq_insertAll, Table.get?_insertAll_entries]

theorem read_eq_read_close (b : Batch) (l : Location) : b.read l = b.close.read l := by
  unfold Batch.read Memory.read
  rw [get?_close]
  cases b.updates.get? l with
  | none => rfl
  | some s => rfl

/-- The shortcut is taken exactly if the writes leave the base as it is. -/
theorem changesBase_eq_false_iff (b : Batch) : b.changesBase = false ↔ b.close = b.base := by
  constructor
  · intro h
    simp [close, h]
  · intro h
    simp only [changesBase, List.any_eq_false, bne_iff_ne, ne_eq, not_not]
    intro e he
    have hupdate : b.updates.get? e.1 = some e.2 := Table.get?_eq_some_iff.2 he
    have hclose : b.close.get? e.1 = some e.2 := by rw [get?_close, hupdate, Option.some_or]
    rwa [h] at hclose

end Batch

/-- A batch gives the memory in which its writes are inserted one by one: no location is listed
twice, the listed locations keep their places, the others follow in the order in which they were
first written, and the last write to a location gives its class.  The base itself is taken exactly
if the insertions change nothing.  After any number of the writes the batch reads as the memory that
it would give then, and its base is still the memory that it was opened on. -/
theorem batch_laws (m : Memory) (ws : List (Location × Sensitivity)) :
    let b := m.openBatch.writeAll ws
    b.close = m.insertAll ws ∧
      b.close.keys.Nodup ∧
      b.close.keys = m.keys ++ ((ws.map Prod.fst).filter fun l => l ∉ m.keys).eraseDups ∧
      (∀ l, b.close.get? l = (Table.lookup l ws.reverse).or (m.get? l)) ∧
      (b.changesBase = false ↔ m.insertAll ws = m) ∧
      ∀ n, let now := m.openBatch.writeAll (ws.take n)
        (∀ l, now.read l = now.close.read l) ∧ now.base = m := by
  intro b
  have hclose : b.close = m.insertAll ws := by
    rw [Batch.close_writeAll, close_openBatch]
  refine ⟨hclose, b.close.nodup_keys, ?_, ?_, ?_, ?_⟩
  · rw [hclose, Table.keys_insertAll]
  · intro l
    rw [hclose, Table.get?_insertAll]
  · have hopened : b.base = m := Batch.base_writeAll _ _
    rw [Batch.changesBase_eq_false_iff, hclose, hopened]
  · intro n now
    exact ⟨now.read_eq_read_close, Batch.base_writeAll _ _⟩

end Memory

end Disclosure
