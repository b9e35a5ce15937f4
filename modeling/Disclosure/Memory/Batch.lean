import Disclosure.Memory.Basic

/-!
# Batches of writes

A batch collects writes to a memory and applies them together.  While it is open it reads as the
memory that it would give.
-/

namespace Disclosure

namespace Memory

/-- A memory with writes that are still to be applied. -/
structure Batch where
  base : Memory
  updates : Memory

def openBatch (m : Memory) : Batch := ⟨m, ∅⟩

namespace Batch

def read (b : Batch) (l : Location) : Sensitivity :=
  match b.updates.get? l with
  | some s => s
  | none => b.base.read l

def write (b : Batch) (l : Location) (s : Sensitivity) : Batch :=
  { b with updates := b.updates.insert l s }

/-- Whether there was a write, be it one that changes nothing. -/
def isPending (b : Batch) : Bool := !b.updates.entries.isEmpty

def changesBase (b : Batch) : Bool :=
  b.updates.entries.any fun e => b.base.get? e.1 != some e.2

/-- The memory after the writes: the base itself if none of them changes it. -/
def close (b : Batch) : Memory :=
  if b.changesBase then b.base.insertAll b.updates.entries else b.base

end Batch

end Memory

end Disclosure
