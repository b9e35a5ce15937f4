import Disclosure.Graph.Basic

/-!
# Reverse postorder

The blocks that can be reached from the entry, in the reverse of the order in which a depth-first
search leaves them.  Successors that are no blocks of the graph are listed too.
-/

namespace Disclosure

namespace Graph

structure Search where
  seen : List BlockId
  /-- The blocks that were left, the last one first. -/
  done : List BlockId

/-- Searches from a block that was not seen, where at most `depth` blocks are entered inside each
other. -/
def searchWithin (g : Graph) : Nat → BlockId → Search → Search
  | 0, _, s => s
  | depth + 1, b, s =>
      if b ∈ s.seen then s
      else
        let inner := (g.succs b).foldl (fun s next => g.searchWithin depth next s)
          { s with seen := b :: s.seen }
        { inner with done := b :: inner.done }

/-- The blocks that can be reached from the entry, in reverse postorder.  The blocks that are
entered inside each other are all different, and only the innermost need not exist. -/
def order (g : Graph) : List BlockId :=
  (g.searchWithin (g.blocks.size + 1) g.entry ⟨[], []⟩).done

end Graph

end Disclosure
