import Disclosure.Graph.Order
import Disclosure.Table

/-!
# Forward dataflow problems

A problem says which fact holds on entry to a graph, how facts that meet are joined, and what a
block does to a fact.  Going through a block may also change a state that the problem keeps.

The solver keeps a queue of blocks, at first those that can be reached, in reverse postorder.  To
visit a block is to join the facts after its predecessors, as far as there are any, and to go
through the block; if the fact after it has changed, its successors are queued.  The solver stops
when the queue is empty, or when it has made as many visits as it may.
-/

namespace Disclosure

/-- A forward dataflow problem with facts of type `α` and a state of type `σ`. -/
structure Dataflow (σ α : Type) where
  initial : σ → α
  join : σ → List α → α
  /-- The fact after a block from the fact before it, and the state after it. -/
  transfer : σ → Block → α → α × σ

namespace Dataflow

variable {σ α : Type}

structure Progress (σ α : Type) where
  state : σ
  before : Table BlockId α
  after : Table BlockId α
  /-- The blocks to visit, without repetition. -/
  queue : List BlockId
  visits : Nat

def enqueue (queue : List BlockId) (b : BlockId) : List BlockId :=
  if b ∈ queue then queue else queue ++ [b]

/-- The facts that flow into a block: those after its predecessors, and on entry the initial
one. -/
def incoming (a : Dataflow σ α) (g : Graph) (s : Progress σ α) (block : Block) (b : BlockId) :
    List α :=
  block.preds.filterMap s.after.get? ++ if b = g.entry then [a.initial s.state] else []

/-- The start: every block that can be reached is queued. -/
def start (state : σ) (g : Graph) : Progress σ α := ⟨state, ∅, ∅, g.order, 0⟩

def flowThrough [BEq α] (a : Dataflow σ α) (block : Block) (b : BlockId) (facts : List α)
    (s : Progress σ α) : Progress σ α :=
  let input := a.join s.state facts
  let (output, state) := a.transfer s.state block input
  let s := { s with state := state, before := s.before.insert b input }
  if s.after.get? b == some output then s
  else { s with after := s.after.insert b output, queue := block.succs.foldl enqueue s.queue }

/-- Visits a block that is no longer queued.  A block that does not exist, and one that nothing
flows into, is only counted. -/
def visit [BEq α] (a : Dataflow σ α) (g : Graph) (b : BlockId) (s : Progress σ α) :
    Progress σ α :=
  let s := { s with visits := s.visits + 1 }
  match g.block? b with
  | none => s
  | some block =>
      match a.incoming g s block b with
      | [] => s
      | facts => a.flowThrough block b facts s

def step [BEq α] (a : Dataflow σ α) (g : Graph) (s : Progress σ α) : Progress σ α :=
  match s.queue with
  | [] => s
  | b :: rest => a.visit g b { s with queue := rest }

/-- Makes visits until the queue is empty, but at most `bound`. -/
def run [BEq α] (a : Dataflow σ α) (g : Graph) : Nat → Progress σ α → Progress σ α
  | 0, s => s
  | bound + 1, s => if s.queue.isEmpty then s else a.run g bound (a.step g s)

@[simp] theorem run_zero [BEq α] (a : Dataflow σ α) (g : Graph) (s : Progress σ α) :
    a.run g 0 s = s := rfl

theorem run_of_queue_nil [BEq α] (a : Dataflow σ α) (g : Graph) (bound : Nat)
    {s : Progress σ α} (h : s.queue = []) : a.run g bound s = s := by
  cases bound with
  | zero => rfl
  | succ bound => simp [run, h]

theorem run_of_queue_cons [BEq α] (a : Dataflow σ α) (g : Graph) (bound : Nat)
    {s : Progress σ α} {b : BlockId} {rest : List BlockId} (h : s.queue = b :: rest) :
    a.run g (bound + 1) s = a.run g bound (a.step g s) := by
  simp [run, h]

def standardBound : Nat := 10000

structure Solution (σ α : Type) where
  state : σ
  before : Table BlockId α
  after : Table BlockId α
  visits : Nat
  /-- Whether the queue was emptied. -/
  converged : Bool

/-- Solves a problem on a graph with at most `bound` visits. -/
def solve [BEq α] (a : Dataflow σ α) (g : Graph) (bound : Nat) (state : σ) : Solution σ α :=
  let s := a.run g bound (start state g)
  ⟨s.state, s.before, s.after, s.visits, s.queue.isEmpty⟩

end Dataflow

end Disclosure
