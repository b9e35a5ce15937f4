import Disclosure.Effect
import Disclosure.Graph.Lowering

/-!
# The analysis of a procedure

The dataflow problem of a graph is solved; then every block that was reached is gone through once
more from its memory on entry, and what is found at each node is kept.
-/

namespace Disclosure

structure Finding where
  value : Sensitivity
  after : Memory

structure Outcome where
  /-- The nodes that were reached, in the order in which they were gone through. -/
  findings : Table NodeId Finding
  /-- The memories on entry to blocks. -/
  entries : Table BlockId Memory
  /-- The memory on entry to the exit block. -/
  atExit : Option Memory
  visits : Nat
  /-- Whether the analysis was completed. -/
  converged : Bool

namespace Outcome

/-- The class of the value of a node; `unknown` for a node that was not reached. -/
def valueOf (o : Outcome) (n : NodeId) : Sensitivity :=
  match o.findings.get? n with
  | some f => f.value
  | none => .unknown

def isReached (o : Outcome) (n : NodeId) : Bool := o.findings.contains n

def after? (o : Outcome) (n : NodeId) : Option Memory := (o.findings.get? n).map Finding.after

def atEntry? (o : Outcome) (b : BlockId) : Option Memory := o.entries.get? b

def readAtExit (o : Outcome) (l : Location) : Sensitivity :=
  match o.atExit with
  | some m => m.read l
  | none => .unknown

end Outcome

/-- How far the second pass has come. -/
structure Replay where
  values : Values
  findings : Table NodeId Finding

namespace Scope

def replayNode (sc : Scope) (g : Graph) (r : Replay × Memory) (node : Node) : Replay × Memory :=
  let pt := sc.visitNode g ⟨r.1.values, r.2⟩ node
  (⟨pt.values, r.1.findings.insert node.id ⟨pt.values.read node.id, pt.memory⟩⟩, pt.memory)

/-- Goes through a block, if it exists and was reached. -/
def replayBlock (sc : Scope) (g : Graph) (entries : Table BlockId Memory) (r : Replay)
    (b : BlockId) : Replay :=
  match g.block? b, entries.get? b with
  | some block, some m => ((g.nodesOf block).foldl (sc.replayNode g) (r, m)).1
  | _, _ => r

/-- Analyses a graph with at most `bound` visits of blocks. -/
def analyze (sc : Scope) (g : Graph) (bound : Nat) : Outcome :=
  let solution := (sc.dataflow g).solve g bound ∅
  let replay := g.order.foldl (sc.replayBlock g solution.before) ⟨solution.state, ∅⟩
  { findings := replay.findings
    entries := solution.before
    atExit := solution.before.get? g.exit
    visits := solution.visits
    converged := solution.converged }

end Scope

namespace Policy

def scope (pol : Policy) (p : Program) : Scope := ⟨p, pol.marks⟩

def analyze (pol : Policy) (p : Program) (g : Graph) : Outcome :=
  (pol.scope p).analyze g pol.maxVisits.toNat

def analyzeProcedure (pol : Policy) (p : Program) (proc : Procedure) : Outcome :=
  pol.analyze p (proc.lower p)

end Policy

end Disclosure
