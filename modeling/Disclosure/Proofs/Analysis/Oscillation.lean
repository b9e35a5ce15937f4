import Disclosure.Proofs.Analysis.Convergence
import Disclosure.Proofs.Dataflow.Recurrence
import Disclosure.Proofs.Graph.WellFormed

/-!
# Graphs whose analysis stops, and one whose analysis does not

Memories have a finite height, but the analysis of a graph can run for ever all the same.  A node
that was not visited yet counts as `unknown`.  If a block reads it and the node turns out to be safe
later, the memory after the block falls, and in a graph with loops the earlier and the later memory
can follow each other round the loops without end.  That operands have smaller numbers than the
nodes that use them is no help: the numbers say when a node was added, not when it is visited.  What
helps is that operands are visited first, as they are in the graphs of procedures.
-/

namespace Disclosure

namespace Graph

/-- Three loops that share a block.  Block 2 branches to 3 and 6, block 6 to 4 and the exit, block 4
to 5 and back to 2; 3 goes on to 4, and 5 to 6.  A variable is set to a constant in blocks 0, 3 and
5, and in block 4 to the sum of a variable and the node `addend`. -/
def roundabout (addend : NodeId) : Graph :=
  let nodes : List (BlockId × Operation) :=
    [(0, .literal (.int 1)), (0, .var ⟨0⟩), (0, .assignment 1 0),
      (3, .literal (.int 1)), (3, .var ⟨0⟩), (3, .assignment 4 3),
      (5, .literal (.int 1)), (5, .var ⟨0⟩), (5, .assignment 7 6),
      (4, .var ⟨0⟩), (4, .binary .add 9 addend), (4, .assignment 9 10)]
  let ends : List (BlockId × Terminator) :=
    [(0, .goto 2), (2, .branch 0 3 6), (3, .goto 4), (4, .branch 0 5 2), (5, .goto 6),
      (6, .branch 0 4 1)]
  ends.foldl (fun g e => g.endWith e.1 e.2) (nodes.foldl (fun g n => g.addNode n.1 n.2)
    start.addBlock.addBlock.addBlock.addBlock.addBlock)

theorem built_roundabout (addend : NodeId) : (roundabout addend).Built := by
  refine List.foldlRecOn _ _ (List.foldlRecOn _ _ ?_ ?_) ?_
  · exact .addBlock (.addBlock (.addBlock (.addBlock (.addBlock .start))))
  · exact fun _ hg n _ => hg.addNode n.1 n.2
  · exact fun _ hg e _ => hg.endWith e.1 e.2

end Graph

namespace Scope

variable {g : Graph}

theorem spare_some_lt_spare_none (g : Graph) (m : Memory) : spare g (some m) < spare g none := by
  have hlevel := m.card_le_level g.storable
  simp only [spare]
  omega

theorem spare_lt_spare_of_within {m m' : Memory} (hm : ∀ l, m'.contains l = true → l ∈ g.storable)
    (hle : m.Within m') (hne : (m == m') = false) : spare g (some m') < spare g (some m) := by
  have hlt := hle.level_lt hne fun {l} hl => hm l hl
  have hmax := m'.level_le g.storable
  simp only [spare]
  omega

/-- With every bound that is large enough the analysis of a graph is completed exactly if from some
visit on memories only rise.  So it is wherever operands are visited before the nodes that use them;
one visit for each block in the order, and for each edge one more and three for each location that
can be stored, are enough there. -/
theorem converges_analyze_iff_risesFrom (sc : Scope) (g : Graph) :
    ((∃ N, ∀ bound ≥ N, (sc.analyze g bound).converged = true) ↔
        ∃ n, (sc.dataflow g).RisesFrom g Memory.Within ∅ n) ∧
      (g.Built → g.Mirrored → g.FullyListed → g.OperandsVisited →
        ∀ bound ≥ g.order.length + Dataflow.edgeCount g * (1 + 3 * g.storable.card),
          (sc.analyze g bound).converged = true) := by
  constructor
  · exact Dataflow.converges_iff_risesFrom (sc.keeps_storable g)
      (fun m _ => spare_some_lt_spare_none g m)
      (fun _ hkind hle hne => spare_lt_spare_of_within hkind hle hne) Memory.Within.refl
  · intro hbuilt hmirrored hlisted hvisited bound hbound
    have hisotone := sc.isotone_dataflow hbuilt.wellListed hlisted hvisited
    exact hisotone.converged hmirrored (sc.keeps_storable g) (spare g)
      (fun m _ => spare_some_lt_spare_none g m)
      (fun _ hkind hle hne => spare_lt_spare_of_within hkind hle hne) hbound ∅

/-- The sum in the loop reads a node of block 3, which is visited before it. -/
theorem converges_analyze_roundabout :
    let sc : Scope := ⟨∅, .standard⟩
    let g := Graph.roundabout 3
    g.Built ∧ g.Mirrored ∧ g.FullyListed ∧ g.OperandsVisited ∧ g.order.length = 7 ∧
      Dataflow.edgeCount g = 9 ∧ g.storable.card = 1 ∧
      ∀ bound ≥ 7 + 9 * (1 + 3 * 1), (sc.analyze g bound).converged = true := by
  intro sc g
  have hmirrored : g.Mirrored := by decide +kernel
  have hlisted : g.FullyListed := by decide +kernel
  have hvisited : g.OperandsVisited := by decide +kernel
  have horder : g.order.length = 7 := by decide +kernel
  have hedges : Dataflow.edgeCount g = 9 := by decide +kernel
  have hcard : g.storable.card = 1 := by decide +kernel
  refine ⟨Graph.built_roundabout 3, hmirrored, hlisted, hvisited, horder, hedges, hcard, ?_⟩
  have hbound := (sc.converges_analyze_iff_risesFrom g).2 (Graph.built_roundabout 3) hmirrored
    hlisted hvisited
  rwa [horder, hedges, hcard] at hbound

/-- If the sum reads a node of block 5 instead, which is visited after it, then the analysis is at
the 21st visit where it was at the 9th, and so it is never completed. -/
theorem not_converges_analyze_roundabout :
    let sc : Scope := ⟨∅, .standard⟩
    let g := Graph.roundabout 6
    g.Built ∧ g.OperandsEarlier ∧ g.Mirrored ∧ g.FullyListed ∧
      ¬ ∃ N, ∀ bound ≥ N, (sc.analyze g bound).converged = true := by
  intro sc g
  have hearlier : g.OperandsEarlier := by decide +kernel
  have hmirrored : g.Mirrored := by decide +kernel
  have hlisted : g.FullyListed := by decide +kernel
  refine ⟨Graph.built_roundabout 6, hearlier, hmirrored, hlisted, ?_⟩
  have hqueue : ((sc.dataflow g).run g 9 (Dataflow.start ∅ g)).queue ≠ [] := by decide +kernel
  have hrecurs : (sc.dataflow g).run g (9 + 12) (Dataflow.start ∅ g) =
      { (sc.dataflow g).run g 9 (Dataflow.start ∅ g) with visits := 21 } := by decide +kernel
  rintro ⟨N, hN⟩
  have hnever := Dataflow.converged_eq_false_of_recurs (by decide : 0 < 12) hqueue hrecurs N
  exact absurd (hN N (Nat.le_refl N)) (Bool.eq_false_iff.1 hnever)

end Scope

end Disclosure
