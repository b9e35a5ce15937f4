import Disclosure.Proofs.Analysis.Replay
import Disclosure.Proofs.Dataflow.FirstPass
import Disclosure.Proofs.Lowering.Listing
import Disclosure.Proofs.Lowering.Liveness

/-!
# Which nodes the analysis reaches

A bound that lets the analysis visit each block in the order once is enough for it to come to every
block that control can come to, whether it is completed or not.  It keeps what it finds at the nodes
of these blocks, and at no others.  So the nodes that it reaches are those of the statements that
are live, and there is a memory at the exit if control can come to the end of the body or to a
`leave`.
-/

namespace Disclosure

namespace Scope

variable {sc : Scope} {g : Graph} {bound : Nat}

theorem exists_entry_iff (hg : g.Mirrored) (hbound : g.order.length ≤ bound) {b : BlockId}
    {block : Block} (hblock : g.block? b = some block) :
    (∃ m, Outcome.atEntry? (sc.analyze g bound) b = some m) ↔ g.Reachable b := by
  have hafter : ((sc.dataflow g).solve g bound ∅).after.contains b = true ↔ g.Reachable b :=
    Dataflow.contains_after_of_order_length_le (sc.steady_dataflow g) hg hbound hblock
  rw [← Dataflow.contains_before_solve (sc.steady_dataflow g) hg] at hafter
  exact Table.contains_iff_exists.symm.trans hafter

theorem isReached_iff (hl : g.WellListed) (hlisted : g.FullyListed) (hg : g.Mirrored)
    (hbound : g.order.length ≤ bound) {n : NodeId} {node : Node} (hn : g.node? n = some node) :
    (sc.analyze g bound).isReached n = true ↔ g.Reachable node.block := by
  obtain ⟨block, hblock, hmem⟩ := hlisted.listed_own hn
  constructor
  · intro hreached
    by_contra hnot
    have hnone : (sc.analyze g bound).findings.get? n = none :=
      foldl_replayBlock_findings_of_not_mem hl hblock hmem (mt Graph.mem_order_iff.1 hnot) _
    simp [Outcome.isReached, Table.contains, hnone] at hreached
  · intro hreach
    obtain ⟨m, hm⟩ := (exists_entry_iff hg hbound hblock).2 hreach
    obtain ⟨v, hfindings⟩ := exists_values_findings hl hblock hreach hm
    obtain ⟨pre, post, hnodes⟩ := List.append_of_mem (List.mem_filterMap.2 ⟨n, hmem, hn⟩)
    rw [Outcome.isReached, ← hl.id_eq hn]
    exact Table.contains_iff_exists.2 ⟨_, hfindings pre node post hnodes⟩

/-- The analysis reaches the nodes of the live statements of a procedure, and there is a memory at
the exit if control can come to the end of the body or to a `leave`. -/
theorem isReached_analyze_lower (sc : Scope) (proc : Procedure) (hjumps : proc.JumpsLand)
    {bound : Nat} (hbound : (proc.lower sc.program).order.length ≤ bound) :
    (List.range (proc.lower sc.program).nextNode).map
        (sc.analyze (proc.lower sc.program) bound).isReached =
      Stmt.nodeMarks sc.program (Stmt.occurrencesIn true proc.body) ∧
    ((sc.analyze (proc.lower sc.program) bound).atExit.isSome = true ↔
      (Stmt.waysIn proc.body).completes = true ∨
        Stmt.Leaves (Stmt.occurrencesIn true proc.body)) := by
  obtain ⟨hlength, hmarks, hexit⟩ := proc.reachable_lower sc.program hjumps
  have hmirrored : (proc.lower sc.program).Mirrored := (proc.linked_lower sc.program).mirrored
  constructor
  · refine List.ext_getElem (by simp [hlength]) fun n hn hn' => ?_
    rw [List.getElem_map, List.getElem_range, Bool.eq_iff_iff]
    obtain ⟨node, hnode⟩ : ∃ node, (proc.lower sc.program).node? n = some node :=
      ⟨_, Array.getElem?_eq_getElem (Nat.lt_of_lt_of_eq hn' hlength)⟩
    rw [isReached_iff (proc.built_lower sc.program).wellListed (proc.fullyListed_lower sc.program)
      hmirrored hbound hnode, hmarks n node hnode, List.getElem?_eq_getElem hn', Option.some.injEq]
  · obtain ⟨d, hgraph, hpass, -⟩ := proc.exists_run sc.program .free False.elim False.elim
    obtain ⟨block, hblock⟩ := hpass.sound.linked.exists_block hpass.sound.exit_lt
    rw [hgraph] at hblock
    rw [← hexit, ← exists_entry_iff hmirrored hbound hblock]
    exact Option.isSome_iff_exists

/-- A loop with a jump to its next round and a choice with a case that goes on with the next one:
control comes to what follows the choice because a case leaves it, and not to what follows a
jump. -/
theorem isReached_analyze_lower_jumps :
    let x : Expr := .var ⟨0⟩ (.primitive .int)
    let one : Expr := .literal (.int 1) (.primitive .int)
    let proc : Procedure := ⟨⟨1⟩, [⟨0⟩], [
      .loop x [.branch x [.nextRound, .eval x] none, .exitLoop, .eval one],
      .select x [.mk one [.eval x], .mk one [.exitLoop, .eval one]] (some [.raise x, .eval one]),
      .leave (some one), .eval x]⟩
    let sc : Scope := ⟨∅, .standard⟩
    let g := proc.lower sc.program
    proc.JumpsLand ∧ g.order.length = 14 ∧
      (List.range g.nextNode).map (sc.analyze g 14).isReached =
        [true, true, false, false, true, true, true, true, true, true, false, true, true, false,
          true, true, false] ∧
      (sc.analyze g 14).atExit.isSome = true := by
  intro x one proc sc g
  have hjumps : proc.JumpsLand := by decide
  have horder : g.order.length = 14 := by decide +kernel
  obtain ⟨hreached, hexit⟩ := sc.isReached_analyze_lower proc hjumps (Nat.le_of_eq horder)
  refine ⟨hjumps, horder, hreached.trans ?_, hexit.2 (Or.inr ⟨some one, ?_⟩)⟩
  · decide +kernel
  · simp [proc, Stmt.occurrencesIn, Stmt.occurrences, Stmt.ways, Stmt.waysIn, Ways.andThen,
      Case.exitsIn]

end Scope

end Disclosure
