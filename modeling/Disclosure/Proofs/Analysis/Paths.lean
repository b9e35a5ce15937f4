import Disclosure.Proofs.Analysis.Replay

/-!
# What the analysis says of a path

A path goes from the entry along edges and may take a loop any number of times.  To follow a path
is to visit the nodes of its blocks one after the other, starting with the classes that are declared
for the parameters.  The analysis joins what comes in over several edges, so it may say more than a
path shows, but never less: whatever is found along a path is below what the analysis found.

The induction is on the path.  It carries the memory on arrival only: in a graph whose nodes take
their operands from their own block, the classes that were recorded on the way do not matter.
-/

namespace Disclosure

namespace Graph

/-- There is a path from the entry through the listed blocks, in order, to a further block. -/
inductive Path (g : Graph) : List BlockId → BlockId → Prop where
  | entry : Path g [] g.entry
  | step {bs : List BlockId} {b c : BlockId} {block : Block} (hpath : Path g bs b)
      (hblock : g.block? b = some block) (hc : c ∈ block.succs) : Path g (bs ++ [b]) c

theorem Path.reachable {g : Graph} {bs : List BlockId} {b : BlockId} (h : g.Path bs b) :
    g.Reachable b := by
  induction h with
  | entry => exact .entry
  | step _ hblock hc ih => exact ih.step (mem_succs_iff.2 ⟨_, hblock, hc⟩)

end Graph

namespace Scope

def follow (sc : Scope) (g : Graph) (bs : List BlockId) : Point :=
  bs.foldl (fun pt b => match g.block? b with
    | some block => sc.visitBlock g block pt
    | none => pt) ⟨∅, sc.entryMemory g⟩

theorem follow_append_singleton (sc : Scope) {g : Graph} (bs : List BlockId) {b : BlockId}
    {block : Block} (hblock : g.block? b = some block) :
    sc.follow g (bs ++ [b]) = sc.visitBlock g block (sc.follow g bs) := by
  simp [follow, hblock]

variable {sc : Scope} {g : Graph} {bound : Nat}

theorem visitBlock_below_after (hself : g.SelfContained) {b : BlockId} {block : Block}
    {m : Memory} (hblock : g.block? b = some block)
    (hbefore : ((sc.dataflow g).solve g bound ∅).before.get? b = some m) {pt : Point}
    (hpt : pt.memory.Below m) :
    ∃ out, ((sc.dataflow g).solve g bound ∅).after.get? b = some out ∧
      (sc.visitBlock g block pt).memory.Below out := by
  obtain ⟨out, hafter, hout⟩ := Dataflow.passed_solve (sc.stateless_dataflow hself) hblock hbefore
  have hvisit : (sc.visitBlock g block pt).memory.Below (sc.visitBlock g block ⟨∅, m⟩).memory :=
    (hself.agree agreement_below sc hblock (List.append_nil _).symm hpt pt.values ∅).1
  refine ⟨out, hafter, hvisit.trans ?_⟩
  rcases hout with rfl | heq
  · exact Memory.Below.refl _
  · exact fun l => (Memory.read_eq_of_beq heq l).ge

theorem follow_below_before (hg : g.Mirrored) (hself : g.SelfContained)
    (h : ((sc.dataflow g).solve g bound ∅).converged = true) {bs : List BlockId} {b : BlockId}
    (hpath : g.Path bs b) : ∀ {block}, g.block? b = some block →
      ∃ m, ((sc.dataflow g).solve g bound ∅).before.get? b = some m ∧
        (sc.follow g bs).memory.Below m := by
  have hjoined := fun {b block} (hblock : g.block? b = some block) (hb : g.Reachable b) =>
    Dataflow.before_solve (sc.steady_dataflow g) hg h hblock hb
  induction hpath with
  | entry =>
      intro block hblock
      refine ⟨_, hjoined hblock .entry, Memory.Below.joinAll ?_⟩
      simp [Dataflow.meeting, follow, dataflow]
  | @step bs b c pblock hpath hpblock hc ih =>
      intro block hblock
      obtain ⟨m, hbefore, hbelow⟩ := ih hpblock
      obtain ⟨out, hafter, hout⟩ := visitBlock_below_after hself hpblock hbefore hbelow
      have hmeet : out ∈ Dataflow.meeting g (sc.entryMemory g)
          ((sc.dataflow g).solve g bound ∅).after.get? block c :=
        List.mem_append_left _ (List.mem_filterMap.2 ⟨b, (hg hpblock hblock).2 hc, hafter⟩)
      rw [follow_append_singleton sc bs hpblock]
      exact ⟨_, hjoined hblock (hpath.step hpblock hc).reachable,
        hout.trans (Memory.Below.joinAll hmeet)⟩

end Scope

/-- What is found along a path is below what the analysis found: the memory on arrival at a block,
and the value and the memory at each of its nodes. -/
theorem Policy.follow_below_analyze (pol : Policy) (p : Program) {g : Graph} (hbuilt : g.Built)
    (hg : g.Mirrored) (hops : g.UsesPrecede Operation.operands)
    (h : (pol.analyze p g).converged = true)
    {bs : List BlockId} {b : BlockId} {block : Block} (hpath : g.Path bs b)
    (hblock : g.block? b = some block) :
    (∃ m, Outcome.atEntry? (pol.analyze p g) b = some m ∧
      ((pol.scope p).follow g bs).memory.Below m) ∧
    ∀ pre node post, g.nodesOf block = pre ++ node :: post →
      let pt := (pre ++ [node]).foldl ((pol.scope p).visitNode g) ((pol.scope p).follow g bs)
      pt.values.read node.id ≤ (pol.analyze p g).valueOf node.id ∧
        ∃ m, (pol.analyze p g).after? node.id = some m ∧ pt.memory.Below m := by
  have hinputs : g.UsesPrecede Operation.inputs := hops.mono Operation.inputs_subset_operands
  have hself : g.SelfContained := hinputs.selfContained hbuilt.wellListed
  obtain ⟨m, hentry, hbelow⟩ := Scope.follow_below_before hg hself h hpath hblock
  refine ⟨⟨m, hentry, hbelow⟩, ?_⟩
  intro pre node post hnodes pt
  obtain ⟨v, hfindings⟩ :=
    Scope.exists_values_findings hbuilt.wellListed hblock hpath.reachable hentry
  have hfinding := hfindings pre node post hnodes
  have hsplit : g.nodesOf block = (pre ++ [node]) ++ post := by simp [hnodes]
  have hagree := hself.agree agreement_below (pol.scope p) hblock hsplit hbelow
    ((pol.scope p).follow g bs).values v
  have hvalue := hagree.2 node.id (by simp)
  refine ⟨?_, _, ?_, hagree.1⟩
  · rw [Outcome.valueOf, Policy.analyze, hfinding]
    exact hvalue
  · rw [Outcome.after?, Policy.analyze, hfinding]
    rfl

/-- A loop whose body overwrites the literal that the entry block assigned to a variable. -/
theorem Policy.follow_below_analyze_loop :
    let g := ((((((((((((Graph.start.addBlock.addBlock.addNode 0 (.literal (.int 1))).addNode
      0 (.var ⟨5⟩)).addNode 0 (.assignment 1 0)).addNode 2 (.var ⟨5⟩)).addNode
      3 (.var ⟨6⟩)).addNode 3 (.var ⟨5⟩)).addNode 3 (.assignment 5 4)).terminate
      2 (.loop 3 3 1)).addEdge 0 2).addEdge 2 3).addEdge 2 1).addEdge 3 2)
    let o := Policy.standard.analyze ∅ g
    g.Built ∧ g.Mirrored ∧ g.UsesPrecede Operation.operands ∧ o.converged = true ∧
      g.Path [0, 2, 3] 2 ∧
      (∃ m, Outcome.atEntry? o 2 = some m ∧
        ((Policy.standard.scope ∅).follow g [0, 2, 3]).memory.Below m) := by
  intro g o
  have hbuilt : g.Built :=
    ((((((((((((Graph.Built.start.addBlock.addBlock.addNode _ _).addNode _ _).addNode _ _).addNode
      _ _).addNode _ _).addNode _ _).addNode _ _).terminate _ _).addEdge _ _).addEdge _ _).addEdge
      _ _).addEdge _ _)
  have hg : g.Mirrored := by decide +kernel
  have hops : g.UsesPrecede Operation.operands := by decide +kernel
  have hconverged : o.converged = true := by decide +kernel
  have hpath : g.Path [0, 2, 3] 2 :=
    ((Graph.Path.entry.step rfl (by decide)).step rfl (by decide)).step rfl (by decide)
  have hblock : ∃ block, g.block? 2 = some block := ⟨_, rfl⟩
  obtain ⟨block, hblock⟩ := hblock
  exact ⟨hbuilt, hg, hops, hconverged, hpath,
    (Policy.standard.follow_below_analyze ∅ hbuilt hg hops hconverged hpath hblock).1⟩

end Disclosure
