import Disclosure.Proofs.Analysis.Invariant

/-!
# Locations that are not written

The analysis goes only through the blocks in the order, and an assignment changes only the locations
that it writes.  So a location that none of the nodes in these blocks writes is, in every memory
that the analysis reports, what it is on entry to the procedure: it has the same class there, or it
is not listed there either.  Where ways meet this is no matter of course, since a join lists
whatever one of the memories lists, and raises what only one of them lists to `unknown` at least; it
holds because the memories that meet agree at the location.
-/

namespace Disclosure

theorem Memory.get?_join_of_get?_eq {m m' : Memory} {l : Location} (h : m.get? l = m'.get? l) :
    (m.join m').get? l = m.get? l := by
  rw [get?_join, read, Table.contains, ← h]
  cases m.get? l with
  | none => rfl
  | some s => simp

namespace Graph

/-- The locations that the nodes in the blocks of the order write. -/
def written (g : Graph) : List Location :=
  g.order.flatMap fun b =>
    match g.block? b with
    | some block => (g.nodesOf block).flatMap g.writtenBy
    | none => []

theorem mem_written {g : Graph} {b : BlockId} {block : Block} {node : Node} {l : Location}
    (hb : g.Reachable b) (hblock : g.block? b = some block) (hnode : node ∈ g.nodesOf block)
    (hl : l ∈ g.writtenBy node) : l ∈ g.written := by
  apply List.mem_flatMap.2
  refine ⟨b, mem_order_iff.2 hb, ?_⟩
  rw [hblock]
  exact List.mem_flatMap.2 ⟨node, hnode, hl⟩

end Graph

namespace Scope

variable {g : Graph} {l : Location}

/-- Where a location is not written, all memories agree with the one on entry. -/
theorem maintains_of_notMem_written (sc : Scope) (hl : l ∉ g.written) :
    sc.Maintains g (fun _ => True) fun m => m.get? l = (sc.entryMemory g).get? l where
  values_empty := trivial
  entry := rfl
  join hm hm' := (Memory.get?_join_of_get?_eq (hm.trans hm'.symm)).trans hm
  visit {b block node pt} hb hblock hnode _ hm := by
    have hkeys : l ∉ (g.updatesOf pt.values node.op).map Prod.fst := by
      rw [Graph.map_fst_updatesOf]
      exact fun hmem => hl (Graph.mem_written hb hblock hnode hmem)
    refine ⟨trivial, ?_⟩
    rw [visitNode, Graph.execute_eq_insertAll, Table.get?_insertAll_of_notMem hkeys]
    exact hm

/-- Every memory that the analysis reports agrees with the memory on entry to the procedure at the
locations that are not written: they read the same, and they are listed if they are there. -/
theorem read_analyze_of_notMem_written (sc : Scope) (g : Graph) (bound : Nat) {l : Location}
    (hl : l ∉ g.written) {m : Memory} (hm : (sc.analyze g bound).Reports m) :
    m.read l = (sc.entryMemory g).read l ∧ m.contains l = (sc.entryMemory g).contains l := by
  have hget := (sc.maintains_of_notMem_written hl).of_reports bound hm
  constructor
  · rw [Memory.read, Memory.read, hget]
  · rw [Table.contains, Table.contains, hget]

/-- A loop that writes its value into an array: the parameter that holds the value keeps its class,
the array does not, and a variable that nothing writes stays unlisted. -/
theorem read_analyze_of_notMem_written_loop :
    let p : Program := (((∅ : Program).declare "secret" (.parameter .null ⟨9⟩)).mark ⟨0⟩
      Marks.standard.forbidden).declare "sink" (.parameter (.array .null) ⟨9⟩)
    let g : Graph := { (((((((((Graph.start.addBlock.addBlock.addNode 3 (.var ⟨1⟩)).addNode
      3 (.var ⟨2⟩)).addNode 3 (.element 0 1)).addNode 3 (.var ⟨0⟩)).addNode
      3 (.assignment 2 3)).addEdge 0 2).addEdge 2 3).addEdge 2 1).addEdge 3 2) with
        params := [⟨0⟩, ⟨1⟩] }
    let sc : Scope := ⟨p, .standard⟩
    let o := sc.analyze g 100
    (.var ⟨0⟩ : Location) ∉ g.written ∧ (.var ⟨2⟩ : Location) ∉ g.written ∧ ∃ m, o.atExit = some m ∧
      m.read (.var ⟨1⟩) ≠ (sc.entryMemory g).read (.var ⟨1⟩) ∧
      (m.read (.var ⟨0⟩) = .forbidden ∧ m.contains (.var ⟨0⟩) = true) ∧
      (m.read (.var ⟨2⟩) = .unknown ∧ m.contains (.var ⟨2⟩) = false) := by
  intro p g sc o
  have hsecret : (.var ⟨0⟩ : Location) ∉ g.written := by decide +kernel
  have hindex : (.var ⟨2⟩ : Location) ∉ g.written := by decide +kernel
  have hsink : o.readAtExit (.var ⟨1⟩) ≠ (sc.entryMemory g).read (.var ⟨1⟩) := by decide +kernel
  have hexit : o.atExit.isSome = true := by decide +kernel
  obtain ⟨m, hm⟩ := Option.isSome_iff_exists.1 hexit
  rw [Outcome.readAtExit, hm] at hsink
  have hkept := sc.read_analyze_of_notMem_written g 100 hsecret (.exit hm)
  have hunlisted := sc.read_analyze_of_notMem_written g 100 hindex (.exit hm)
  have hstart : (sc.entryMemory g).read (.var ⟨0⟩) = .forbidden ∧
      (sc.entryMemory g).contains (.var ⟨0⟩) = true ∧
      (sc.entryMemory g).read (.var ⟨2⟩) = .unknown ∧
      (sc.entryMemory g).contains (.var ⟨2⟩) = false := by decide +kernel
  rw [hstart.1, hstart.2.1] at hkept
  rw [hstart.2.2.1, hstart.2.2.2] at hunlisted
  exact ⟨hsecret, hindex, m, hm, hsink, hkept, hunlisted⟩

end Scope

end Disclosure
