import Disclosure.Analysis
import Disclosure.Proofs.Effect

/-!
# What the second pass keeps

The second pass goes through every block that was reached, from its memory on entry, and keeps what
it finds at each node.  A node belongs to one block, so nothing that is kept is overwritten from
another block.  What is kept of a block in the end is what one run of its nodes from the memory on
entry gives, with some classes recorded before (`Scope.exists_values_findings`).
-/

namespace Disclosure

namespace Scope

variable {sc : Scope} {g : Graph}

theorem foldl_replayNode_point (nodes : List Node) (r : Replay) (m : Memory) :
    (⟨(nodes.foldl (sc.replayNode g) (r, m)).1.values,
      (nodes.foldl (sc.replayNode g) (r, m)).2⟩ : Point) =
      nodes.foldl (sc.visitNode g) ⟨r.values, m⟩ := by
  induction nodes generalizing r m with
  | nil => rfl
  | cons node rest ih =>
      rw [List.foldl_cons, List.foldl_cons, replayNode, ih]

theorem foldl_replayNode_findings_of_not_mem {nodes : List Node} {n : NodeId}
    (hn : n ∉ nodes.map Node.id) (r : Replay × Memory) :
    (nodes.foldl (sc.replayNode g) r).1.findings.get? n = r.1.findings.get? n := by
  induction nodes generalizing r with
  | nil => rfl
  | cons node rest ih =>
      rw [List.map_cons, List.mem_cons, not_or] at hn
      rw [List.foldl_cons, ih hn.2]
      exact Table.get?_insert_of_ne _ _ (Ne.symm hn.1)

theorem foldl_replayNode_findings {pre post : List Node} {node : Node}
    (hnodup : ((pre ++ node :: post).map Node.id).Nodup) (r : Replay) (m : Memory) :
    ((pre ++ node :: post).foldl (sc.replayNode g) (r, m)).1.findings.get? node.id =
      some ⟨((pre ++ [node]).foldl (sc.visitNode g) ⟨r.values, m⟩).values.read node.id,
        ((pre ++ [node]).foldl (sc.visitNode g) ⟨r.values, m⟩).memory⟩ := by
  have hpost : node.id ∉ post.map Node.id := by
    rw [List.map_append, List.map_cons] at hnodup
    exact (List.nodup_cons.1 (List.nodup_append.1 hnodup).2.1).1
  rw [List.foldl_append, List.foldl_cons, foldl_replayNode_findings_of_not_mem hpost,
    List.foldl_append, ← foldl_replayNode_point pre r m]
  exact Table.get?_insert_self _ _ _

variable {entries : Table BlockId Memory}

/-- What was found at a node is kept where no block that lists it is gone through. -/
theorem foldl_replayBlock_findings_of_unlisted (hg : g.WellListed) {n : NodeId} {bs : List BlockId}
    (hn : ∀ b ∈ bs, ∀ {block m}, g.block? b = some block → entries.get? b = some m →
      n ∉ block.nodes) (r : Replay) :
    (bs.foldl (sc.replayBlock g entries) r).findings.get? n = r.findings.get? n := by
  induction bs generalizing r with
  | nil => rfl
  | cons b rest ih =>
      rw [List.foldl_cons, ih fun c hc => hn c (List.mem_cons_of_mem b hc)]
      unfold replayBlock
      split
      · rename_i block m hblock hm
        apply foldl_replayNode_findings_of_not_mem
        rw [hg.map_id_nodesOf hblock]
        exact hn b List.mem_cons_self hblock hm
      · rfl

theorem foldl_replayBlock_findings_of_not_mem (hg : g.WellListed) {b : BlockId} {block : Block}
    (hblock : g.block? b = some block) {n : NodeId} (hn : n ∈ block.nodes) {bs : List BlockId}
    (hb : b ∉ bs) (r : Replay) :
    (bs.foldl (sc.replayBlock g entries) r).findings.get? n = r.findings.get? n := by
  refine foldl_replayBlock_findings_of_unlisted hg (fun c hc _ _ hcblock _ hn' => hb ?_) r
  rwa [hg.block_unique hblock hcblock hn hn']

/-- The findings at the nodes of a block come from the last time that it is gone through. -/
theorem exists_values_foldl_replayBlock (hg : g.WellListed) {b : BlockId} {block : Block}
    {m : Memory} (hblock : g.block? b = some block) (hm : entries.get? b = some m)
    {bs : List BlockId} (hb : b ∈ bs) (r : Replay) :
    ∃ v : Values, ∀ pre node post, g.nodesOf block = pre ++ node :: post →
      (bs.foldl (sc.replayBlock g entries) r).findings.get? node.id =
        some ⟨((pre ++ [node]).foldl (sc.visitNode g) ⟨v, m⟩).values.read node.id,
          ((pre ++ [node]).foldl (sc.visitNode g) ⟨v, m⟩).memory⟩ := by
  induction bs generalizing r with
  | nil => simp at hb
  | cons c rest ih =>
      by_cases hrest : b ∈ rest
      · exact ih hrest (sc.replayBlock g entries r c)
      · have hcb : c = b := by
          rcases List.mem_cons.1 hb with h | h
          · exact h.symm
          · exact absurd h hrest
        subst hcb
        refine ⟨r.values, fun pre node post hnodes => ?_⟩
        have hids := hg.map_id_nodesOf hblock
        have hnode : node.id ∈ block.nodes := by
          rw [← hids, hnodes]
          simp
        have hnodup := hg.nodup hblock
        rw [← hids, hnodes] at hnodup
        rw [List.foldl_cons, foldl_replayBlock_findings_of_not_mem hg hblock hnode hrest]
        simp only [replayBlock, hblock, hm, hnodes]
        exact foldl_replayNode_findings hnodup r m

theorem exists_node_of_isReached (hg : g.WellListed) {bound : Nat} {n : NodeId}
    (h : (sc.analyze g bound).isReached n = true) : ∃ node, g.node? n = some node := by
  by_contra hnot
  have hnone : (sc.analyze g bound).findings.get? n = none := by
    refine foldl_replayBlock_findings_of_unlisted hg (fun b _ block _ hblock _ hn => hnot ?_) _
    obtain ⟨node, hnode, -⟩ := hg.listed hblock hn
    exact ⟨node, hnode⟩
  simp [Outcome.isReached, Table.contains, hnone] at h

theorem exists_values_findings (hg : g.WellListed) {bound : Nat} {b : BlockId} {block : Block}
    {m : Memory} (hblock : g.block? b = some block) (hreach : g.Reachable b)
    (hm : Outcome.atEntry? (sc.analyze g bound) b = some m) :
    ∃ v : Values, ∀ pre node post, g.nodesOf block = pre ++ node :: post →
      (sc.analyze g bound).findings.get? node.id =
        some ⟨((pre ++ [node]).foldl (sc.visitNode g) ⟨v, m⟩).values.read node.id,
          ((pre ++ [node]).foldl (sc.visitNode g) ⟨v, m⟩).memory⟩ :=
  exists_values_foldl_replayBlock hg hblock hm (Graph.mem_order_iff.2 hreach) _

end Scope

end Disclosure
