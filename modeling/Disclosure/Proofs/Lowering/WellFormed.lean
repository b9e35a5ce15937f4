import Disclosure.Proofs.Lowering.Confinement
import Disclosure.Proofs.Lowering.Listing

/-!
# The graph of a procedure is well formed

The construction never works in the exit and never leads back to the entry, because the exit is only
jumped to and the entry is only where it starts.  Everything else that makes a graph well formed is
kept by every step.

The numbers of nodes say in which order they were added.  In which order they are visited is said by
the places of their blocks in reverse postorder, and operands come first in that order, too.
-/

namespace Disclosure

namespace Graph

/-- What a node in the order uses is listed before it, in its own block or in one that comes earlier
in the order. -/
def DefinedBeforeUse (g : Graph) : Prop :=
  ∀ before b after, g.order = before ++ b :: after → ∀ block, g.block? b = some block →
    ∀ pre n post, block.nodes = pre ++ n :: post → ∀ node, g.node? n = some node →
      ∀ o ∈ node.op.operands,
        o ∈ pre ∨ ∃ c ∈ before, ∃ cblock, g.block? c = some cblock ∧ o ∈ cblock.nodes

theorem mem_of_place_lt {g : Graph} {before after : List BlockId} {b c : BlockId}
    (horder : g.order = before ++ b :: after) (h : g.place c < g.place b) : c ∈ before := by
  by_contra hc
  have hb : g.place b ≤ before.length := by
    rw [place, horder, List.idxOf_append]
    split
    · exact List.idxOf_le_length
    · simp
  have hlast : before.length ≤ g.place c := by
    rw [place, horder, List.idxOf_append, if_neg hc]
    exact Nat.le_add_left _ _
  exact Nat.lt_irrefl _ (Nat.lt_of_lt_of_le h (Nat.le_trans hb hlast))

theorem OperandsVisited.definedBeforeUse {g : Graph} (h : g.OperandsVisited) (hg : g.WellListed)
    (hlisted : g.FullyListed) : g.DefinedBeforeUse := by
  intro before b after horder block hblock pre n post hnodes node hnode o ho
  have hreach : g.Reachable b := mem_order_iff.1 (by simp [horder])
  have hsplit := hg.map_id_nodesOf hblock
  rw [hnodes, List.map_eq_append_iff] at hsplit
  obtain ⟨first, rest, hlist, rfl, hrest⟩ := hsplit
  obtain ⟨node', last, rfl, rfl, -⟩ := List.map_eq_cons_iff.1 hrest
  have hmem : node' ∈ g.nodesOf block := by simp [hlist]
  rw [hg.node?_of_mem_nodesOf hmem] at hnode
  cases hnode
  refine (h b block hreach hblock first _ last hlist o ho).imp_right ?_
  rintro ⟨onode, honode, hplace⟩
  obtain ⟨cblock, hcblock, homem⟩ := hlisted.listed_own honode
  exact ⟨onode.block, mem_of_place_lt horder hplace, cblock, hcblock, homem⟩

theorem FullyListed.listing_perm {g : Graph} (h : g.FullyListed) (hg : g.WellListed) :
    g.listing.Perm (List.range g.nextNode) := by
  refine (List.perm_ext_iff_of_nodup hg.nodup_listing List.nodup_range).2 fun n => ?_
  rw [mem_listing_iff, List.mem_range]
  constructor
  · rintro ⟨b, block, hblock, hn⟩
    obtain ⟨node, hnode, -⟩ := hg.listed hblock hn
    exact lt_nextNode_of_node? hnode
  · intro hn
    obtain ⟨node, hnode⟩ := exists_node_of_lt hn
    obtain ⟨block, hblock, hmem⟩ := h.listed_own hnode
    exact ⟨node.block, block, hblock, hmem⟩

end Graph

namespace Procedure

theorem fits_startDraft (proc : Procedure) :
    proc.startDraft.Fits {b | b ≠ proc.startDraft.graph.exit}
      {b | b ≠ proc.startDraft.graph.entry} where
  current_mem := Nat.zero_ne_one
  exit_mem := Nat.one_ne_zero
  loops_mem ht := by cases ht
  young_mem {b} hb := by
    have hle : 2 ≤ b := hb
    exact ⟨Nat.ne_of_gt hle, Nat.ne_of_gt (Nat.lt_of_succ_lt hle)⟩

theorem coherent_startDraft (proc : Procedure) : proc.startDraft.graph.Coherent where
  operandsEarlier n node hn := by simp [Graph.node?, startDraft, Graph.start] at hn
  tests_lt hb ht := by
    rw [(block?_startDraft hb).2] at ht
    cases ht
  targets_subset hb := by
    rw [(block?_startDraft hb).2]
    exact List.nil_subset _

theorem exists_worksIn (p : Program) (proc : Procedure) :
    ∃ d, d.graph = proc.lower p ∧ proc.startDraft.WorksIn {b | b ≠ proc.startDraft.graph.exit}
      {b | b ≠ proc.startDraft.graph.entry} d := by
  have hbody := Stmt.lowerBody_worksIn p proc.body proc.fits_startDraft
  exact ⟨_, rfl, hbody.trans (Lowering.finish_worksIn hbody.fits)⟩

theorem coherent_lower (p : Program) (proc : Procedure) : (proc.lower p).Coherent := by
  obtain ⟨d, hgraph, hwork⟩ := proc.exists_worksIn p
  exact hgraph ▸ hwork.coherent proc.coherent_startDraft

/-- Edges, lists of nodes, operands, entry and exit are as they should be in the graph of every
procedure. -/
theorem wellFormed_lower (p : Program) (proc : Procedure) : (proc.lower p).WellFormed := by
  have hbuilt := proc.built_lower p
  have hlinked := proc.linked_lower p
  have hlisted := proc.fullyListed_lower p
  have hcoherent := proc.coherent_lower p
  obtain ⟨d, hgraph, hwork⟩ := proc.exists_worksIn p
  have halters : proc.startDraft.graph.Alters _ _ (proc.lower p) := hgraph ▸ hwork.alters
  exact {
    exists_pred := fun hb hp => hlinked.exists_block (hlinked.preds_lt hb hp)
    exists_succ := fun hb hc => hlinked.exists_block (hlinked.succs_lt hb hc)
    nodup_preds := fun hb => (hbuilt.nodup_edges hb).1
    nodup_succs := fun hb => (hbuilt.nodup_edges hb).2
    mirrored := hlinked.mirrored
    exists_target := fun hb hc =>
      hlinked.exists_block (hlinked.succs_lt hb (hcoherent.targets_subset hb hc))
    ids_eq := hbuilt.wellListed.map_id_nodes
    listing_perm := hlisted.listing_perm hbuilt.wellListed
    listed_own := hlisted.listed_own
    increasing := hlisted.increasing
    exists_operand := fun hn ho => Graph.exists_node_of_lt
      (Nat.lt_trans (hcoherent.operandsEarlier _ _ hn _ ho) (Graph.lt_nextNode_of_node? hn))
    operandsEarlier := hcoherent.operandsEarlier
    exists_tested := fun hb ht ho => Graph.exists_node_of_lt (hcoherent.tests_lt hb ht ho)
    -- no edge leads into the entry, and no work is done in the exit
    entry_eq := by
      obtain ⟨block, hblock, hpreds⟩ := halters.preds_eq (b := 0) (fun h => h rfl) rfl
      rw [halters.entry_eq]
      exact ⟨block, hblock, hpreds⟩
    exit_eq := by
      obtain ⟨more, -, hblock⟩ := halters.outside (b := 1) (fun h => h rfl) rfl
      rw [halters.exit_eq]
      exact ⟨_, hblock, rfl, rfl, rfl⟩ }

/-- Whatever a node of a procedure uses is listed before it in its block or in a block that comes
earlier in the order, the arms of a conditional and the selector of a choice included. -/
theorem definedBeforeUse_lower (p : Program) (proc : Procedure) :
    (proc.lower p).DefinedBeforeUse :=
  (proc.operandsVisited_lower p).definedBeforeUse (proc.built_lower p).wellListed
    (proc.fullyListed_lower p)

end Procedure

end Disclosure
