import Disclosure.Proofs.Lowering.Steps

/-!
# Well-formed graphs

What a pass over a graph relies on: edges lead to blocks and are listed on both sides, every node is
listed once and in its own block, operands are older nodes, nothing leads to the entry, and the exit
only ends the procedure.  A graph that was built step by step need not be well formed; its edges may
lead nowhere and its operands may be nodes that were not added yet.
-/

namespace Disclosure

def Terminator.operands : Terminator → List NodeId
  | .goto _ => []
  | .branch condition _ _ => [condition]
  | .loop condition _ _ => [condition]
  | .leave result => result.toList
  | .stop => []

namespace Graph

def OperandsEarlier (g : Graph) : Prop :=
  ∀ n node, g.node? n = some node → ∀ o ∈ node.op.operands, o < n

theorem operandsEarlier_iff {g : Graph} :
    g.OperandsEarlier ↔ ∀ n < g.nextNode, ∀ node ∈ g.node? n, ∀ o ∈ node.op.operands, o < n :=
  ⟨fun h n _ node hnode => h n node hnode,
    fun h n node hnode => h n (lt_nextNode_of_node? hnode) node hnode⟩

instance (g : Graph) : Decidable g.OperandsEarlier := decidable_of_iff _ operandsEarlier_iff.symm

/-- The nodes that blocks list, block by block. -/
def listing (g : Graph) : List NodeId :=
  (List.range g.nextBlock).flatMap fun b => ((g.block? b).map Block.nodes).getD []

/-- Edges, lists of nodes, operands, entry and exit are as they should be. -/
structure WellFormed (g : Graph) : Prop where
  exists_pred : ∀ {b block p}, g.block? b = some block → p ∈ block.preds →
    ∃ pblock, g.block? p = some pblock
  exists_succ : ∀ {b block c}, g.block? b = some block → c ∈ block.succs →
    ∃ cblock, g.block? c = some cblock
  nodup_preds : ∀ {b block}, g.block? b = some block → block.preds.Nodup
  nodup_succs : ∀ {b block}, g.block? b = some block → block.succs.Nodup
  mirrored : g.Mirrored
  exists_target : ∀ {b block c}, g.block? b = some block → c ∈ block.targets g.exit →
    ∃ cblock, g.block? c = some cblock
  ids_eq : g.nodes.toList.map Node.id = List.range g.nextNode
  /-- The blocks list every number of a node once, and no others. -/
  listing_perm : g.listing.Perm (List.range g.nextNode)
  listed_own : ∀ {n node}, g.node? n = some node →
    ∃ block, g.block? node.block = some block ∧ n ∈ block.nodes
  increasing : ∀ {b block}, g.block? b = some block → block.nodes.Pairwise (· < ·)
  exists_operand : ∀ {n node o}, g.node? n = some node → o ∈ node.op.operands →
    ∃ onode, g.node? o = some onode
  operandsEarlier : g.OperandsEarlier
  exists_tested : ∀ {b block t o}, g.block? b = some block → block.terminator = some t →
    o ∈ t.operands → ∃ onode, g.node? o = some onode
  entry_eq : ∃ block, g.block? g.entry = some block ∧ block.preds = []
  exit_eq : ∃ block, g.block? g.exit = some block ∧ block.nodes = [] ∧ block.terminator = none ∧
    block.succs = []

end Graph

/-! ## Lists without repetition -/

theorem Block.nodup_adjoin {bs : List BlockId} (h : bs.Nodup) (b : BlockId) :
    (adjoin bs b).Nodup := by
  unfold adjoin
  split
  · exact h
  · rename_i hb
    exact List.nodup_append.2 ⟨h, List.nodup_singleton b, fun c hc c' hc' =>
      ne_of_mem_of_not_mem hc (List.mem_singleton.1 hc' ▸ hb)⟩

namespace Graph

theorem Built.nodup_edges {g : Graph} (h : g.Built) {b : BlockId} {block : Block}
    (hblock : g.block? b = some block) : block.preds.Nodup ∧ block.succs.Nodup := by
  induction h generalizing block with
  | start =>
      match b, hblock with
      | 0, hb => cases hb; exact ⟨List.nodup_nil, List.nodup_nil⟩
      | 1, hb => cases hb; exact ⟨List.nodup_nil, List.nodup_nil⟩
      | b + 2, hb => simp [block?, Graph.start] at hb
  | sign method params _ ih => exact ih hblock
  | addBlock _ ih =>
      rw [block?_addBlock] at hblock
      split at hblock
      · cases hblock
        exact ⟨List.nodup_nil, List.nodup_nil⟩
      · exact ih hblock
  | addEdge a c _ ih =>
      rw [block?_addEdge] at hblock
      obtain ⟨old, hold, rfl⟩ := Option.map_eq_some_iff.1 hblock
      obtain ⟨hpreds, hsuccs⟩ := ih hold
      constructor
      · show List.Nodup (if c = b then _ else _)
        split
        · exact Block.nodup_adjoin hpreds a
        · exact hpreds
      · show List.Nodup (if a = b then _ else _)
        split
        · exact Block.nodup_adjoin hsuccs c
        · exact hsuccs
  | terminate c t _ ih =>
      rw [block?_terminate] at hblock
      split at hblock
      · obtain ⟨old, hold, rfl⟩ := Option.map_eq_some_iff.1 hblock
        obtain ⟨hpreds, hsuccs⟩ := ih hold
        exact ⟨hpreds, hsuccs⟩
      · exact ih hblock
  | addNode c op _ ih =>
      rw [block?_addNode] at hblock
      split at hblock
      · obtain ⟨old, hold, rfl⟩ := Option.map_eq_some_iff.1 hblock
        obtain ⟨hpreds, hsuccs⟩ := ih hold
        exact ⟨hpreds, hsuccs⟩
      · exact ih hblock

/-! ## The numbers of nodes -/

theorem exists_node_of_lt {g : Graph} {n : NodeId} (h : n < g.nextNode) :
    ∃ node, g.node? n = some node :=
  ⟨_, Array.getElem?_eq_getElem h⟩

theorem mem_listing_iff {g : Graph} {n : NodeId} :
    n ∈ g.listing ↔ ∃ b block, g.block? b = some block ∧ n ∈ block.nodes := by
  simp only [listing, List.mem_flatMap, List.mem_range]
  constructor
  · rintro ⟨b, -, hn⟩
    cases hblock : g.block? b with
    | none => simp [hblock] at hn
    | some block => exact ⟨b, block, hblock, by simpa [hblock] using hn⟩
  · rintro ⟨b, block, hblock, hn⟩
    exact ⟨b, lt_nextBlock_of_block? hblock, by simpa [hblock] using hn⟩

theorem WellListed.nodup_listing {g : Graph} (hg : g.WellListed) : g.listing.Nodup := by
  refine List.nodup_flatMap.2 ⟨fun b _ => ?_, List.nodup_range.imp_of_mem fun {b c} _ _ hbc => ?_⟩
  · cases hblock : g.block? b with
    | none => exact List.nodup_nil
    | some block => exact hg.nodup hblock
  · intro n hb hc
    cases hblock : g.block? b with
    | none => simp [hblock] at hb
    | some block =>
        cases hblock' : g.block? c with
        | none => simp [hblock'] at hc
        | some block' =>
            simp only [hblock, hblock', Option.map_some, Option.getD_some] at hb hc
            exact hbc (hg.block_unique hblock hblock' hb hc)

theorem WellListed.map_id_nodes {g : Graph} (hg : g.WellListed) :
    g.nodes.toList.map Node.id = List.range g.nextNode := by
  refine List.ext_getElem? fun n => ?_
  rw [List.getElem?_map, Array.getElem?_toList]
  cases hnode : g.nodes[n]? with
  | none =>
      have hle : g.nextNode ≤ n := Array.getElem?_eq_none_iff.1 hnode
      simpa using hle
  | some node =>
      have hlt : n < g.nextNode := lt_nextNode_of_node? hnode
      simp [List.getElem?_range hlt, hg.id_eq hnode]

end Graph

end Disclosure
