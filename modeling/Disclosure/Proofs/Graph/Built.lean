import Disclosure.Graph.Basic
import Mathlib.Data.List.Nodup

/-!
# Graphs that were built step by step

`g.Built` says that `g` comes from the graph with an entry and an exit by adding blocks, edges,
terminators and nodes.  In such a graph a node has its own number, and a block lists only nodes that
were added to it, each once (`Graph.WellListed`).  So a node is listed in one block at most.

Edges are another matter: an edge may name a block that does not exist, and if the block is added
afterwards only one side of the edge is there.  `g.Mirrored` says that this has not happened.
-/

namespace Disclosure

namespace Block

def adjoin (bs : List BlockId) (b : BlockId) : List BlockId := if b ∈ bs then bs else bs ++ [b]

theorem mem_adjoin {bs : List BlockId} {b c : BlockId} : c ∈ adjoin bs b ↔ c ∈ bs ∨ c = b := by
  unfold adjoin
  split
  · rename_i hb
    constructor
    · exact Or.inl
    · rintro (hc | rfl)
      · exact hc
      · exact hb
  · simp

theorem mem_foldl_adjoin {targets bs : List BlockId} {c : BlockId} :
    c ∈ targets.foldl adjoin bs ↔ c ∈ bs ∨ c ∈ targets := by
  induction targets generalizing bs with
  | nil => simp
  | cons target rest ih => rw [List.foldl_cons, ih, mem_adjoin, List.mem_cons, or_assoc]

theorem prefix_foldl_adjoin (targets bs : List BlockId) : bs <+: targets.foldl adjoin bs := by
  induction targets generalizing bs with
  | nil => exact List.prefix_refl bs
  | cons target rest ih =>
      have hadjoin : bs <+: adjoin bs target := by
        unfold adjoin
        split
        · exact List.prefix_refl bs
        · exact List.prefix_append bs [target]
      exact hadjoin.trans (ih (adjoin bs target))

theorem length_foldl_adjoin_le (targets bs : List BlockId) :
    (targets.foldl adjoin bs).length ≤ bs.length + targets.length := by
  induction targets generalizing bs with
  | nil => exact Nat.le_refl _
  | cons target rest ih =>
      have hadjoin : (adjoin bs target).length ≤ bs.length + 1 := by
        unfold adjoin
        split <;> simp
      have hrest := ih (adjoin bs target)
      rw [List.foldl_cons, List.length_cons]
      omega

theorem addSucc_eq (b : Block) (target : BlockId) :
    b.addSucc target = { b with succs := adjoin b.succs target } := by
  unfold addSucc adjoin
  split <;> rfl

theorem addPred_eq (b : Block) (source : BlockId) :
    b.addPred source = { b with preds := adjoin b.preds source } := by
  unfold addPred adjoin
  split <;> rfl

end Block

namespace Graph

open Block (adjoin mem_adjoin)

theorem block?_addEdge (g : Graph) (a b c : BlockId) :
    (g.addEdge a b).block? c = (g.block? c).map fun block =>
      { block with
        preds := if b = c then adjoin block.preds a else block.preds
        succs := if a = c then adjoin block.succs b else block.succs } := by
  unfold addEdge
  rw [block?_updateBlock, block?_updateBlock]
  cases g.block? c with
  | none => by_cases ha : a = c <;> by_cases hb : b = c <;> simp [ha, hb]
  | some block =>
      by_cases ha : a = c <;> by_cases hb : b = c <;> simp only [ha, hb, if_true, if_false,
        Option.map_some, Block.addSucc_eq, Block.addPred_eq]

theorem node?_eq_none_of_le {g : Graph} {n : NodeId} (h : g.nextNode ≤ n) : g.node? n = none :=
  Array.getElem?_eq_none h

theorem lt_nextNode_of_node? {g : Graph} {n : NodeId} {node : Node} (h : g.node? n = some node) :
    n < g.nextNode := by
  by_contra hn
  rw [node?_eq_none_of_le (Nat.le_of_not_lt hn)] at h
  cases h

theorem block?_eq_none_of_le {g : Graph} {b : BlockId} (h : g.nextBlock ≤ b) :
    g.block? b = none := by
  have hnone : g.blocks[b]? = none := Array.getElem?_eq_none h
  rw [block?, hnone, Option.join_none]

theorem lt_nextBlock_of_block? {g : Graph} {b : BlockId} {block : Block}
    (h : g.block? b = some block) : b < g.nextBlock := by
  by_contra hn
  rw [block?_eq_none_of_le (Nat.le_of_not_lt hn)] at h
  cases h

/-- The graph comes from the one with an entry and an exit by the operations on graphs. -/
inductive Built : Graph → Prop where
  | start : Built start
  /-- The method and the parameters can be stated at any time. -/
  | sign {g : Graph} (method : Option DeclId) (params : List DeclId) :
      Built g → Built { g with method := method, params := params }
  | addBlock {g : Graph} : Built g → Built g.addBlock
  | addEdge {g : Graph} (a b : BlockId) : Built g → Built (g.addEdge a b)
  | terminate {g : Graph} (b : BlockId) (t : Terminator) : Built g → Built (g.terminate b t)
  | addNode {g : Graph} (b : BlockId) (op : Operation) : Built g → Built (g.addNode b op)

/-- Nodes have their own numbers, and a block lists nodes of its own, each once. -/
structure WellListed (g : Graph) : Prop where
  id_eq : ∀ {n node}, g.node? n = some node → node.id = n
  listed : ∀ {b block n}, g.block? b = some block → n ∈ block.nodes →
    ∃ node, g.node? n = some node ∧ node.block = b
  nodup : ∀ {b block}, g.block? b = some block → block.nodes.Nodup

namespace WellListed

theorem of_same_nodes {g g' : Graph} (h : g.WellListed) (hnode : ∀ n, g'.node? n = g.node? n)
    (hblock : ∀ {b block'}, g'.block? b = some block' →
      block'.nodes = [] ∨ ∃ block, g.block? b = some block ∧ block'.nodes = block.nodes) :
    g'.WellListed where
  id_eq hn := h.id_eq (hnode _ ▸ hn)
  listed hb hn := by
    rcases hblock hb with hnil | ⟨block, hold, hsame⟩
    · simp [hnil] at hn
    · rw [hsame] at hn
      simpa only [hnode] using h.listed hold hn
  nodup hb := by
    rcases hblock hb with hnil | ⟨block, hold, hsame⟩
    · simp [hnil]
    · rw [hsame]
      exact h.nodup hold

theorem addNode {g : Graph} (h : g.WellListed) (b : BlockId) (op : Operation) :
    (g.addNode b op).WellListed where
  id_eq {n node} hn := by
    rw [node?_addNode] at hn
    split at hn
    · cases hn
      rfl
    · exact h.id_eq hn
  listed {c block' n} hc hn := by
    rw [block?_addNode] at hc
    rw [node?_addNode]
    -- what was listed before has a node already, so it is not the new one
    have hold : ∀ {block}, g.block? c = some block → n ∈ block.nodes →
        ∃ node, (if n = g.nextNode then some ⟨n, b, op⟩ else g.node? n) = some node ∧
          node.block = c := by
      intro block hblock hmem
      obtain ⟨node, hnode, hown⟩ := h.listed hblock hmem
      have hne : n ≠ g.nextNode := Nat.ne_of_lt (lt_nextNode_of_node? hnode)
      exact ⟨node, by rw [if_neg hne, hnode], hown⟩
    split at hc
    · rename_i hbc
      obtain ⟨block, hblock, rfl⟩ := Option.map_eq_some_iff.1 hc
      rcases List.mem_append.1 hn with hmem | hnew
      · exact hold hblock hmem
      · rw [List.mem_singleton.1 hnew]
        exact ⟨_, if_pos rfl, hbc⟩
    · exact hold hc hn
  nodup {c block'} hc := by
    rw [block?_addNode] at hc
    split at hc
    · obtain ⟨block, hblock, rfl⟩ := Option.map_eq_some_iff.1 hc
      refine List.nodup_append.2 ⟨h.nodup hblock, List.nodup_singleton _, ?_⟩
      intro n hn m hm hnm
      obtain ⟨node, hnode, -⟩ := h.listed hblock hn
      have hlt := lt_nextNode_of_node? hnode
      rw [hnm, List.mem_singleton.1 hm] at hlt
      exact Nat.lt_irrefl _ hlt
    · exact h.nodup hc

theorem block_unique {g : Graph} (h : g.WellListed) {b c : BlockId} {block block' : Block}
    {n : NodeId} (hb : g.block? b = some block) (hc : g.block? c = some block')
    (hn : n ∈ block.nodes) (hn' : n ∈ block'.nodes) : b = c := by
  obtain ⟨node, hnode, rfl⟩ := h.listed hb hn
  obtain ⟨node', hnode', rfl⟩ := h.listed hc hn'
  rw [hnode] at hnode'
  cases hnode'
  rfl

end WellListed

theorem Built.wellListed {g : Graph} (h : g.Built) : g.WellListed := by
  induction h with
  | start =>
      refine ⟨fun h => by simp [node?, Graph.start] at h, fun {b block n} hb hn => ?_,
        fun {b block} hb => ?_⟩
      all_goals
        have hnodes : block.nodes = [] := by
          match b, hb with
          | 0, hb => cases hb; rfl
          | 1, hb => cases hb; rfl
          | b + 2, hb => simp [block?, Graph.start] at hb
        simp_all
  | sign method params _ ih => exact ih.of_same_nodes (fun _ => rfl) fun hb => Or.inr ⟨_, hb, rfl⟩
  | addBlock _ ih =>
      refine ih.of_same_nodes (fun _ => rfl) fun hb => ?_
      rw [block?_addBlock] at hb
      split at hb
      · cases hb
        exact Or.inl rfl
      · exact Or.inr ⟨_, hb, rfl⟩
  | addEdge a b _ ih =>
      refine ih.of_same_nodes (fun _ => rfl) fun hb => ?_
      rw [block?_addEdge] at hb
      obtain ⟨block, hblock, rfl⟩ := Option.map_eq_some_iff.1 hb
      exact Or.inr ⟨block, hblock, rfl⟩
  | terminate b t _ ih =>
      refine ih.of_same_nodes (fun _ => rfl) fun hb => ?_
      rw [block?_terminate] at hb
      split at hb
      · obtain ⟨block, hblock, rfl⟩ := Option.map_eq_some_iff.1 hb
        exact Or.inr ⟨block, hblock, rfl⟩
      · exact Or.inr ⟨_, hb, rfl⟩
  | addNode b op _ ih => exact ih.addNode b op

/-- Every edge between existing blocks is listed on both sides. -/
def Mirrored (g : Graph) : Prop :=
  ∀ {p b : BlockId} {pblock block : Block}, g.block? p = some pblock → g.block? b = some block →
    (p ∈ block.preds ↔ b ∈ pblock.succs)

theorem mirrored_iff {g : Graph} :
    g.Mirrored ↔ ∀ p < g.nextBlock, ∀ b < g.nextBlock, ∀ pblock ∈ g.block? p,
      ∀ block ∈ g.block? b, (p ∈ block.preds ↔ b ∈ pblock.succs) := by
  constructor
  · intro h p _ b _ pblock hp block hb
    exact h hp hb
  · intro h p b pblock block hp hb
    exact h p (lt_nextBlock_of_block? hp) b (lt_nextBlock_of_block? hb) pblock hp block hb

instance (g : Graph) : Decidable g.Mirrored := decidable_of_iff _ mirrored_iff.symm

end Graph

end Disclosure
