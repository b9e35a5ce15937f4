import Disclosure.Proofs.Graph.Built

/-!
# Nodes that use earlier nodes of their block

A node uses other nodes: all its operands, or only those whose classes its own class depends on.
`g.UsesPrecede uses` says that what a node uses is listed before it in its own block, for either
meaning of `uses`.
-/

namespace Disclosure

/-- The operands whose classes matter: all of them, except in the test of a case, whose value has
no class of its own. -/
def Operation.inputs : Operation → List NodeId
  | .caseTest _ _ => []
  | op => op.operands

theorem Operation.inputs_subset_operands (op : Operation) : op.inputs ⊆ op.operands := by
  intro n hn
  cases op with
  | caseTest => simp [inputs] at hn
  | _ => exact hn

namespace Graph

/-! ## The nodes that a block lists -/

theorem WellListed.map_id_nodesOf {g : Graph} (hg : g.WellListed) {b : BlockId} {block : Block}
    (hblock : g.block? b = some block) : (g.nodesOf block).map Node.id = block.nodes := by
  have hall : ∀ n ∈ block.nodes, ∃ node, g.node? n = some node ∧ node.id = n := by
    intro n hn
    obtain ⟨node, hnode, -⟩ := hg.listed hblock hn
    exact ⟨node, hnode, hg.id_eq hnode⟩
  unfold nodesOf
  generalize block.nodes = ns at hall
  induction ns with
  | nil => rfl
  | cons n rest ih =>
      obtain ⟨node, hnode, hid⟩ := hall n List.mem_cons_self
      rw [List.filterMap_cons_some hnode, List.map_cons, hid,
        ih fun n' hn' => hall n' (List.mem_cons_of_mem n hn')]

theorem WellListed.node?_of_mem_nodesOf {g : Graph} (hg : g.WellListed) {block : Block}
    {node : Node} (h : node ∈ g.nodesOf block) : g.node? node.id = some node := by
  obtain ⟨n, -, hnode⟩ := List.mem_filterMap.1 h
  rw [hg.id_eq hnode]
  exact hnode

theorem WellListed.nodesOf_addNode {g : Graph} (hg : g.WellListed) {c : BlockId} {block : Block}
    (hblock : g.block? c = some block) (b : BlockId) (op : Operation) :
    (g.addNode b op).nodesOf block = g.nodesOf block := by
  refine List.filterMap_congr fun n hn => ?_
  obtain ⟨node, hnode, -⟩ := hg.listed hblock hn
  rw [node?_addNode, if_neg (Nat.ne_of_lt (lt_nextNode_of_node? hnode))]

/-! ## What precedes a node -/

def UsesBefore (uses : Operation → List NodeId) (nodes : List Node) : Prop :=
  ∀ pre node post, nodes = pre ++ node :: post → ∀ n ∈ uses node.op, n ∈ pre.map Node.id

/-- Whatever a node uses is listed earlier in the block of the node. -/
def UsesPrecede (g : Graph) (uses : Operation → List NodeId) : Prop :=
  ∀ b block, g.block? b = some block → UsesBefore uses (g.nodesOf block)

section

variable {uses : Operation → List NodeId} {nodes : List Node}

theorem usesBefore_iff :
    UsesBefore uses nodes ↔ ∀ i < nodes.length, ∀ node ∈ nodes[i]?, ∀ n ∈ uses node.op,
      n ∈ (nodes.take i).map Node.id := by
  constructor
  · intro h i _ node hnode
    obtain ⟨hi, rfl⟩ := List.getElem?_eq_some_iff.1 hnode
    refine h _ _ (nodes.drop (i + 1)) ?_
    rw [← List.drop_eq_getElem_cons hi, List.take_append_drop]
  · intro h pre node post hnodes
    have hat := h pre.length (by simp [hnodes]) node (by simp [hnodes])
    simpa [hnodes] using hat

instance (uses : Operation → List NodeId) (nodes : List Node) :
    Decidable (UsesBefore uses nodes) :=
  decidable_of_iff _ usesBefore_iff.symm

theorem UsesBefore.append_singleton {node : Node} (h : UsesBefore uses nodes)
    (hnode : ∀ n ∈ uses node.op, n ∈ nodes.map Node.id) : UsesBefore uses (nodes ++ [node]) := by
  intro pre node' post hnodes
  rcases List.append_eq_append_iff.1 hnodes with ⟨mid, hpre, hpost⟩ | ⟨mid, hpre, hpost⟩
  · -- the split is at the new node
    rcases List.singleton_eq_append_iff.1 hpost with ⟨rfl, hsplit⟩ | ⟨-, hsplit⟩
    · rw [List.cons_eq_cons] at hsplit
      rw [List.append_nil] at hpre
      rw [hsplit.1, hpre]
      exact hnode
    · cases hsplit
  · cases mid with
    | nil =>
        rw [List.nil_append, List.cons_eq_cons] at hpost
        rw [List.append_nil] at hpre
        rw [hpost.1, ← hpre]
        exact hnode
    | cons first rest =>
        rw [List.cons_append, List.cons_eq_cons] at hpost
        rw [← hpost.1] at hpre
        exact h pre node' rest hpre

end

section

variable {g : Graph} {uses uses' : Operation → List NodeId}

theorem usesPrecede_iff :
    g.UsesPrecede uses ↔
      ∀ b < g.nextBlock, ∀ block ∈ g.block? b, UsesBefore uses (g.nodesOf block) :=
  ⟨fun h b _ block hblock => h b block hblock,
    fun h b block hblock => h b (lt_nextBlock_of_block? hblock) block hblock⟩

instance (g : Graph) (uses : Operation → List NodeId) : Decidable (g.UsesPrecede uses) :=
  decidable_of_iff _ usesPrecede_iff.symm

theorem UsesPrecede.mono (h : g.UsesPrecede uses') (hsub : ∀ op, uses op ⊆ uses' op) :
    g.UsesPrecede uses := by
  intro b block hblock pre node post hnodes n hn
  exact h b block hblock pre node post hnodes n (hsub node.op hn)

theorem UsesPrecede.of_same_nodes {g' : Graph} (h : g.UsesPrecede uses)
    (hnode : ∀ n, g'.node? n = g.node? n)
    (hblock : ∀ {b block'}, g'.block? b = some block' →
      block'.nodes = [] ∨ ∃ block, g.block? b = some block ∧ block'.nodes = block.nodes) :
    g'.UsesPrecede uses := by
  intro b block' hb
  have hsame : g'.nodesOf block' = block'.nodes.filterMap g.node? :=
    List.filterMap_congr fun n _ => hnode n
  rw [hsame]
  rcases hblock hb with hnil | ⟨block, hold, heq⟩
  · intro pre node post hnodes
    simp [hnil] at hnodes
  · rw [heq]
    exact h b block hold

theorem UsesPrecede.addNode (h : g.UsesPrecede uses) (hg : g.WellListed) {b : BlockId}
    {op : Operation}
    (huses : ∀ {block}, g.block? b = some block → ∀ n ∈ uses op, n ∈ block.nodes) :
    (g.addNode b op).UsesPrecede uses := by
  intro c block' hc
  rw [block?_addNode] at hc
  split at hc
  · rename_i hbc
    subst hbc
    obtain ⟨block, hblock, rfl⟩ := Option.map_eq_some_iff.1 hc
    have hlast : (g.addNode b op).nodesOf { block with nodes := block.nodes ++ [g.nextNode] } =
        g.nodesOf block ++ [⟨g.nextNode, b, op⟩] := by
      rw [← hg.nodesOf_addNode hblock b op]
      simp [nodesOf, node?_addNode]
    rw [hlast]
    refine (h b block hblock).append_singleton ?_
    rw [hg.map_id_nodesOf hblock]
    exact huses hblock
  · rw [hg.nodesOf_addNode hc]
    exact h c block' hc

end

end Graph

end Disclosure
