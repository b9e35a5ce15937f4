import Disclosure.Proofs.Effect
import Disclosure.Proofs.Lowering.Order

/-!
# What a node reads was visited before it

In the graph of a procedure every node is listed in its block, and blocks list their nodes in the
order in which they were added.  Together with the order of the operands (`Graph.OperandsPrior`)
this says where the operands of a node are: before it in its own block, or in a block that comes
before its own block in the order of the graph.  So a pass through the blocks in this order has
visited all that a node reads when it comes to the node.
-/

namespace Disclosure

namespace Graph

/-- Every node is listed in its block, and blocks list older nodes first. -/
structure FullyListed (g : Graph) : Prop where
  listed_own : ∀ {n node}, g.node? n = some node →
    ∃ block, g.block? node.block = some block ∧ n ∈ block.nodes
  increasing : ∀ {b block}, g.block? b = some block → block.nodes.Pairwise (· < ·)

theorem fullyListed_iff {g : Graph} :
    g.FullyListed ↔
      (∀ n < g.nextNode, ∀ node ∈ g.node? n, ∃ block ∈ g.block? node.block, n ∈ block.nodes) ∧
        ∀ b < g.nextBlock, ∀ block ∈ g.block? b, block.nodes.Pairwise (· < ·) := by
  constructor
  · intro h
    exact ⟨fun n _ node hnode => h.listed_own hnode, fun b _ block hblock => h.increasing hblock⟩
  · rintro ⟨hown, hincreasing⟩
    exact ⟨fun hnode => hown _ (lt_nextNode_of_node? hnode) _ hnode,
      fun hblock => hincreasing _ (lt_nextBlock_of_block? hblock) _ hblock⟩

instance (g : Graph) : Decidable g.FullyListed := decidable_of_iff _ fullyListed_iff.symm

namespace FullyListed

variable {g g' : Graph}

theorem of_same_nodes (h : g.FullyListed) (hnode : ∀ n, g'.node? n = g.node? n)
    (hext : g.Extends g') (hblock : ∀ {b block'}, g'.block? b = some block' →
      block'.nodes = [] ∨ ∃ block, g.block? b = some block ∧ block'.nodes = block.nodes) :
    g'.FullyListed where
  listed_own hn := by
    rw [hnode] at hn
    obtain ⟨block, hown, hmem⟩ := h.listed_own hn
    obtain ⟨block', hown', hsub, -⟩ := hext.exists_block hown
    exact ⟨block', hown', hsub hmem⟩
  increasing hb := by
    rcases hblock hb with hnil | ⟨block, hold, hsame⟩
    · simp [hnil]
    · rw [hsame]
      exact h.increasing hold

theorem addNode (h : g.FullyListed) (hg : g.WellListed) {b : BlockId} {block : Block}
    (hb : g.block? b = some block) (op : Operation) : (g.addNode b op).FullyListed where
  listed_own {n node} hn := by
    rw [node?_addNode] at hn
    split at hn
    · rename_i hnew
      cases hn
      exact ⟨_, by rw [block?_addNode, if_pos rfl, hb, Option.map_some], by simp [hnew]⟩
    · obtain ⟨own, hown, hmem⟩ := h.listed_own hn
      rw [block?_addNode]
      split
      · exact ⟨_, by rw [hown, Option.map_some], List.mem_append_left _ hmem⟩
      · exact ⟨own, hown, hmem⟩
  increasing {c block'} hc := by
    rw [block?_addNode] at hc
    split at hc
    · obtain ⟨old, hold, rfl⟩ := Option.map_eq_some_iff.1 hc
      refine List.pairwise_append.2 ⟨h.increasing hold, List.pairwise_singleton _ _, ?_⟩
      intro n hn m hm
      obtain ⟨node, hnode, -⟩ := hg.listed hold hn
      rw [List.mem_singleton.1 hm]
      exact lt_nextNode_of_node? hnode
    · exact h.increasing hc

end FullyListed

end Graph

namespace Stage

theorem fullyListed_step {m : Mode} {s s' : Stage} (hs : s.Sound)
    (h : s.draft.graph.FullyListed) (hstep : Step m s s') : s'.draft.graph.FullyListed := by
  cases hstep with
  | emit op _ _ =>
      obtain ⟨block, hblock⟩ := hs.linked.exists_block hs.current_lt
      exact h.addNode hs.built.wellListed hblock op
  | @reserve d before after =>
      refine h.of_same_nodes (fun _ => rfl) (Step.reserve (m := m) before after).extends
        fun hb => ?_
      simp only [Graph.block?_addBlock] at hb
      split at hb
      · cases hb
        exact Or.inl rfl
      · exact Or.inr ⟨_, hb, rfl⟩
  | close b t hlt hreserved htargets hnodup htidy =>
      refine h.of_same_nodes (fun n => by simp [Graph.node?])
        (Step.close b t hlt hreserved htargets hnodup htidy).extends fun hb => ?_
      simp only [Graph.block?_endWith] at hb
      obtain ⟨block, hblock, rfl⟩ := Option.map_eq_some_iff.1 hb
      exact Or.inr ⟨block, hblock, rfl⟩
  | move => exact h
  | retarget => exact h

theorem fullyListed_run {m : Mode} {s s' : Stage} (hs : s.Sound) (h : s.draft.graph.FullyListed)
    (hrun : Run m s s') : s'.draft.graph.FullyListed := by
  induction hrun with
  | refl => exact h
  | tail hrun hstep ih => exact fullyListed_step (hs.run hrun) ih hstep

end Stage

theorem Procedure.fullyListed_lower (p : Program) (proc : Procedure) :
    (proc.lower p).FullyListed := by
  obtain ⟨d, hgraph, hpass, -⟩ := proc.exists_run p .free False.elim False.elim
  have hstart : proc.startDraft.graph.FullyListed := by
    refine ⟨fun hn => ?_, fun hb => ?_⟩
    · simp [Graph.node?, startDraft, Graph.start] at hn
    · rw [(block?_startDraft hb).2]
      exact List.Pairwise.nil
  exact hgraph ▸ Stage.fullyListed_run proc.sound_startDraft hstart hpass.run

namespace Graph

def IsBefore (g : Graph) (n : NodeId) (b : BlockId) : Prop :=
  ∃ node, g.node? n = some node ∧ g.place node.block < g.place b

/-- The operands of a node come before it in its block, or are in blocks before this block. -/
def OperandsVisited (g : Graph) : Prop :=
  ∀ b block, g.Reachable b → g.block? b = some block → ∀ pre node post,
    g.nodesOf block = pre ++ node :: post → ∀ n ∈ node.op.operands,
      n ∈ pre.map Node.id ∨ g.IsBefore n b

instance (g : Graph) (n : NodeId) (b : BlockId) : Decidable (g.IsBefore n b) :=
  decidable_of_iff (∃ node ∈ g.node? n, g.place node.block < g.place b) Iff.rfl

theorem operandsVisited_iff {g : Graph} :
    g.OperandsVisited ↔ ∀ b ∈ g.order, ∀ block ∈ g.block? b,
      UsesBefore (fun op => op.operands.filter fun n => ¬ g.IsBefore n b) (g.nodesOf block) := by
  constructor
  · intro h b hb block hblock pre node post hnodes n hn
    obtain ⟨hn, hafter⟩ := List.mem_filter.1 hn
    exact (h b block (mem_order_iff.1 hb) hblock pre node post hnodes n hn).resolve_right
      (of_decide_eq_true hafter)
  · intro h b block hreach hblock pre node post hnodes n hn
    by_cases hbefore : g.IsBefore n b
    · exact Or.inr hbefore
    · exact Or.inl (h b (mem_order_iff.2 hreach) block hblock pre node post hnodes n
        (List.mem_filter.2 ⟨hn, decide_eq_true hbefore⟩))

instance (g : Graph) : Decidable g.OperandsVisited := decidable_of_iff _ operandsVisited_iff.symm

theorem reachable_of_place_lt {g : Graph} {a b : BlockId} (h : g.place a < g.place b) :
    g.Reachable a := by
  refine mem_order_iff.1 (List.idxOf_lt_length_iff.1 (Nat.lt_of_lt_of_le h ?_))
  exact List.idxOf_le_length

theorem WellListed.block_of_mem_nodesOf {g : Graph} (hg : g.WellListed) {b : BlockId}
    {block : Block} (hblock : g.block? b = some block) {node : Node}
    (h : node ∈ g.nodesOf block) : node.block = b := by
  obtain ⟨node', hnode', hown⟩ := hg.listed hblock (n := node.id) (by
    rw [← hg.map_id_nodesOf hblock]
    exact List.mem_map_of_mem h)
  rw [hg.node?_of_mem_nodesOf h] at hnode'
  cases hnode'
  exact hown

section Visited

variable {g : Graph} (hg : g.WellListed) (hlisted : g.FullyListed)

include hg hlisted

theorem operandsVisited_of_prior (h : g.OperandsPrior Set.univ) : g.OperandsVisited := by
  intro b block hreach hblock pre node post hnodes o ho
  have hmem : node ∈ g.nodesOf block := by simp [hnodes]
  obtain ⟨hlt, onode, honode, hprior⟩ := h node.id node (hg.node?_of_mem_nodesOf hmem) o ho
  rw [hg.block_of_mem_nodesOf hblock hmem] at hprior
  obtain ⟨horeach, hle⟩ := hprior g (.refl _ g) hreach
  rcases Nat.lt_or_eq_of_le hle with hbefore | hplace
  · exact Or.inr ⟨onode, honode, hbefore⟩
  · -- in the same block, what was added earlier is listed earlier
    have hsame : onode.block = b := (List.idxOf_inj (mem_order_iff.2 horeach)).1 hplace
    obtain ⟨oblock, hoblock, homem⟩ := hlisted.listed_own honode
    rw [hsame, hblock] at hoblock
    cases hoblock
    have hincreasing := hlisted.increasing hblock
    rw [← hg.map_id_nodesOf hblock, hnodes, List.map_append, List.map_cons] at homem hincreasing
    rcases List.mem_append.1 homem with hpre | hrest
    · exact Or.inl hpre
    · have hlater := (List.pairwise_cons.1 (List.pairwise_append.1 hincreasing).2.1).1
      rcases List.mem_cons.1 hrest with rfl | hpost
      · exact absurd hlt (Nat.lt_irrefl _)
      · exact absurd (hlater o hpost) (Nat.lt_asymm hlt)

theorem OperandsVisited.isBefore (h : g.OperandsVisited) {b : BlockId} {n o : NodeId} {node : Node}
    (hnode : g.node? n = some node) (hlt : g.place node.block < g.place b)
    (ho : o ∈ node.op.operands) : g.IsBefore o b := by
  obtain ⟨block, hblock, hmem⟩ := hlisted.listed_own hnode
  have hlists : node ∈ g.nodesOf block := List.mem_filterMap.2 ⟨n, hmem, hnode⟩
  obtain ⟨pre, post, hnodes⟩ := List.append_of_mem hlists
  rcases h _ block (reachable_of_place_lt hlt) hblock pre node post hnodes o ho with
    hpre | ⟨onode, honode, holt⟩
  · obtain ⟨onode, honode, rfl⟩ := List.mem_map.1 hpre
    have holists : onode ∈ g.nodesOf block := hnodes ▸ List.mem_append_left _ honode
    refine ⟨onode, hg.node?_of_mem_nodesOf holists, ?_⟩
    rwa [hg.block_of_mem_nodesOf hblock holists]
  · exact ⟨onode, honode, Nat.lt_trans holt hlt⟩

theorem OperandsVisited.readsOf (h : g.OperandsVisited) {b : BlockId} {block : Block}
    (hreach : g.Reachable b) (hblock : g.block? b = some block) {pre post : List Node} {node : Node}
    (hnodes : g.nodesOf block = pre ++ node :: post) {n : NodeId} (hn : n ∈ g.readsOf node.op) :
    n ∈ pre.map Node.id ∨ g.IsBefore n b := by
  have hoperands := h b block hreach hblock pre node post hnodes
  obtain ⟨id, own, op⟩ := node
  rcases List.mem_append.1 hn with hinput | htarget
  · exact hoperands n (op.inputs_subset_operands hinput)
  · cases op with
    | assignment target value =>
        cases htnode : g.node? target with
        | none => simp [htnode] at htarget
        | some tnode =>
            simp only [htnode] at htarget
            have ho := tnode.op.inputs_subset_operands htarget
            rcases hoperands target (by simp [Operation.operands]) with hmem | ⟨tnode', hsome, hlt⟩
            · obtain ⟨tnode', hpre, rfl⟩ := List.mem_map.1 hmem
              obtain ⟨before, between, rfl⟩ := List.append_of_mem hpre
              rw [List.append_assoc, List.cons_append] at hnodes
              have hlists : tnode' ∈ g.nodesOf block := by simp [hnodes]
              rw [hg.node?_of_mem_nodesOf hlists] at htnode
              cases htnode
              refine (h b block hreach hblock before tnode _ hnodes n ho).imp_left fun hbefore => ?_
              rw [List.map_append]
              exact List.mem_append_left _ hbefore
            · rw [htnode] at hsome
              cases hsome
              exact Or.inr (h.isBefore hg hlisted htnode hlt ho)
    | _ => simp at htarget

end Visited

def nodesBefore (g : Graph) (b : BlockId) : List NodeId :=
  (g.nodes.toList.filter fun node => g.place node.block < g.place b).map Node.id

theorem WellListed.mem_nodesBefore_iff {g : Graph} (hg : g.WellListed) {n : NodeId} {b : BlockId} :
    n ∈ g.nodesBefore b ↔ g.IsBefore n b := by
  simp only [nodesBefore, List.mem_map, List.mem_filter, Array.mem_toList_iff,
    Array.mem_iff_getElem?, decide_eq_true_eq]
  constructor
  · rintro ⟨node, ⟨⟨i, hi⟩, hlt⟩, rfl⟩
    have hnode : g.node? i = some node := hi
    exact ⟨node, by rw [hg.id_eq hnode, hnode], hlt⟩
  · rintro ⟨node, hnode, hlt⟩
    exact ⟨node, ⟨⟨n, hnode⟩, hlt⟩, hg.id_eq hnode⟩

/-- A block reads only what is in it or in blocks before it. -/
theorem OperandsVisited.readsWithin {g : Graph} (h : g.OperandsVisited) (hg : g.WellListed)
    (hlisted : g.FullyListed) {b : BlockId} {block : Block} (hreach : g.Reachable b)
    (hblock : g.block? b = some block) :
    g.readsWithin (g.nodesBefore b) (g.nodesOf block) :=
  readsWithin_of_before fun _ _ _ hnodes _ hn =>
    (h.readsOf hg hlisted hreach hblock hnodes hn).imp_right hg.mem_nodesBefore_iff.2

end Graph

theorem Procedure.operandsVisited_lower (p : Program) (proc : Procedure) :
    (proc.lower p).OperandsVisited :=
  Graph.operandsVisited_of_prior (proc.built_lower p).wellListed (proc.fullyListed_lower p)
    (proc.operandsPrior_lower p)

end Disclosure
