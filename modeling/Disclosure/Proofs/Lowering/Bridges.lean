import Disclosure.Proofs.Lowering.Regions

/-!
# Ways past operands that may be left out

A conjunction or a disjunction may be decided by its first operand, and an assertion that holds
never gives its detail.  The graph does not show this: what may be left out is lowered in line, and
control goes through it to the node that uses it.  `g.Bridge P a b` says how it goes: from the node
`a` it comes to the block `b` by edges, and `P` holds of all nodes on the way.  In a lowered
expression there is such a way from every value to the place where the lowering ends, through nodes
that were added in between; through a conditional it leads by either arm.

A bridge stays one while the graph grows, because nodes are only added to blocks that have not
ended.
-/

namespace Disclosure

/-- The operand that decides whether the others are evaluated. -/
def Operation.decider? : Operation → Option NodeId
  | .binary .and left _ => some left
  | .binary .or left _ => some left
  | .assertion condition (some _) => some condition
  | _ => none

theorem Operation.mem_operands_of_decider? {op : Operation} {a : NodeId}
    (h : op.decider? = some a) : a ∈ op.operands := by
  unfold decider? at h
  split at h
  · cases h
    exact List.mem_cons_self
  · cases h
    exact List.mem_cons_self
  · cases h
    exact List.mem_cons_self
  · cases h

namespace Graph

/-- Control can come to a block from the node `a`, through blocks that were filled after `a`, and
the nodes on the way, those of the last block apart, are as given. -/
inductive Bridge (g : Graph) (P : NodeId → Prop) (a : NodeId) : BlockId → Prop where
  | own {node : Node} (hnode : g.node? a = some node) : Bridge g P a node.block
  | step {p b : BlockId} {block : Block} (h : Bridge g P a p) (hblock : g.block? p = some block)
      (hended : block.terminator ≠ none) (hnodes : ∀ k ∈ block.nodes, a < k → P k)
      (hedge : b ∈ g.succs p)
      (hlater : ∀ {next}, g.block? b = some next → ∀ k ∈ next.nodes, a < k) : Bridge g P a b

/-- What a graph has of nodes, edges and blocks that have ended is also in the other one, which
lists no other nodes than those and later ones. -/
structure Retains (g g' : Graph) : Prop where
  nextNode_le : g.nextNode ≤ g'.nextNode
  node?_eq : ∀ {n node}, g.node? n = some node → g'.node? n = some node
  succs_subset : ∀ p, g.succs p ⊆ g'.succs p
  ended : ∀ {b block}, g.block? b = some block → block.terminator ≠ none →
    ∃ block', g'.block? b = some block' ∧ block'.terminator ≠ none ∧ block'.nodes = block.nodes
  listed : ∀ {b block' k}, g'.block? b = some block' → k ∈ block'.nodes →
    g.nextNode ≤ k ∨ ∃ block, g.block? b = some block ∧ k ∈ block.nodes

namespace Retains

variable {g g' g'' : Graph} {b : BlockId}

theorem trans (h : g.Retains g') (h' : g'.Retains g'') : g.Retains g'' where
  nextNode_le := Nat.le_trans h.nextNode_le h'.nextNode_le
  node?_eq hnode := h'.node?_eq (h.node?_eq hnode)
  succs_subset p := List.Subset.trans (h.succs_subset p) (h'.succs_subset p)
  ended hblock hterm := by
    obtain ⟨block', hblock', hterm', hnodes'⟩ := h.ended hblock hterm
    obtain ⟨block'', hblock'', hterm'', hnodes''⟩ := h'.ended hblock' hterm'
    exact ⟨block'', hblock'', hterm'', hnodes''.trans hnodes'⟩
  listed hblock hk := by
    cases h'.listed hblock hk with
    | inl hnew => exact Or.inl (Nat.le_trans h.nextNode_le hnew)
    | inr hold =>
        obtain ⟨block', hblock', hk'⟩ := hold
        exact h.listed hblock' hk'

theorem refl (g : Graph) : g.Retains g where
  nextNode_le := Nat.le_refl _
  node?_eq hnode := hnode
  succs_subset _ := List.Subset.refl _
  ended hblock hterm := ⟨_, hblock, hterm, rfl⟩
  listed hblock hk := Or.inr ⟨_, hblock, hk⟩

theorem addBlock (g : Graph) : g.Retains g.addBlock where
  nextNode_le := Nat.le_refl _
  node?_eq hnode := hnode
  succs_subset p := by simp
  ended {b block} hblock hterm := by
    have hne : b ≠ g.nextBlock := Nat.ne_of_lt (lt_nextBlock_of_block? hblock)
    exact ⟨block, by rw [block?_addBlock, if_neg hne, hblock], hterm, rfl⟩
  listed hblock hk := by
    rw [block?_addBlock] at hblock
    split at hblock
    · cases hblock
      cases hk
    · exact Or.inr ⟨_, hblock, hk⟩

theorem addNode (hopen : g.IsOpenAt b) (op : Operation) : g.Retains (g.addNode b op) where
  nextNode_le := by simp
  node?_eq hnode := by
    rw [node?_addNode, if_neg (Nat.ne_of_lt (lt_nextNode_of_node? hnode)), hnode]
  succs_subset p := by simp
  ended {c block} hblock hterm := by
    obtain ⟨own, hown, hownTerm⟩ := hopen
    have hne : b ≠ c := by
      rintro rfl
      cases hown.symm.trans hblock
      exact hterm hownTerm
    exact ⟨block, by rw [block?_addNode, if_neg hne, hblock], hterm, rfl⟩
  listed {c block' k} hblock hk := by
    rw [block?_addNode] at hblock
    split at hblock
    · obtain ⟨block, hold, rfl⟩ := Option.map_eq_some_iff.1 hblock
      cases List.mem_append.1 hk with
      | inl hmem => exact Or.inr ⟨block, hold, hmem⟩
      | inr hnew => exact Or.inl (Nat.le_of_eq (List.mem_singleton.1 hnew).symm)
    · exact Or.inr ⟨block', hblock, hk⟩

theorem endWith (g : Graph) (b : BlockId) (t : Terminator) : g.Retains (g.endWith b t) where
  nextNode_le := by simp [nextNode]
  node?_eq hnode := by simpa [node?] using hnode
  succs_subset _ _ hc := mem_succs_endWith.2 (Or.inl hc)
  ended {c block} hblock hterm := by
    rw [block?_endWith, hblock]
    refine ⟨_, rfl, ?_, rfl⟩
    by_cases hbc : b = c
    · simp [hbc]
    · simpa [hbc] using hterm
  listed hblock hk := by
    rw [block?_endWith] at hblock
    obtain ⟨block, hold, rfl⟩ := Option.map_eq_some_iff.1 hblock
    exact Or.inr ⟨block, hold, hk⟩

end Retains

def Vacant (g : Graph) (b : BlockId) : Prop := ∀ block, g.block? b = some block → block.nodes = []

section Vacant

variable {g : Graph} {b : BlockId}

theorem vacant_of_le (h : g.nextBlock ≤ b) : g.Vacant b := by
  intro block hblock
  exact absurd (lt_nextBlock_of_block? hblock) (Nat.not_lt_of_le h)

theorem Vacant.addBlock (h : g.Vacant b) : g.addBlock.Vacant b := by
  intro block hblock
  rw [block?_addBlock] at hblock
  split at hblock
  · cases hblock
    rfl
  · exact h block hblock

theorem Vacant.endWith (h : g.Vacant b) (c : BlockId) (t : Terminator) :
    (g.endWith c t).Vacant b := by
  intro block hblock
  rw [block?_endWith] at hblock
  obtain ⟨old, hold, rfl⟩ := Option.map_eq_some_iff.1 hblock
  exact h old hold

end Vacant

namespace Bridge

variable {g g' : Graph} {P Q : NodeId → Prop} {a : NodeId} {b : BlockId}

theorem lt_nextNode (h : g.Bridge P a b) : a < g.nextNode := by
  induction h with
  | own hnode => exact lt_nextNode_of_node? hnode
  | step _ _ _ _ _ _ ih => exact ih

theorem retains (h : g.Bridge P a b) (hg : g.Retains g') : g'.Bridge P a b := by
  induction h with
  | own hnode => exact .own (hg.node?_eq hnode)
  | step h hblock hended hnodes hedge hlater ih =>
      obtain ⟨block', hblock', hended', hnodes'⟩ := hg.ended hblock hended
      refine .step ih hblock' hended' (hnodes' ▸ hnodes) (hg.succs_subset _ hedge) ?_
      intro next hnext k hk
      cases hg.listed hnext hk with
      | inl hnew => exact Nat.lt_of_lt_of_le h.lt_nextNode hnew
      | inr hold =>
          obtain ⟨block, hblock, hk⟩ := hold
          exact hlater hblock k hk

theorem mono (h : g.Bridge P a b) (hsub : ∀ k, P k → Q k) : g.Bridge Q a b := by
  induction h with
  | own hnode => exact .own hnode
  | step _ hblock hended hnodes hedge hlater ih =>
      exact .step ih hblock hended (fun k hk hlt => hsub k (hnodes k hk hlt)) hedge hlater

/-- When the block at the end of a bridge ends itself, the bridge goes on to a block without
nodes. -/
theorem endWith (h : g.Bridge (· < g.nextNode) a b) (hg : g.WellListed) (hopen : g.IsOpenAt b)
    {t : Terminator} {c : BlockId} (hc : c ∈ t.targets g.exit) (hvacant : g.Vacant c) :
    (g.endWith b t).Bridge (· < g.nextNode) a c := by
  have hb := hopen.isSome
  obtain ⟨block, hblock, -⟩ := hopen
  obtain ⟨preds, hended⟩ := block?_endWith_self hblock t
  refine .step (h.retains (.endWith g b t)) hended (by simp) (fun k hk _ => ?_)
    (mem_succs_endWith.2 (Or.inr ⟨rfl, hb, hc⟩)) fun hnext k hk => ?_
  · obtain ⟨node, hnode, -⟩ := hg.listed hblock hk
    exact lt_nextNode_of_node? hnode
  · simp [hvacant.endWith b t _ hnext] at hk

end Bridge

/-- From the operand that decides over the others there is a bridge to the node. -/
def Bridged (g : Graph) : Prop :=
  ∀ n node a, g.node? n = some node → node.op.decider? = some a → g.Bridge (· < n) a node.block

namespace Bridged

variable {g g' : Graph} {b : BlockId}

theorem retains (h : g.Bridged) (hg : g.Retains g') (hnode : ∀ n, g'.node? n = g.node? n) :
    g'.Bridged := by
  intro n node a hn hdecider
  rw [hnode] at hn
  exact (h n node a hn hdecider).retains hg

theorem addNode (h : g.Bridged) (hopen : g.IsOpenAt b) {op : Operation}
    (hop : ∀ {a}, op.decider? = some a → g.Bridge (· < g.nextNode) a b) :
    (g.addNode b op).Bridged := by
  intro n node a hn hdecider
  rw [node?_addNode] at hn
  split at hn
  · rename_i hnew
    cases hn
    rw [hnew]
    exact (hop hdecider).retains (.addNode hopen op)
  · exact (h n node a hn hdecider).retains (.addNode hopen op)

end Bridged

end Graph

def Draft.BridgeFrom (d : Draft) (a : NodeId) : Prop :=
  d.graph.Bridge (· < d.graph.nextNode) a d.current

theorem Draft.BridgeFrom.retains {d : Draft} {a : NodeId} (h : d.BridgeFrom a) {g : Graph}
    (hg : d.graph.Retains g) : BridgeFrom { d with graph := g } a :=
  (Graph.Bridge.retains h hg).mono fun _ hk => Nat.lt_of_lt_of_le hk hg.nextNode_le

namespace Lowering

/-- What the lowering of expressions does to bridges: those that there are go on to where it ends,
and there is one from each of the values. -/
structure Bridges (d : Draft) (ns : List NodeId) (d' : Draft) : Prop where
  built : d'.graph.Built
  retains : d.graph.Retains d'.graph
  carries : ∀ {a}, d.BridgeFrom a → d'.BridgeFrom a
  values : ∀ a ∈ ns, d'.BridgeFrom a
  bridged : d.graph.Bridged → d'.graph.Bridged

namespace Bridges

variable {d d' d'' : Draft} {ns ms : List NodeId} {b c : BlockId}

theorem nil (hbuilt : d.graph.Built) : Bridges d [] d where
  built := hbuilt
  retains := .refl _
  carries ha := ha
  values a ha := by cases ha
  bridged h := h

theorem emit (h : Bridges d ns d') (hopen : d'.IsOpen) {op : Operation} (hop : op.operands ⊆ ns) :
    Bridges d (d'.graph.nextNode :: ns)
      { d' with graph := d'.graph.addNode d'.current op } where
  built := h.built.addNode _ _
  retains := h.retains.trans (.addNode hopen op)
  carries ha := (h.carries ha).retains (.addNode hopen op)
  values a ha := by
    cases ha with
    | head =>
        have hnode : (d'.graph.addNode d'.current op).node? d'.graph.nextNode =
            some ⟨d'.graph.nextNode, d'.current, op⟩ := by rw [Graph.node?_addNode, if_pos rfl]
        exact .own hnode
    | tail _ ha => exact (h.values a ha).retains (.addNode hopen op)
  bridged hbridged := (h.bridged hbridged).addNode hopen fun hdecider =>
    h.values _ (hop (Operation.mem_operands_of_decider? hdecider))

theorem append (h : Bridges d ns d') (h' : Bridges d' ms d'') : Bridges d (ns ++ ms) d'' where
  built := h'.built
  retains := h.retains.trans h'.retains
  carries ha := h'.carries (h.carries ha)
  values a ha := by
    cases List.mem_append.1 ha with
    | inl hns => exact h'.carries (h.values a hns)
    | inr hms => exact h'.values a hms
  bridged hbridged := h'.bridged (h.bridged hbridged)

theorem addBlock (h : Bridges d ns d') : Bridges d ns { d' with graph := d'.graph.addBlock } where
  built := h.built.addBlock
  retains := h.retains.trans (.addBlock _)
  carries ha := (h.carries ha).retains (.addBlock _)
  values a ha := (h.values a ha).retains (.addBlock _)
  bridged hbridged := (h.bridged hbridged).retains (.addBlock _) fun _ => rfl

theorem endCurrent (h : Bridges d ns d') (hopen : d'.IsOpen) {t : Terminator}
    (hb : b ∈ t.targets d'.graph.exit) (hvacant : d'.graph.Vacant b) :
    Bridges d ns { d' with graph := d'.graph.endWith d'.current t, current := b } := by
  have hbridge : ∀ {a}, d'.BridgeFrom a →
      Draft.BridgeFrom { d' with graph := d'.graph.endWith d'.current t, current := b } a :=
    fun ha => (Graph.Bridge.endWith ha h.built.wellListed hopen hb hvacant).mono
      fun _ hk => Nat.lt_of_lt_of_le hk (Graph.Retains.endWith _ _ _).nextNode_le
  exact
    { built := h.built.endWith _ _
      retains := h.retains.trans (.endWith _ _ _)
      carries := fun ha => hbridge (h.carries ha)
      values := fun a ha => hbridge (h.values a ha)
      bridged := fun hbridged => (h.bridged hbridged).retains (.endWith _ _ _)
        fun n => by simp [Graph.node?] }

/-- Two parts that end in one block: the bridges of the first are not touched by the second. -/
theorem meet (h : Bridges d ns { d' with current := b })
    (h' : Bridges { d' with current := c } ms { d'' with current := b }) :
    Bridges d (ns ++ ms) { d'' with current := b } := by
  have hbridge : ∀ {a}, Draft.BridgeFrom { d' with current := b } a →
      Draft.BridgeFrom { d'' with current := b } a :=
    fun ha => ha.retains h'.retains
  refine ⟨h'.built, h.retains.trans h'.retains, fun ha => hbridge (h.carries ha), ?_,
    fun hbridged => h'.bridged (h.bridged hbridged)⟩
  intro a ha
  cases List.mem_append.1 ha with
  | inl hns => exact hbridge (h.values a hns)
  | inr hms => exact h'.values a hms

theorem branch (h : Bridges d ns d') (hopen : d'.IsOpen) {n : NodeId}
    {thenBlock elseBlock merge : BlockId}
    (hbranch : branchOn n d' = ((thenBlock, elseBlock, merge), d'')) :
    Bridges d ns { d'' with current := thenBlock } ∧ d''.graph.Vacant merge := by
  have hvacant : ∀ {b}, d'.graph.nextBlock ≤ b → d'.graph.addBlock.addBlock.addBlock.Vacant b :=
    fun hle => (Graph.vacant_of_le hle).addBlock.addBlock.addBlock
  have hopen' : d'.graph.addBlock.addBlock.addBlock.IsOpenAt d'.current :=
    Graph.IsOpenAt.addBlock (Graph.IsOpenAt.addBlock (Graph.IsOpenAt.addBlock hopen))
  rw [branchOn_eq] at hbranch
  cases hbranch
  constructor
  · exact h.addBlock.addBlock.addBlock.endCurrent hopen' List.mem_cons_self
      (hvacant (Nat.le_refl _))
  · exact (hvacant (Nat.le_add_right _ _)).endWith _ _

end Bridges

theorem Region.vacant {d d' : Draft} {b : BlockId} (h : Region d d') (hb : b < d.graph.nextBlock)
    (hne : b ≠ d.current) (hvacant : d.graph.Vacant b) : d'.graph.Vacant b := by
  intro block hblock
  exact hvacant block ((h.block?_eq hb hne).symm.trans hblock)

/-- Through a conditional there are bridges by either arm. -/
theorem Conditional.bridges {c x y : NodeId} {thenBlock elseBlock merge : BlockId}
    {d d₁ d₂ d₃ d₄ d₅ d₆ : Draft} (h : Conditional thenBlock elseBlock merge d₁ d₂ d₃ d₄ d₅ d₆)
    (hopen : d₁.IsOpen) (hbranch : branchOn c d₁ = ((thenBlock, elseBlock, merge), d₂))
    (hcondition : Bridges d [c] d₁)
    (hthen : d₂.graph.Built → Bridges { d₂ with current := thenBlock } [x] d₃)
    (helse : d₄.graph.Built → Bridges { d₄ with current := elseBlock } [y] d₅) :
    Bridges d [c, x, y] { d₆ with current := merge } := by
  obtain ⟨hstart, hvacant⟩ := hcondition.branch hopen hbranch
  have hvacant₃ : d₃.graph.Vacant merge :=
    h.thenArm.vacant h.fork.merge_mem.2 h.fork.merge_ne_thenBlock hvacant
  have hfirst : Bridges d [c, x] { d₄ with current := merge } := by
    rw [h.jump]
    exact (hstart.append (hthen hstart.built)).endCurrent h.thenArm.isOpen List.mem_cons_self
      hvacant₃
  have hvacant₄ : d₄.graph.Vacant merge := by
    rw [h.jump]
    exact hvacant₃.endWith _ _
  have hvacant₅ : d₅.graph.Vacant merge :=
    h.elseArm.vacant (h.nextBlock_jump ▸ h.merge_mem_thenArm.2) h.fork.merge_ne_elseBlock hvacant₄
  have hsecond : Bridges { d₄ with current := elseBlock } [y] { d₆ with current := merge } := by
    rw [h.jump']
    exact (helse hfirst.built).endCurrent h.elseArm.isOpen List.mem_cons_self hvacant₅
  exact hfirst.meet hsecond

theorem Composed.bridges {straight : Prop} {d d' : Draft} {ns : List NodeId}
    (h : Composed straight d ns d') (hopen : d.IsOpen) (hbuilt : d.graph.Built) :
    Bridges d ns d' := by
  induction h with
  | nil d => exact .nil hbuilt
  | emit op hc hop ih => exact (ih hopen hbuilt).emit (hc.region hopen).isOpen hop
  | append hc _ ih ih' =>
      have hfirst := ih hopen hbuilt
      exact hfirst.append (ih' (hc.region hopen).isOpen hfirst.built)
  | subset _ hsub ih =>
      have hall := ih hopen hbuilt
      exact { hall with values := fun a ha => hall.values a (hsub ha) }
  | choice hc hbranch hx hjump hy hjump' ih ihthen ihelse =>
      have hopen₁ := (hc.region hopen).isOpen
      have harms := Conditional.of_isOpen hopen₁ hbranch (fun hopen => hx.region hopen) hjump
        (fun hopen => hy.region hopen) hjump'
      exact harms.bridges hopen₁ hbranch (ih hopen hbuilt) (ihthen harms.isOpen_thenBlock)
        (ihelse harms.isOpen_elseBlock)

end Lowering

end Disclosure
