import Disclosure.Proofs.Lowering.Regions
import Disclosure.Proofs.Lowering.Statements

/-!
# Operands come first

In the graph of a procedure the operands of a node are in blocks that are prior to the block of the
node, or in that block itself.  For the values of an expression this is so where its lowering ends.
For the arms of a conditional it is not a matter of dominance, because control goes through one of
them only.  It holds since both arms are entered from the block of the condition, and so is the
block where they meet.

The blocks of an expression get no more edges afterwards.  While statements are lowered, the blocks
that may get more edges are those that were added for later and the targets of jumps: they are kept
in a set, and all other blocks are closed.
-/

namespace Disclosure

/-- The nodes exist, in blocks that are prior to the current one. -/
def Draft.Supplies (d : Draft) (closed : Set BlockId) (ns : List NodeId) : Prop :=
  ∀ n ∈ ns, ∃ node, d.graph.node? n = some node ∧ d.graph.Prior closed node.block d.current

namespace Draft

variable {d d' : Draft} {closed closed' : Set BlockId} {ns ms : List NodeId}

theorem Supplies.carry (hns : d.Supplies closed ns) (hgrows : d.graph.Grows closed d'.graph)
    (hnode : ∀ {n node}, d.graph.node? n = some node → d'.graph.node? n = some node)
    (hsub : closed ⊆ closed') (hcurrent : d'.graph.Prior closed' d.current d'.current) :
    d'.Supplies closed' ns := by
  intro n hn
  obtain ⟨node, hold, hprior⟩ := hns n hn
  exact ⟨node, hnode hold, ((hprior.grows hgrows).mono hsub).trans hcurrent⟩

theorem Spans.supplies (h : d.Spans d') (hg : d.graph.Enclosed)
    (hlt : ∀ b ∈ closed, b < d.graph.nextBlock) (hns : d.Supplies closed ns) :
    d'.Supplies (closed ∪ d.Added d') ns := by
  refine hns.carry (h.grows hlt) h.node?_eq Set.subset_union_left ?_
  rcases h.current_mem with hcurrent | hmem
  · rw [hcurrent]
    exact .refl _ _ _
  · exact (h.enteredFrom hg).prior Set.subset_union_right hmem

theorem Supplies.mono (hns : d.Supplies closed ns) (hsub : closed ⊆ closed') :
    d.Supplies closed' ns := by
  intro n hn
  obtain ⟨node, hnode, hprior⟩ := hns n hn
  exact ⟨node, hnode, hprior.mono hsub⟩

theorem Supplies.append (hns : d.Supplies closed ns) (hms : d.Supplies closed ms) :
    d.Supplies closed (ns ++ ms) := by
  intro n hn
  rcases List.mem_append.1 hn with hn | hn
  · exact hns n hn
  · exact hms n hn

theorem Supplies.emit (hns : d.Supplies closed ns) (hg : d.graph.OperandsPrior closed)
    {op : Operation} (hop : op.operands ⊆ ns) :
    Supplies { d with graph := d.graph.addNode d.current op } closed (d.graph.nextNode :: ns) ∧
      (d.graph.addNode d.current op).OperandsPrior closed := by
  have hgrows : d.graph.Grows closed (d.graph.addNode d.current op) :=
    ⟨rfl, fun p => by simp, fun _ hedge => by simpa using hedge⟩
  have hnode : ∀ {n node}, d.graph.node? n = some node →
      (d.graph.addNode d.current op).node? n = some node := by
    intro n node hn
    rw [Graph.node?_addNode, if_neg (Nat.ne_of_lt (Graph.lt_nextNode_of_node? hn)), hn]
  refine ⟨fun n hn => ?_, fun n node hn o ho => ?_⟩
  · rcases List.mem_cons.1 hn with rfl | hn
    · exact ⟨_, by rw [Graph.node?_addNode, if_pos rfl], .refl _ _ _⟩
    · obtain ⟨node, hold, hprior⟩ := hns n hn
      exact ⟨node, hnode hold, hprior.grows hgrows⟩
  · rw [Graph.node?_addNode] at hn
    split at hn
    · rename_i hnew
      cases hn
      obtain ⟨onode, honode, hprior⟩ := hns o (hop ho)
      exact ⟨hnew ▸ Graph.lt_nextNode_of_node? honode, onode, hnode honode, hprior.grows hgrows⟩
    · obtain ⟨hlt, onode, honode, hprior⟩ := hg n node hn o ho
      exact ⟨hlt, onode, hnode honode, hprior.grows hgrows⟩

end Draft

namespace Lowering

open Draft (Added Supplies)

namespace Conditional

variable {thenBlock elseBlock merge : BlockId} {d₁ d₂ d₃ d₄ d₅ d₆ : Draft}
  {closed : Set BlockId} (h : Conditional thenBlock elseBlock merge d₁ d₂ d₃ d₄ d₅ d₆)
  (hg : d₁.graph.Enclosed)

include h hg

theorem enteredFrom_thenArm :
    d₃.graph.EnteredFrom d₁.current
      (insert thenBlock (Added { d₂ with current := thenBlock } d₃)) := by
  refine h.thenArm.enteredFrom_insert (h.fork.spans.enclosed hg) h.fork.thenBlock_mem.2 ?_ ?_
  · rw [h.fork.spans.entry_eq]
    exact hg.ne_entry h.fork.thenBlock_mem.1
  · intro p hp
    rcases h.fork.edge_iff.1 hp with hold | ⟨rfl, -⟩
    · exact absurd (hg.succs_lt hold) (Nat.not_lt_of_le h.fork.thenBlock_mem.1)
    · rfl

theorem enteredFrom_elseArm :
    d₅.graph.EnteredFrom d₁.current
      (insert elseBlock (Added { d₄ with current := elseBlock } d₅)) := by
  refine h.elseArm.enteredFrom_insert (h.spans_jump.enclosed hg) h.elseBlock_mem_jump.2 ?_ ?_
  · rw [h.spans_jump.entry_eq]
    exact hg.ne_entry h.elseBlock_mem_jump.1
  · intro p hp
    -- the edges of the first arm and the jump at its end lead elsewhere
    have hthen : elseBlock ∈ d₃.graph.succs p := by
      rw [h.jump] at hp
      rcases Graph.mem_succs_endWith.1 hp with hold | ⟨-, -, hmerge⟩
      · exact hold
      · exact absurd (List.mem_singleton.1 hmerge).symm h.fork.merge_ne_elseBlock
    rcases h.thenArm.edge hthen with hfork | ⟨hadded, -⟩
    · rcases h.fork.edge_iff.1 hfork with hold | ⟨rfl, -⟩
      · exact absurd (hg.succs_lt hold) (Nat.not_lt_of_le h.fork.elseBlock_mem.1)
      · rfl
    · exact absurd h.fork.elseBlock_mem.2 (Nat.not_lt_of_le hadded.1)

variable (hclosed : d₁.Added d₆ ⊆ closed)

include hclosed

theorem prior_thenArm : d₆.graph.Prior closed d₃.current merge := by
  have hlt : ∀ b ∈ insert thenBlock (Added { d₂ with current := thenBlock } d₃),
      d₁.graph.nextBlock ≤ b ∧ b < d₃.graph.nextBlock := by
    rintro b (rfl | hb)
    · exact ⟨h.fork.thenBlock_mem.1,
        Nat.lt_of_lt_of_le h.fork.thenBlock_mem.2 h.thenArm.nextBlock_le⟩
    · exact ⟨Nat.le_trans h.fork.spans.nextBlock_le hb.1, hb.2⟩
  have hmerge : merge ∉ insert thenBlock (Added { d₂ with current := thenBlock } d₃) := by
    rintro (heq | hb)
    · exact h.fork.merge_ne_thenBlock heq
    · exact absurd h.fork.merge_mem.2 (Nat.not_lt_of_le hb.1)
  refine ((h.enteredFrom_thenArm hg).grows
    (h.grows_thenArm (fun b hb => (hlt b hb).2) hmerge) subset_rfl).prior_of_edge
    (h.spans.enteredFrom hg)
    (fun b hb => hclosed ⟨(hlt b hb).1, Nat.lt_of_lt_of_le (hlt b hb).2 h.nextBlock_thenArm_le⟩)
    hclosed h.thenArm.current_mem hmerge h.merge_mem_end h.leads_thenArm ?_
  exact h.succs_subset_elseArm _ (h.elseArm.succs_subset _ h.edge_thenArm)

theorem prior_elseArm : d₆.graph.Prior closed d₅.current merge := by
  have hmerge : merge ∉ insert elseBlock (Added { d₄ with current := elseBlock } d₅) := by
    rintro (heq | hb)
    · exact h.fork.merge_ne_elseBlock heq
    · exact absurd (h.nextBlock_jump ▸ h.merge_mem_thenArm.2) (Nat.not_lt_of_le hb.1)
  have hsub : insert elseBlock (Added { d₄ with current := elseBlock } d₅) ⊆ closed := by
    rintro b (rfl | hb)
    · exact hclosed ⟨h.elseBlock_mem_jump.1, h.nextBlock_end ▸
        Nat.lt_of_lt_of_le h.elseBlock_mem_jump.2 h.elseArm.nextBlock_le⟩
    · exact hclosed ⟨Nat.le_trans h.spans_jump.nextBlock_le hb.1, h.nextBlock_end ▸ hb.2⟩
  exact ((h.enteredFrom_elseArm hg).grows (h.grows_elseArm hmerge) subset_rfl).prior_of_edge
    (h.spans.enteredFrom hg) hsub hclosed h.elseArm.current_mem hmerge h.merge_mem_end
    h.leads_elseArm h.edge_elseArm

end Conditional

/-- The lowering from `d` to `d'` keeps operands prior, whatever blocks of `d` are closed, if the
new blocks are closed afterwards; the values `ns` are then at hand. -/
def Furnishes (d : Draft) (ns : List NodeId) (d' : Draft) : Prop :=
  ∀ closed : Set BlockId, (∀ b ∈ closed, b < d.graph.nextBlock) → d.graph.OperandsPrior closed →
    d'.graph.OperandsPrior (closed ∪ d.Added d') ∧ d'.Supplies (closed ∪ d.Added d') ns

theorem Furnishes.append {d d' d'' : Draft} {ns ms : List NodeId} (h : Furnishes d ns d')
    (h' : Furnishes d' ms d'') (hspans : d.Spans d') (hspans' : d'.Spans d'')
    (hg : d.graph.Enclosed) : Furnishes d (ns ++ ms) d'' := by
  intro closed hlt hops
  have hlt' : ∀ b ∈ closed ∪ d.Added d', b < d'.graph.nextBlock := by
    rintro b (hb | hb)
    · exact Nat.lt_of_lt_of_le (hlt b hb) hspans.nextBlock_le
    · exact hb.2
  obtain ⟨hops₁, hns⟩ := h closed hlt hops
  obtain ⟨hops₂, hms⟩ := h' _ hlt' hops₁
  have hns' := hspans'.supplies (hspans.enclosed hg) hlt' hns
  rw [Set.union_assoc, hspans.added_union hspans'] at hops₂ hms hns'
  exact ⟨hops₂, hns'.append hms⟩

/-- Where the arms of a conditional meet, the values of both are at hand. -/
theorem Conditional.furnishes {thenBlock elseBlock merge : BlockId}
    {d₁ d₂ d₃ d₄ d₅ d₆ : Draft} {x y : NodeId}
    (h : Conditional thenBlock elseBlock merge d₁ d₂ d₃ d₄ d₅ d₆) (hg : d₁.graph.Enclosed)
    (hthen : Furnishes { d₂ with current := thenBlock } [x] d₃)
    (helse : Furnishes { d₄ with current := elseBlock } [y] d₅) :
    Furnishes d₁ [x, y] { d₆ with current := merge } := by
  intro closed hlt hops
  have hlt₂ : ∀ b ∈ closed, b < d₂.graph.nextBlock := fun b hb =>
    Nat.lt_of_lt_of_le (hlt b hb) h.fork.spans.nextBlock_le
  obtain ⟨hops₃, hx⟩ := hthen closed hlt₂ (hops.grows (h.fork.spans.grows hlt) h.fork.node?_eq)
  -- the blocks that are closed after the first arm do not include the block where the arms meet
  have hlt₃ : ∀ b ∈ closed ∪ Added { d₂ with current := thenBlock } d₃, b < d₃.graph.nextBlock := by
    rintro b (hb | hb)
    · exact Nat.lt_of_lt_of_le (hlt₂ b hb) h.thenArm.nextBlock_le
    · exact hb.2
  have hmerge₃ : merge ∉ closed ∪ Added { d₂ with current := thenBlock } d₃ := by
    rintro (hb | hb)
    · exact absurd (hlt merge hb) (Nat.not_lt_of_le h.fork.merge_mem.1)
    · exact absurd h.fork.merge_mem.2 (Nat.not_lt_of_le hb.1)
  have hops₄ := hops₃.grows (h.grows_jump hmerge₃) h.node?_jump
  obtain ⟨hops₅, hy⟩ := helse _ (fun b hb => h.nextBlock_jump ▸ hlt₃ b hb) hops₄
  have hmerge₅ : merge ∉ (closed ∪ Added { d₂ with current := thenBlock } d₃) ∪
      Added { d₄ with current := elseBlock } d₅ := by
    rintro (hb | hb)
    · exact hmerge₃ hb
    · exact absurd (h.nextBlock_jump ▸ h.merge_mem_thenArm.2) (Nat.not_lt_of_le hb.1)
  have hsub : (closed ∪ Added { d₂ with current := thenBlock } d₃) ∪
      Added { d₄ with current := elseBlock } d₅ ⊆ closed ∪ d₁.Added d₆ := by
    rintro b ((hb | hb) | hb)
    · exact Or.inl hb
    · exact Or.inr ⟨Nat.le_trans h.fork.spans.nextBlock_le hb.1,
        Nat.lt_of_lt_of_le hb.2 h.nextBlock_thenArm_le⟩
    · exact Or.inr ⟨Nat.le_trans h.spans_jump.nextBlock_le hb.1, h.nextBlock_end ▸ hb.2⟩
  refine ⟨(hops₅.grows (h.grows_elseArm hmerge₅) h.node?_end).mono hsub, ?_⟩
  have hx' : Supplies { d₆ with current := merge } (closed ∪ d₁.Added d₆) [x] :=
    hx.carry (h.grows_thenArm hlt₃ hmerge₃)
      (fun hn => (h.node?_end _).trans (h.elseArm.node?_eq ((h.node?_jump _).trans hn)))
      (Set.subset_union_left.trans hsub) (h.prior_thenArm hg Set.subset_union_right)
  have hy' : Supplies { d₆ with current := merge } (closed ∪ d₁.Added d₆) [y] :=
    hy.carry (h.grows_elseArm hmerge₅) (fun hn => (h.node?_end _).trans hn) hsub
      (h.prior_elseArm hg Set.subset_union_right)
  exact hx'.append hy'

theorem Composed.furnishes {straight : Prop} {d d' : Draft} {ns : List NodeId}
    (h : Composed straight d ns d') (hopen : d.IsOpen) (hg : d.graph.Enclosed) :
    Furnishes d ns d' := by
  induction h with
  | nil d =>
      intro closed _ hops
      exact ⟨hops.mono Set.subset_union_left, fun n hn => absurd hn List.not_mem_nil⟩
  | @emit _ d d' ns op _ hop ih =>
      intro closed hlt hops
      obtain ⟨hops', hns⟩ := ih hopen hg closed hlt hops
      have hadded : d.Added { d' with graph := d'.graph.addNode d'.current op } = d.Added d' := by
        simp [Added]
      rw [hadded]
      exact (hns.emit hops' hop).symm
  | append h h' ih ih' =>
      have hfirst := h.region hopen
      have hg' := hfirst.enclosed hg
      exact (ih hopen hg).append (ih' hfirst.isOpen hg') hfirst.toSpans
        (h'.region hfirst.isOpen).toSpans hg
  | subset _ hsub ih =>
      intro closed hlt hops
      obtain ⟨hops', hns⟩ := ih hopen hg closed hlt hops
      exact ⟨hops', fun n hn => hns n (hsub hn)⟩
  | choice hcondition hbranch hthen hjump helse hjump' ih ihthen ihelse =>
      have hfirst := hcondition.region hopen
      have harms := Conditional.of_isOpen hfirst.isOpen hbranch (fun hopen => hthen.region hopen)
        hjump (fun hopen => helse.region hopen) hjump'
      have hg₁ := hfirst.enclosed hg
      exact (ih hopen hg).append
        (harms.furnishes hg₁
          (ihthen harms.isOpen_thenBlock (harms.fork.spans.enclosed hg₁))
          (ihelse harms.isOpen_elseBlock (harms.spans_jump.enclosed hg₁)))
        hfirst.toSpans harms.spans hg

end Lowering

end Disclosure
