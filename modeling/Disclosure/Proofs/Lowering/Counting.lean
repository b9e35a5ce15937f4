import Disclosure.Proofs.Lowering.Expressions
import Disclosure.Proofs.Lowering.Regions
import Disclosure.Proofs.Program.Liveness

/-!
# How many nodes are made, and where

The number of nodes that a step of the construction adds does not depend on the draft (`Adds`).  The
nodes of an expression are in the block in which its lowering starts or in one that it adds.
-/

namespace Disclosure

namespace Lowering

/-- The step adds `k` nodes, whatever the draft. -/
def Adds {α : Type} (k : Nat) (x : Lowering α) : Prop :=
  ∀ d, (x d).2.graph.nextNode = d.graph.nextNode + k

section Counting

variable {α β : Type} {k l : Nat}

theorem Adds.bind {x : Lowering α} {f : α → Lowering β} (hx : Adds k x) (hf : ∀ a, Adds l (f a)) :
    Adds (k + l) (x >>= f) := by
  intro d
  have hrest := hf (x d).1 (x d).2
  rw [hx d, Nat.add_assoc] at hrest
  exact hrest

theorem Adds.skip {x : Lowering α} {f : α → Lowering β} (hx : Adds 0 x) (hf : ∀ a, Adds l (f a)) :
    Adds l (x >>= f) :=
  Nat.zero_add l ▸ hx.bind hf

theorem Adds.result {x : Lowering α} (hx : Adds k x) (f : α → β) :
    Adds k (x >>= fun a => pure (f a)) :=
  hx

theorem adds_pure (a : α) : Adds 0 (pure a) := fun _ => rfl

theorem adds_emit (op : Operation) : Adds 1 (emit op) := fun d => d.graph.nextNode_addNode _ op

theorem adds_moveTo (b : BlockId) : Adds 0 (moveTo b) := fun _ => rfl

theorem adds_branchOn (c : NodeId) : Adds 0 (branchOn c) := by
  intro d
  rw [branchOn_eq]
  simp [Graph.nextNode, Graph.addBlock]

theorem adds_endCurrent_goto (b : BlockId) : Adds 0 (endCurrent (.goto b) [b]) := by
  intro d
  have hnodes := d.graph.nodes_endWith d.current (.goto b)
  exact congrArg Array.size hnodes

theorem adds_jumpIfOpen (b : BlockId) : Adds 0 (jumpIfOpen b) := by
  intro d
  rw [jumpIfOpen]
  split
  · exact adds_endCurrent_goto b d
  · rfl

theorem adds_asText (isText : Bool) (n : NodeId) : Adds (textNodes isText) (asText isText n) := by
  cases isText with
  | true => exact adds_pure n
  | false => exact adds_emit _

end Counting

end Lowering

open Lowering

mutual

theorem Expr.lower_adds (p : Program) (e : Expr) : Adds (e.nodeCount p) (e.lower p) := by
  match e with
  | .mk form ty =>
      rw [Expr.nodeCount, Expr.lower]
      exact ExprForm.lower_adds p ty form

theorem ExprForm.lower_adds (p : Program) (ty : Ty) (form : ExprForm) :
    Adds (form.nodeCount p ty) (form.lower p ty) := by
  match form with
  | .literal _ | .var _ | .self | .super | .lambda | .methodRef | .classLiteral _ =>
      simp only [ExprForm.lower, ExprForm.nodeCount]
      exact adds_emit _
  | .field receiver id =>
      simp only [ExprForm.lower, ExprForm.nodeCount]
      exact (Expr.lowerReceiver_adds p _ receiver).bind fun _ => adds_emit _
  | .call receiver method args =>
      simp only [ExprForm.lower, ExprForm.nodeCount]
      refine (Expr.lowerReceiver_adds p _ receiver).bind fun _ => ?_
      refine (adds_emit _).bind fun _ => ?_
      exact (Expr.lowerAll_adds p args).bind fun _ => adds_emit _
  | .create ctor args =>
      simp only [ExprForm.lower, ExprForm.nodeCount]
      exact (Expr.lowerAll_adds p args).bind fun _ => adds_emit _
  | .unary _ operand | .instanceOf operand _ =>
      simp only [ExprForm.lower, ExprForm.nodeCount]
      exact (Expr.lower_adds p operand).bind fun _ => adds_emit _
  | .binary op left right =>
      simp only [ExprForm.lower, ExprForm.nodeCount]
      split
      · refine (Expr.lower_adds p left).bind fun _ => ?_
        refine (adds_asText _ _).bind fun _ => ?_
        refine (Expr.lower_adds p right).bind fun _ => ?_
        exact (adds_asText _ _).bind fun _ => adds_emit _
      · refine (Expr.lower_adds p left).bind fun _ => ?_
        exact (Expr.lower_adds p right).bind fun _ => adds_emit _
  | .conditional condition thenArm elseArm =>
      simp only [ExprForm.lower, ExprForm.nodeCount]
      refine (Expr.lower_adds p condition).bind fun c => ?_
      refine (adds_branchOn c).skip fun targets => ?_
      refine (adds_moveTo _).skip fun _ => ?_
      refine (Expr.lower_adds p thenArm).bind fun _ => ?_
      refine (adds_jumpIfOpen _).skip fun _ => ?_
      refine (adds_moveTo _).skip fun _ => ?_
      refine (Expr.lower_adds p elseArm).bind fun _ => ?_
      refine (adds_jumpIfOpen _).skip fun _ => ?_
      exact (adds_moveTo _).skip fun _ => adds_emit _
  | .assign left right | .element left right =>
      simp only [ExprForm.lower, ExprForm.nodeCount]
      refine (Expr.lower_adds p left).bind fun _ => ?_
      exact (Expr.lower_adds p right).bind fun _ => adds_emit _
  | .update op target value =>
      simp only [ExprForm.lower, ExprForm.nodeCount]
      refine (Expr.lower_adds p target).bind fun _ => ?_
      refine (Expr.lower_adds p value).bind fun _ => ?_
      split
      · refine (adds_asText _ _).bind fun _ => ?_
        exact (adds_emit _).bind fun _ => adds_emit _
      · exact (adds_emit _).bind fun _ => adds_emit _
  | .newArray dimensions initializers =>
      simp only [ExprForm.lower, ExprForm.nodeCount]
      refine (Expr.lowerAll_adds p dimensions).bind fun _ => ?_
      exact (Expr.lowerAll_adds p initializers).bind fun _ => adds_emit _
  | .cast target operand =>
      simp only [ExprForm.lower, ExprForm.nodeCount]
      refine (Expr.lower_adds p operand).bind fun _ => ?_
      split
      · exact adds_emit _
      · exact adds_emit _
  | .paren inner =>
      simp only [ExprForm.lower, ExprForm.nodeCount]
      exact Expr.lower_adds p inner

theorem Expr.lowerReceiver_adds (p : Program) (needed : Bool) (receiver : Option Expr) :
    Adds (Expr.nodeCountReceiver p needed receiver) (Expr.lowerReceiver p needed receiver) := by
  match receiver with
  | some e =>
      simp only [Expr.lowerReceiver, Expr.nodeCountReceiver]
      exact (Expr.lower_adds p e).result some
  | none =>
      simp only [Expr.lowerReceiver, Expr.nodeCountReceiver]
      cases needed with
      | true => exact (adds_emit _).result some
      | false => exact adds_pure none

theorem Expr.lowerAll_adds (p : Program) (es : List Expr) :
    Adds (Expr.nodeCounts p es) (Expr.lowerAll p es) := by
  match es with
  | [] =>
      simp only [Expr.lowerAll, Expr.nodeCounts]
      exact adds_pure []
  | e :: rest =>
      simp only [Expr.lowerAll, Expr.nodeCounts]
      exact (Expr.lower_adds p e).bind fun n => (Expr.lowerAll_adds p rest).result (n :: ·)

end

theorem Expr.lowerOption_adds (p : Program) (e : Option Expr) :
    Adds (Expr.nodeCountOption p e) (Expr.lowerOption p e) := by
  cases e with
  | none => exact adds_pure none
  | some e => exact (Expr.lower_adds p e).result some

namespace Draft

variable {d d' d'' : Draft}

/-- The nodes that were added between two drafts are in the block that was current or in one that
was added. -/
def Houses (d d' : Draft) : Prop :=
  ∀ n node, d'.graph.node? n = some node → d.graph.nextNode ≤ n →
    node.block = d.current ∨ node.block ∈ d.Added d'

theorem houses_of_nextNode_eq (h : d'.graph.nextNode = d.graph.nextNode) : d.Houses d' := by
  intro n node hnode hnew
  have hlt : n < d.graph.nextNode := h ▸ Graph.lt_nextNode_of_node? hnode
  exact absurd hlt (Nat.not_lt_of_le hnew)

theorem Houses.emit (h : d.Houses d') (hspans : d.Spans d') (op : Operation) :
    d.Houses { d' with graph := d'.graph.addNode d'.current op } := by
  intro n node hnode hnew
  rw [Graph.node?_addNode] at hnode
  split at hnode
  · cases hnode
    simpa [Added] using hspans.current_mem
  · simpa [Added] using h n node hnode hnew

theorem Houses.trans (h : d.Houses d') (hspans : d.Spans d') (h' : d'.Houses d'')
    (hspans' : d'.Spans d'') : d.Houses d'' := by
  intro n node hnode hnew
  by_cases hold : n < d'.graph.nextNode
  · obtain ⟨node', hnode'⟩ : ∃ node', d'.graph.node? n = some node' :=
      ⟨_, Array.getElem?_eq_getElem hold⟩
    obtain rfl : node' = node := Option.some.inj ((hspans'.node?_eq hnode').symm.trans hnode)
    exact (h n node' hnode' hnew).imp_right fun hb => hspans.added_trans hspans' (Or.inl hb)
  · rcases h' n node hnode (Nat.le_of_not_lt hold) with hcurrent | hadded
    · rw [hcurrent]
      exact hspans.current_mem.imp_right fun hb => hspans.added_trans hspans' (Or.inl hb)
    · exact Or.inr (hspans.added_trans hspans' (Or.inr hadded))

theorem Houses.of_same_nodes (h : d.Houses d') (hnode : ∀ n, d''.graph.node? n = d'.graph.node? n)
    (hnext : d''.graph.nextBlock = d'.graph.nextBlock) : d.Houses d'' := by
  intro n node hn hnew
  rw [hnode] at hn
  have hblock := h n node hn hnew
  rwa [mem_added, ← hnext] at hblock

end Draft

namespace Lowering

variable {straight : Prop} {k l : Nat} {d d' d'' : Draft} {n : NodeId} {ns ms : List NodeId}

theorem Conditional.houses {thenBlock elseBlock merge : BlockId} {d₁ d₂ d₃ d₄ d₅ d₆ : Draft}
    (h : Conditional thenBlock elseBlock merge d₁ d₂ d₃ d₄ d₅ d₆)
    (hthen : Draft.Houses { d₂ with current := thenBlock } d₃)
    (helse : Draft.Houses { d₄ with current := elseBlock } d₅) :
    d₁.Houses { d₆ with current := merge } := by
  have hfork : d₁.Houses { d₂ with current := thenBlock } := by
    intro n node hnode hnew
    rw [h.fork.node?_eq] at hnode
    exact absurd (Graph.lt_nextNode_of_node? hnode) (Nat.not_lt_of_le hnew)
  have hfirst : d₁.Houses d₃ :=
    hfork.trans (h.fork.spans.moveTo h.fork.thenBlock_mem) hthen h.thenArm.toSpans
  have hjump : d₁.Houses { d₄ with current := elseBlock } :=
    hfirst.of_same_nodes h.node?_jump h.nextBlock_jump
  have hsecond : d₁.Houses d₅ :=
    hjump.trans (h.spans_jump.moveTo h.elseBlock_mem_jump) helse h.elseArm.toSpans
  exact hsecond.of_same_nodes h.node?_end h.nextBlock_end

theorem Composed.houses (hc : Composed straight d ns d') (hopen : d.IsOpen) : d.Houses d' := by
  induction hc with
  | nil d => exact Draft.houses_of_nextNode_eq rfl
  | emit op hc _ ih => exact (ih hopen).emit (hc.region hopen).toSpans op
  | append hc hc' ih ih' =>
      have hregion := hc.region hopen
      exact (ih hopen).trans hregion.toSpans (ih' hregion.isOpen)
        (hc'.region hregion.isOpen).toSpans
  | subset _ _ ih => exact ih hopen
  | choice hc hbranch hthen hjump helse hjump' ih ihthen ihelse =>
      have hregion := hc.region hopen
      have hcond := Conditional.of_isOpen hregion.isOpen hbranch hthen.region hjump helse.region
        hjump'
      exact (ih hopen).trans hregion.toSpans
        (hcond.houses (ihthen hcond.isOpen_thenBlock) (ihelse hcond.isOpen_elseBlock))
        hcond.region.toSpans

/-- From `d` to `d'` expressions were lowered to `k` nodes; their values are at the nodes `ns`. -/
structure Makes (k : Nat) (d : Draft) (ns : List NodeId) (d' : Draft) : Prop where
  composed : ∃ straight, Composed straight d ns d'
  nextNode_eq : d'.graph.nextNode = d.graph.nextNode + k

namespace Makes

theorem nil (d : Draft) : Makes 0 d [] d := ⟨⟨True, .nil d⟩, rfl⟩

theorem append (h : Makes k d ns d') (h' : Makes l d' ms d'') : Makes (k + l) d (ns ++ ms) d'' := by
  obtain ⟨s, hc⟩ := h.composed
  obtain ⟨s', hc'⟩ := h'.composed
  refine ⟨⟨s ∧ s', hc.append hc'⟩, ?_⟩
  rw [h'.nextNode_eq, h.nextNode_eq, Nat.add_assoc]

theorem emitNext (h : Makes k d ns d') {op : Operation} (hoperands : op.operands ⊆ ns) :
    Ensures d' (emit op) fun n d'' => Makes (k + 1) d (n :: ns) d'' := by
  obtain ⟨s, hc⟩ := h.composed
  refine ⟨⟨s, .emit op hc hoperands⟩, ?_⟩
  rw [adds_emit op d', h.nextNode_eq, Nat.add_assoc]

end Makes

end Lowering

theorem Expr.lower_makes (p : Program) (e : Expr) (d : Draft) :
    Ensures d (e.lower p) fun n d' => Makes (e.nodeCount p) d [n] d' :=
  ⟨⟨_, e.lower_composed p d⟩, e.lower_adds p d⟩

theorem Expr.lowerOption_makes (p : Program) (e : Option Expr) (d : Draft) :
    Ensures d (Expr.lowerOption p e) fun n d' => Makes (Expr.nodeCountOption p e) d n.toList d' :=
  ⟨⟨_, Expr.lowerOption_composed p e d⟩, Expr.lowerOption_adds p e d⟩

end Disclosure
