import Disclosure.Proofs.Lowering.Calls
import Disclosure.Proofs.Lowering.WellFormed

/-!
# The node of an expression denotes the location of its tree

The location of a node is found by following receivers from node to node.  `Graph.Denotes` is this
search without a bound on the number of receivers: it ends where a derivation ends.

In the graph of a procedure the search ends at the node of every expression, because receivers come
before the nodes that use them.  It finds the location that can be read off the tree of the
expression, whatever was added to the graph after the expression.
-/

namespace Disclosure

namespace Graph

/-- To follow receivers from a node ends, with the given location or without one. -/
inductive Denotes (g : Graph) : NodeId → Option Location → Prop where
  | missing {n : NodeId} (h : g.node? n = none) : g.Denotes n none
  | var {n i : NodeId} {b : BlockId} {id : DeclId} (h : g.node? n = some ⟨i, b, .var id⟩) :
      g.Denotes n (some (.var id))
  | implicitSelf {n i : NodeId} {b : BlockId} (h : g.node? n = some ⟨i, b, .implicitSelf⟩) :
      g.Denotes n (some .self)
  | explicitSelf {n i : NodeId} {b : BlockId} (h : g.node? n = some ⟨i, b, .explicitSelf⟩) :
      g.Denotes n (some .self)
  | static {n i : NodeId} {b : BlockId} {receiver : Option NodeId} {id : DeclId}
      (h : g.node? n = some ⟨i, b, .field receiver id true⟩) : g.Denotes n (some (.static id))
  | field {n i receiver : NodeId} {b : BlockId} {id : DeclId} {l : Option Location}
      (h : g.node? n = some ⟨i, b, .field (some receiver) id false⟩)
      (hreceiver : g.Denotes receiver l) : g.Denotes n (l.map fun l => l.extend id)
  | detached {n i : NodeId} {b : BlockId} {id : DeclId}
      (h : g.node? n = some ⟨i, b, .field none id false⟩) : g.Denotes n none
  | element {n i array index : NodeId} {b : BlockId}
      (h : g.node? n = some ⟨i, b, .element array index⟩) : g.Denotes n none
  | plain {n i : NodeId} {b : BlockId} {op : Operation} (h : g.node? n = some ⟨i, b, op⟩)
      (hop : op.isPlain = true) : g.Denotes n none

/-- Where operands come first, as many receivers are followed as there are nodes at most. -/
theorem Denotes.locationWithin_eq {g : Graph} (hg : g.OperandsEarlier) {n : NodeId}
    {l : Option Location} (h : g.Denotes n l) {depth : Nat} (hn : n < depth) :
    g.locationWithin depth n = l := by
  induction h generalizing depth with
  | @field n i receiver b id l hnode _ ih =>
      obtain ⟨depth, rfl⟩ := Nat.exists_eq_add_one.2 (Nat.zero_lt_of_lt hn)
      have hearlier : receiver < n := hg _ _ hnode receiver (List.mem_singleton.2 rfl)
      simp only [locationWithin, hnode]
      rw [ih (Nat.lt_of_lt_of_le hearlier (Nat.le_of_lt_succ hn))]
  | @plain n i b op hnode hop =>
      obtain ⟨depth, rfl⟩ := Nat.exists_eq_add_one.2 (Nat.zero_lt_of_lt hn)
      simp only [locationWithin, hnode]
      cases op with
      | var | field | implicitSelf | explicitSelf => cases hop
      | _ => rfl
  | missing hnode | var hnode | implicitSelf hnode | explicitSelf hnode | static hnode
  | detached hnode | element hnode =>
      obtain ⟨depth, rfl⟩ := Nat.exists_eq_add_one.2 (Nat.zero_lt_of_lt hn)
      simp only [locationWithin, hnode]

theorem Denotes.locationOf?_eq {g : Graph} (hg : g.OperandsEarlier) {n : NodeId}
    {l : Option Location} (h : g.Denotes n l) (hn : n < g.nextNode) : g.locationOf? n = l :=
  h.locationWithin_eq hg hn

end Graph

namespace Lowering

/-- The node is there and denotes the location, now and whatever is added later. -/
def Settles (l : Option Location) (n : NodeId) (d : Draft) : Prop :=
  ∀ g : Graph, d.graph.IsPart g → n < g.nextNode ∧ g.Denotes n l

theorem ensures_emit_settles {d : Draft} {op : Operation} {l : Option Location}
    (h : ∀ g : Graph, d.graph.IsPart g → ∀ n b, g.node? n = some ⟨n, b, op⟩ → g.Denotes n l) :
    Ensures d (emit op) (Settles l) := by
  intro g hg
  obtain ⟨hpart, hnode⟩ := hg.of_addNode
  exact ⟨Graph.lt_nextNode_of_node? hnode, h g hpart _ _ hnode⟩

theorem ensures_emit_plain {d : Draft} {op : Operation} (h : op.isPlain = true) :
    Ensures d (emit op) (Settles none) :=
  ensures_emit_settles fun _ _ _ _ hnode => .plain hnode h

theorem ensures_last {α β : Type} {d : Draft} {x : Lowering α} {f : α → Lowering β}
    {post : β → Draft → Prop} (h : ∀ a d', Ensures d' (f a) post) : Ensures d (x >>= f) post :=
  h _ _

end Lowering

open Lowering

mutual

theorem Expr.lower_settles (p : Program) (e : Expr) (d : Draft) :
    Ensures d (e.lower p) (Settles (e.location? p)) := by
  match e with
  | .mk form ty => exact ExprForm.lower_settles p ty form d

theorem ExprForm.lower_settles (p : Program) (ty : Ty) (form : ExprForm) (d : Draft) :
    Ensures d (form.lower p ty) (Settles (form.location? p)) := by
  match form with
  | .var id => exact ensures_emit_settles fun _ _ _ _ hnode => .var hnode
  | .self => exact ensures_emit_settles fun _ _ _ _ hnode => .explicitSelf hnode
  | .paren inner => exact Expr.lower_settles p inner d
  | .field receiver id =>
      cases hstatic : p.isStaticField id with
      | true =>
          simp only [ExprForm.lower, ExprForm.location?, hstatic, if_true]
          exact ensures_last fun _ _ => ensures_emit_settles fun _ _ _ _ hnode => .static hnode
      | false =>
          simp only [ExprForm.lower, ExprForm.location?, hstatic, Bool.not_false]
          refine (Expr.lowerReceiver_settles p receiver d).bind ?_
          rintro _ d' ⟨object, rfl, hobject⟩
          exact ensures_emit_settles fun g hpart _ _ hnode =>
            .field hnode (hobject g hpart).2
  | .element array index =>
      exact ensures_last fun _ _ => ensures_last fun _ _ =>
        ensures_emit_settles fun _ _ _ _ hnode => .element hnode
  | .binary op left right =>
      simp only [ExprForm.lower, ExprForm.location?]
      split
      · exact ensures_last fun _ _ => ensures_last fun _ _ => ensures_last fun _ _ =>
          ensures_last fun _ _ => ensures_emit_plain rfl
      · exact ensures_last fun _ _ => ensures_last fun _ _ => ensures_emit_plain rfl
  | .update op target value =>
      simp only [ExprForm.lower, ExprForm.location?]
      refine ensures_last fun _ _ => ensures_last fun _ _ => ?_
      split
      · exact ensures_last fun _ _ => ensures_last fun _ _ => ensures_emit_plain rfl
      · exact ensures_last fun _ _ => ensures_emit_plain rfl
  | .cast target operand =>
      simp only [ExprForm.lower, ExprForm.location?]
      refine ensures_last fun _ _ => ?_
      split
      · exact ensures_emit_plain rfl
      · exact ensures_emit_plain rfl
  | .conditional condition thenArm elseArm =>
      exact ensures_last fun _ _ => ensures_last fun _ _ => ensures_last fun _ _ =>
        ensures_last fun _ _ => ensures_last fun _ _ => ensures_last fun _ _ =>
        ensures_last fun _ _ => ensures_last fun _ _ => ensures_last fun _ _ =>
        ensures_emit_plain rfl
  | .call receiver method args =>
      exact ensures_last fun _ _ => ensures_last fun _ _ => ensures_last fun _ _ =>
        ensures_emit_plain rfl
  | .assign target value =>
      exact ensures_last fun _ _ => ensures_last fun _ _ => ensures_emit_plain rfl
  | .newArray dimensions initializers =>
      exact ensures_last fun _ _ => ensures_last fun _ _ => ensures_emit_plain rfl
  | .create ctor args => exact ensures_last fun _ _ => ensures_emit_plain rfl
  | .unary op operand => exact ensures_last fun _ _ => ensures_emit_plain rfl
  | .instanceOf operand target => exact ensures_last fun _ _ => ensures_emit_plain rfl
  | .literal value => exact ensures_emit_plain rfl
  | .super => exact ensures_emit_plain rfl
  | .lambda => exact ensures_emit_plain rfl
  | .methodRef => exact ensures_emit_plain rfl
  | .classLiteral ty => exact ensures_emit_plain rfl

theorem Expr.lowerReceiver_settles (p : Program) (receiver : Option Expr) (d : Draft) :
    Ensures d (Expr.lowerReceiver p true receiver) fun r d' =>
      ∃ object, r = some object ∧ Settles (Expr.receiverLocation? p receiver) object d' := by
  match receiver with
  | some e => exact (Expr.lower_settles p e d).bind fun n d' hn => ⟨n, rfl, hn⟩
  | none =>
      have hself : Ensures d (emit .implicitSelf) (Settles (some .self)) :=
        ensures_emit_settles fun _ _ _ _ hnode => .implicitSelf hnode
      exact hself.bind fun n d' hn => ⟨n, rfl, hn⟩

end

/-- The expressions of a procedure are lowered one by one.  In the finished graph, to follow
receivers from the node of any of them ends, with the location that its tree denotes. -/
theorem Procedure.denotes_lower (p : Program) (proc : Procedure) :
    (proc.calls p).map Call.expr = proc.exprs ∧
      ∀ c ∈ proc.calls p, (c.result p).graph.IsPart (proc.lower p) ∧
        (proc.lower p).Denotes (c.node p) (c.expr.location? p) ∧
        (proc.lower p).locationOf? (c.node p) = c.expr.location? p := by
  have htracks := proc.lower_tracks p
  refine ⟨htracks.map_expr, fun c hc => ?_⟩
  have hpart : (c.result p).graph.IsPart (proc.lower p) := htracks.result_isPart c hc
  obtain ⟨hlt, hdenotes⟩ := Expr.lower_settles p c.expr c.draft (proc.lower p) hpart
  have hearlier := (proc.coherent_lower p).operandsEarlier
  exact ⟨hpart, hdenotes, hdenotes.locationOf?_eq hearlier hlt⟩

/-- In `b ? (f).f : (x.s).f`, where `s` is a static field, the first arm is a field of a field of
the current object, and the second one a field of the static field.  The condition and the
conditional are lowered around them. -/
theorem Procedure.denotes_lower_conditional :
    let s : Decl := ⟨⟨0⟩, "s", .field (.declared ⟨9⟩) true, [], []⟩
    let f : Decl := ⟨⟨1⟩, "f", .field (.declared ⟨9⟩) false, [], []⟩
    let p : Program := ⟨#[s, f]⟩
    let ty : Ty := .declared ⟨9⟩
    let ofSelf : Expr := .field (some (.paren (.field none f.id ty))) f.id ty
    let ofStatic : Expr := .field (some (.paren (.field (some (.var ⟨2⟩ ty)) s.id ty))) f.id ty
    let e : Expr := .mk (.conditional (.var ⟨3⟩ (.primitive .boolean)) ofSelf ofStatic) ty
    let proc : Procedure := ⟨⟨4⟩, [], [.eval e]⟩
    let g := proc.lower p
    (proc.calls p).length = 9 ∧
      (∃ c ∈ proc.calls p, c.expr = ofSelf ∧ c.node p = 3 ∧
        g.Denotes 3 (some ⟨.self, [f.id, f.id]⟩)) ∧
      (∃ c ∈ proc.calls p, c.expr = ofStatic ∧ c.node p = 6 ∧
        g.Denotes 6 (some ⟨.static s.id, [f.id]⟩)) ∧
      ∃ c ∈ proc.calls p, c.expr = e ∧ c.node p = 7 ∧ g.Denotes 7 none := by
  intro s f p ty ofSelf ofStatic e proc g
  have hlength : (proc.calls p).length = 9 := by decide +kernel
  have hcall (c : Call) (hc : c ∈ proc.calls p) {n : NodeId} {l : Option Location}
      (hn : c.node p = n) (hl : c.expr.location? p = l) : g.Denotes n l :=
    hn ▸ hl ▸ ((Procedure.denotes_lower p proc).2 c hc).2.1
  have hself : ((proc.calls p).get ⟨2, by decide +kernel⟩).node p = 3 := by decide +kernel
  have hstatic : ((proc.calls p).get ⟨5, by decide +kernel⟩).node p = 6 := by decide +kernel
  have hwhole : ((proc.calls p).get ⟨0, by decide +kernel⟩).node p = 7 := by decide +kernel
  exact ⟨hlength,
    ⟨_, List.get_mem _ _, rfl, hself, hcall _ (List.get_mem _ _) hself (by decide +kernel)⟩,
    ⟨_, List.get_mem _ _, rfl, hstatic, hcall _ (List.get_mem _ _) hstatic (by decide +kernel)⟩,
    ⟨_, List.get_mem _ _, rfl, hwhole, hcall _ (List.get_mem _ _) hwhole (by decide +kernel)⟩⟩

end Disclosure
