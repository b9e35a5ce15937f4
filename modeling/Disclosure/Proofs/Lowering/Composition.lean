import Disclosure.Proofs.Lowering.Runs
import Disclosure.Proofs.Program.Shape

/-!
# What the lowering of an expression is composed of

However large an expression is, its lowering does only a few things: it adds nodes to the current
block whose operands are values that it has got before, and for a conditional it goes through two
new blocks that meet in a third one.  `Composed` says this once, for all forms of expressions, so
that what holds of every lowered expression is shown for these few things.
-/

namespace Disclosure

namespace Lowering

/-- From `d` to `d'` expressions were lowered, whose values are at the nodes `ns`; they contain no
conditional if `straight` holds. -/
inductive Composed : Prop → Draft → List NodeId → Draft → Prop where
  | nil (d : Draft) : Composed True d [] d
  | emit {straight : Prop} {d d' : Draft} {ns : List NodeId} (op : Operation)
      (h : Composed straight d ns d') (hoperands : op.operands ⊆ ns) :
      Composed straight d (d'.graph.nextNode :: ns)
        { d' with graph := d'.graph.addNode d'.current op }
  | append {straight straight' : Prop} {d d' d'' : Draft} {ns ms : List NodeId}
      (h : Composed straight d ns d') (h' : Composed straight' d' ms d'') :
      Composed (straight ∧ straight') d (ns ++ ms) d''
  | subset {straight : Prop} {d d' : Draft} {ns ms : List NodeId} (h : Composed straight d ns d')
      (hsub : ms ⊆ ns) : Composed straight d ms d'
  /-- The condition is lowered, then each of the arms in a block of its own. -/
  | choice {s₁ s₂ s₃ : Prop} {d d₁ d₂ d₃ d₄ d₅ d₆ : Draft} {c x y : NodeId}
      {thenBlock elseBlock merge : BlockId} (hcondition : Composed s₁ d [c] d₁)
      (hbranch : branchOn c d₁ = ((thenBlock, elseBlock, merge), d₂))
      (hthen : Composed s₂ { d₂ with current := thenBlock } [x] d₃)
      (hjump : jumpIfOpen merge d₃ = ((), d₄))
      (helse : Composed s₃ { d₄ with current := elseBlock } [y] d₅)
      (hjump' : jumpIfOpen merge d₅ = ((), d₆)) :
      Composed False d [c, x, y] { d₆ with current := merge }

namespace Composed

variable {straight straight' : Prop} {d d' : Draft} {n : NodeId} {ns : List NodeId}

theorem of_iff (h : Composed straight d ns d') (hiff : straight ↔ straight') :
    Composed straight' d ns d' :=
  propext hiff ▸ h

theorem emitNext (h : Composed straight d ns d') {op : Operation} (hoperands : op.operands ⊆ ns) :
    Ensures d' (Lowering.emit op) fun n d'' => Composed straight d (n :: ns) d'' :=
  .emit op h hoperands

theorem emitLast (h : Composed straight d ns d') {op : Operation} (hoperands : op.operands ⊆ ns) :
    Ensures d' (Lowering.emit op) fun n d'' => Composed straight d [n] d'' :=
  (h.emitNext hoperands).mono fun _ _ h' => h'.subset (by simp)

theorem asText (h : Composed straight d [n] d') (isText : Bool) :
    Ensures d' (asText isText n) fun n' d'' => Composed straight d [n'] d'' := by
  cases isText with
  | true => exact h
  | false => exact h.emitLast (by simp [Operation.operands])

end Composed

end Lowering

open Lowering

mutual

theorem Expr.lower_composed (p : Program) (e : Expr) (d : Draft) :
    Ensures d (e.lower p) fun n d' => Composed (e.isStraight = true) d [n] d' := by
  match e with
  | .mk form ty =>
      rw [Expr.isStraight, Expr.lower]
      exact ExprForm.lower_composed p ty form d

theorem ExprForm.lower_composed (p : Program) (ty : Ty) (form : ExprForm) (d : Draft) :
    Ensures d (form.lower p ty) fun n d' => Composed (form.isStraight = true) d [n] d' := by
  match form with
  | .literal _ | .var _ | .self | .super | .lambda | .methodRef | .classLiteral _ =>
      simp only [ExprForm.lower, ExprForm.isStraight]
      exact (Composed.nil d).emitLast (by simp [Operation.operands])
  | .field receiver id =>
      simp only [ExprForm.lower, ExprForm.isStraight]
      refine (Expr.lowerReceiver_composed p _ receiver d).bind ?_
      intro r d₁ hr
      exact hr.emitLast (by simp [Operation.operands])
  | .call receiver method args =>
      simp only [ExprForm.lower, ExprForm.isStraight, Bool.and_eq_true]
      refine (Expr.lowerReceiver_composed p _ receiver d).bind ?_
      intro r d₁ hr
      refine (hr.emitLast (by simp [Operation.operands])).bind ?_
      intro target d₂ htarget
      refine (Expr.lowerAll_composed p args d₂).bind ?_
      intro ns d₃ hargs
      exact (htarget.append hargs).emitLast (by simp [Operation.operands])
  | .create ctor args =>
      simp only [ExprForm.lower, ExprForm.isStraight]
      refine (Expr.lowerAll_composed p args d).bind ?_
      intro ns d₁ hargs
      exact hargs.emitLast (by simp [Operation.operands])
  | .unary _ operand | .instanceOf operand _ =>
      simp only [ExprForm.lower, ExprForm.isStraight]
      refine (Expr.lower_composed p operand d).bind ?_
      intro n d₁ hn
      exact hn.emitLast (by simp [Operation.operands])
  | .binary op left right =>
      simp only [ExprForm.lower, ExprForm.isStraight, Bool.and_eq_true]
      split
      · refine (Expr.lower_composed p left d).bind ?_
        intro l d₁ hl
        refine (hl.asText _).bind ?_
        intro l' d₂ hl'
        refine (Expr.lower_composed p right d₂).bind ?_
        intro r d₃ hr
        refine (hr.asText _).bind ?_
        intro r' d₄ hr'
        exact (hl'.append hr').emitLast (by simp [Operation.operands])
      · refine (Expr.lower_composed p left d).bind ?_
        intro l d₁ hl
        refine (Expr.lower_composed p right d₁).bind ?_
        intro r d₂ hr
        exact (hl.append hr).emitLast (by simp [Operation.operands])
  | .conditional condition thenArm elseArm =>
      simp only [ExprForm.lower, ExprForm.isStraight, Bool.false_eq_true]
      refine (Expr.lower_composed p condition d).bind ?_
      intro c d₁ hc
      refine (ensures_eq d₁ (branchOn c)).bind ?_
      rintro ⟨thenBlock, elseBlock, merge⟩ d₂ hbranch
      refine (ensures_eq d₂ (moveTo thenBlock)).bind ?_
      rintro - _ ⟨⟩
      refine (Expr.lower_composed p thenArm _).bind ?_
      intro x d₃ hx
      refine (ensures_eq d₃ (jumpIfOpen merge)).bind ?_
      rintro ⟨⟩ d₄ hjump
      refine (ensures_eq d₄ (moveTo elseBlock)).bind ?_
      rintro - _ ⟨⟩
      refine (Expr.lower_composed p elseArm _).bind ?_
      intro y d₅ hy
      refine (ensures_eq d₅ (jumpIfOpen merge)).bind ?_
      rintro ⟨⟩ d₆ hjump'
      refine (ensures_eq d₆ (moveTo merge)).bind ?_
      rintro - _ ⟨⟩
      exact (Composed.choice hc hbranch hx hjump hy hjump').emitLast (by simp [Operation.operands])
  | .assign left right | .element left right =>
      simp only [ExprForm.lower, ExprForm.isStraight, Bool.and_eq_true]
      refine (Expr.lower_composed p left d).bind ?_
      intro l d₁ hl
      refine (Expr.lower_composed p right d₁).bind ?_
      intro r d₂ hr
      exact (hl.append hr).emitLast (by simp [Operation.operands])
  | .update op target value =>
      simp only [ExprForm.lower, ExprForm.isStraight, Bool.and_eq_true]
      refine (Expr.lower_composed p target d).bind ?_
      intro t d₁ ht
      refine (Expr.lower_composed p value d₁).bind ?_
      intro v d₂ hv
      split
      · refine (hv.asText _).bind ?_
        intro v' d₃ hv'
        refine ((ht.append hv').emitNext (by simp [Operation.operands])).bind ?_
        intro sum d₄ hsum
        exact hsum.emitLast (by simp [Operation.operands])
      · refine ((ht.append hv).emitNext (by simp [Operation.operands])).bind ?_
        intro sum d₃ hsum
        exact hsum.emitLast (by simp [Operation.operands])
  | .newArray dimensions initializers =>
      simp only [ExprForm.lower, ExprForm.isStraight, Bool.and_eq_true]
      refine (Expr.lowerAll_composed p dimensions d).bind ?_
      intro ds d₁ hds
      refine (Expr.lowerAll_composed p initializers d₁).bind ?_
      intro is d₂ his
      exact (hds.append his).emitLast (by simp [Operation.operands])
  | .cast target operand =>
      simp only [ExprForm.lower, ExprForm.isStraight]
      refine (Expr.lower_composed p operand d).bind ?_
      intro n d₁ hn
      split
      · exact hn.emitLast (by simp [Operation.operands])
      · exact hn.emitLast (by simp [Operation.operands])
  | .paren inner =>
      simp only [ExprForm.lower, ExprForm.isStraight]
      exact Expr.lower_composed p inner d

theorem Expr.lowerReceiver_composed (p : Program) (needed : Bool) (receiver : Option Expr)
    (d : Draft) : Ensures d (Expr.lowerReceiver p needed receiver) fun n d' =>
      Composed (Expr.isStraightOption receiver = true) d n.toList d' := by
  match receiver with
  | some e =>
      simp only [Expr.lowerReceiver, Expr.isStraightOption]
      refine (Expr.lower_composed p e d).bind ?_
      intro n d₁ hn
      exact hn
  | none =>
      simp only [Expr.lowerReceiver, Expr.isStraightOption]
      cases needed with
      | true =>
          refine ((Composed.nil d).emitLast ?_).bind ?_
          · simp [Operation.operands]
          · intro n d₁ hn
            exact hn
      | false => exact Composed.nil d

theorem Expr.lowerAll_composed (p : Program) (es : List Expr) (d : Draft) :
    Ensures d (Expr.lowerAll p es) fun ns d' =>
      Composed (Expr.areStraight es = true) d ns d' := by
  match es with
  | [] =>
      simp only [Expr.lowerAll, Expr.areStraight]
      exact Composed.nil d
  | e :: rest =>
      simp only [Expr.lowerAll, Expr.areStraight, Bool.and_eq_true]
      refine (Expr.lower_composed p e d).bind ?_
      intro n d₁ hn
      refine (Expr.lowerAll_composed p rest d₁).bind ?_
      intro ns d₂ hns
      exact hn.append hns

end

theorem Expr.lowerOption_composed (p : Program) (e : Option Expr) (d : Draft) :
    Ensures d (Expr.lowerOption p e) fun n d' =>
      Composed (e.all Expr.isStraight = true) d n.toList d' := by
  cases e with
  | none => exact (Composed.nil d).of_iff (by simp)
  | some e =>
      refine (Expr.lower_composed p e d).bind ?_
      intro n d₁ hn
      exact hn

end Disclosure
