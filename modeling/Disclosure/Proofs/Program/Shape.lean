import Disclosure.Program.Stmt

/-!
# Shapes of expressions and statements

An expression is straight if it has no conditional in it: its parts are always evaluated, one after
the other.  For the expressions of a statement, `Stmt.every` asks a question about each of them and
tells it which ones are tested at the head of a loop.
-/

namespace Disclosure

mutual

/-- Whether an expression contains no conditional. -/
def Expr.isStraight : Expr → Bool
  | .mk form _ => form.isStraight

def ExprForm.isStraight : ExprForm → Bool
  | .conditional _ _ _ => false
  | .field receiver _ => Expr.isStraightOption receiver
  | .call receiver _ args => Expr.isStraightOption receiver && Expr.areStraight args
  | .create _ args => Expr.areStraight args
  | .unary _ operand => operand.isStraight
  | .binary _ left right => left.isStraight && right.isStraight
  | .assign target value => target.isStraight && value.isStraight
  | .update _ target value => target.isStraight && value.isStraight
  | .element array index => array.isStraight && index.isStraight
  | .newArray dimensions initializers =>
      Expr.areStraight dimensions && Expr.areStraight initializers
  | .cast _ operand => operand.isStraight
  | .instanceOf operand _ => operand.isStraight
  | .paren inner => inner.isStraight
  | .literal _ => true
  | .var _ => true
  | .self => true
  | .super => true
  | .lambda => true
  | .methodRef => true
  | .classLiteral _ => true

def Expr.isStraightOption : Option Expr → Bool
  | some e => e.isStraight
  | none => true

def Expr.areStraight : List Expr → Bool
  | [] => true
  | e :: rest => e.isStraight && Expr.areStraight rest

end

section

variable (check : Bool → Expr → Bool)

mutual

/-- Whether every expression of a statement passes a check, which is told whether the expression is
the condition of a loop. -/
def Stmt.every : Stmt → Bool
  | .declare _ init => init.all (check false)
  | .eval e => check false e
  | .branch condition thenBody elseBody =>
      check false condition && Stmt.everyIn thenBody && Stmt.everyInOption elseBody
  | .loop condition body => check true condition && Stmt.everyIn body
  | .select selector cases default =>
      check false selector && Case.everyIn cases && Stmt.everyInOption default
  | .leave value => value.all (check false)
  | .raise value => check false value
  | .check condition detail => check false condition && detail.all (check false)
  | .locked lock body => check false lock && Stmt.everyIn body
  | .block body => Stmt.everyIn body
  | .exitLoop => true
  | .nextRound => true

def Stmt.everyIn : List Stmt → Bool
  | [] => true
  | s :: rest => s.every && Stmt.everyIn rest

def Stmt.everyInOption : Option (List Stmt) → Bool
  | none => true
  | some body => Stmt.everyIn body

def Case.everyIn : List Case → Bool
  | [] => true
  | .mk label body :: rest => check false label && Stmt.everyIn body && Case.everyIn rest

end

end

/-- The check of straightness for conditions of loops only. -/
def Expr.isStraightAtLoop (atLoop : Bool) (e : Expr) : Bool := !atLoop || e.isStraight

@[simp] theorem Expr.isStraightAtLoop_true (e : Expr) :
    e.isStraightAtLoop true = e.isStraight := rfl

@[simp] theorem Expr.isStraightAtLoop_false (e : Expr) : e.isStraightAtLoop false = true := rfl

mutual

/-- Whether every jump has a place to go to: `exitLoop` lies in a loop or a choice, and `nextRound`
in a loop. -/
def Stmt.jumpsLand (inChoice inLoop : Bool) : Stmt → Bool
  | .branch _ thenBody elseBody =>
      Stmt.jumpsLandIn inChoice inLoop thenBody && Stmt.jumpsLandInOption inChoice inLoop elseBody
  | .loop _ body => Stmt.jumpsLandIn true true body
  | .select _ cases default =>
      Case.jumpsLandIn true inLoop cases && Stmt.jumpsLandInOption true inLoop default
  | .locked _ body => Stmt.jumpsLandIn inChoice inLoop body
  | .block body => Stmt.jumpsLandIn inChoice inLoop body
  | .exitLoop => inChoice
  | .nextRound => inLoop
  | .declare _ _ => true
  | .eval _ => true
  | .leave _ => true
  | .raise _ => true
  | .check _ _ => true

def Stmt.jumpsLandIn (inChoice inLoop : Bool) : List Stmt → Bool
  | [] => true
  | s :: rest => s.jumpsLand inChoice inLoop && Stmt.jumpsLandIn inChoice inLoop rest

def Stmt.jumpsLandInOption (inChoice inLoop : Bool) : Option (List Stmt) → Bool
  | none => true
  | some body => Stmt.jumpsLandIn inChoice inLoop body

def Case.jumpsLandIn (inChoice inLoop : Bool) : List Case → Bool
  | [] => true
  | .mk _ body :: rest =>
      Stmt.jumpsLandIn inChoice inLoop body && Case.jumpsLandIn inChoice inLoop rest

end

namespace Procedure

def JumpsLand (proc : Procedure) : Prop := Stmt.jumpsLandIn false false proc.body = true

instance (proc : Procedure) : Decidable proc.JumpsLand := inferInstanceAs (Decidable (_ = _))

def LoopsStraight (proc : Procedure) : Prop :=
  Stmt.everyIn Expr.isStraightAtLoop proc.body = true

instance (proc : Procedure) : Decidable proc.LoopsStraight := inferInstanceAs (Decidable (_ = _))

def IsStraight (proc : Procedure) : Prop :=
  Stmt.everyIn (fun _ e => e.isStraight) proc.body = true

instance (proc : Procedure) : Decidable proc.IsStraight := inferInstanceAs (Decidable (_ = _))

end Procedure

end Disclosure
