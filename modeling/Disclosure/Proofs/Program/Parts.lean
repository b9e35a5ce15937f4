import Disclosure.Location
import Disclosure.Program.Stmt

/-!
# The expressions of a procedure and their locations

`Expr.parts` and `Stmt.exprs` list the expressions that occur in an expression or a statement, in
the order in which they are evaluated, each as often as it occurs.

`Expr.location?` reads off the tree of an expression which location it denotes.  A static field is
the same location whatever its receiver, and a field without a receiver is one of the current
object.
-/

namespace Disclosure

mutual

/-- The location that an expression denotes, if it denotes one. -/
def Expr.location? (p : Program) : Expr → Option Location
  | .mk form _ => form.location? p

def ExprForm.location? (p : Program) : ExprForm → Option Location
  | .var id => some (.var id)
  | .self => some .self
  | .paren inner => inner.location? p
  | .field receiver id =>
      if p.isStaticField id then some (.static id)
      else (Expr.receiverLocation? p receiver).map fun l => l.extend id
  | .literal _ => none
  | .call _ _ _ => none
  | .create _ _ => none
  | .unary _ _ => none
  | .binary _ _ _ => none
  | .conditional _ _ _ => none
  | .assign _ _ => none
  | .update _ _ _ => none
  | .element _ _ => none
  | .newArray _ _ => none
  | .cast _ _ => none
  | .instanceOf _ _ => none
  | .super => none
  | .lambda => none
  | .methodRef => none
  | .classLiteral _ => none

def Expr.receiverLocation? (p : Program) : Option Expr → Option Location
  | some e => e.location? p
  | none => some .self

end

mutual

/-- The expressions that occur in an expression, itself first. -/
def Expr.parts : Expr → List Expr
  | .mk form ty => .mk form ty :: form.parts

def ExprForm.parts : ExprForm → List Expr
  | .field receiver _ => Expr.partsOption receiver
  | .call receiver _ args => Expr.partsOption receiver ++ Expr.partsAll args
  | .create _ args => Expr.partsAll args
  | .unary _ operand => operand.parts
  | .binary _ left right => left.parts ++ right.parts
  | .conditional condition thenArm elseArm =>
      condition.parts ++ (thenArm.parts ++ elseArm.parts)
  | .assign target value => target.parts ++ value.parts
  | .update _ target value => target.parts ++ value.parts
  | .element array index => array.parts ++ index.parts
  | .newArray dimensions initializers => Expr.partsAll dimensions ++ Expr.partsAll initializers
  | .cast _ operand => operand.parts
  | .instanceOf operand _ => operand.parts
  | .paren inner => inner.parts
  | .literal _ => []
  | .var _ => []
  | .self => []
  | .super => []
  | .lambda => []
  | .methodRef => []
  | .classLiteral _ => []

def Expr.partsOption : Option Expr → List Expr
  | some e => e.parts
  | none => []

def Expr.partsAll : List Expr → List Expr
  | [] => []
  | e :: rest => e.parts ++ Expr.partsAll rest

end

def Case.labelExprs (cases : List Case) : List Expr := cases.flatMap fun c => c.label.parts

mutual

/-- The expressions that occur in a statement.  The labels of a choice come before the bodies of its
cases, because they are all tested first. -/
def Stmt.exprs : Stmt → List Expr
  | .declare _ init => Expr.partsOption init
  | .eval e => e.parts
  | .branch condition thenBody elseBody =>
      condition.parts ++ (Stmt.exprsIn thenBody ++ Stmt.exprsInOption elseBody)
  | .loop condition body => condition.parts ++ Stmt.exprsIn body
  | .select selector cases default =>
      selector.parts ++
        (Case.labelExprs cases ++ (Case.exprsIn cases ++ Stmt.exprsInOption default))
  | .leave value => Expr.partsOption value
  | .raise value => value.parts
  | .check condition detail => condition.parts ++ Expr.partsOption detail
  | .locked lock body => lock.parts ++ Stmt.exprsIn body
  | .block body => Stmt.exprsIn body
  | .exitLoop => []
  | .nextRound => []

def Stmt.exprsIn : List Stmt → List Expr
  | [] => []
  | s :: rest => s.exprs ++ Stmt.exprsIn rest

def Stmt.exprsInOption : Option (List Stmt) → List Expr
  | none => []
  | some body => Stmt.exprsIn body

def Case.exprsIn : List Case → List Expr
  | [] => []
  | .mk _ body :: rest => Stmt.exprsIn body ++ Case.exprsIn rest

end

def Procedure.exprs (proc : Procedure) : List Expr := Stmt.exprsIn proc.body

end Disclosure
