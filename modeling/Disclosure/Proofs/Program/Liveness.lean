import Disclosure.Graph.Lowering

/-!
# Which statements are live

Control comes to a statement if the statements before it let it through, whatever the conditions
evaluate to.  `Stmt.ways` gives how control can leave a statement that it comes to, and
`Stmt.occurrences` lists the statements that occur in a statement, in the order of the text, each
with whether control comes to it.

A node is made for a statement itself or for one of its expressions.  These nodes come before those
of the statements inside it, so the order of the text is the order of the nodes.
-/

namespace Disclosure

/-- How control can leave a statement that it comes to. -/
structure Ways where
  completes : Bool
  /-- Control can leave the innermost loop or choice around the statement. -/
  exits : Bool
  deriving DecidableEq, Repr

namespace Ways

def andThen (first second : Ways) : Ways :=
  ⟨first.completes && second.completes, first.exits || first.completes && second.exits⟩

def orElse (first second : Ways) : Ways :=
  ⟨first.completes || second.completes, first.exits || second.exits⟩

end Ways

mutual

def Stmt.ways : Stmt → Ways
  | .declare _ _ => ⟨true, false⟩
  | .eval _ => ⟨true, false⟩
  | .branch _ thenBody elseBody => (Stmt.waysIn thenBody).orElse (Stmt.waysInOption elseBody)
  | .loop _ _ => ⟨true, false⟩
  | .select _ _ none => ⟨true, false⟩
  | .select _ cases (some body) =>
      ⟨(Stmt.waysIn body).completes || (Case.exitsIn cases || (Stmt.waysIn body).exits), false⟩
  | .leave _ => ⟨false, false⟩
  | .raise _ => ⟨false, false⟩
  | .check _ _ => ⟨true, false⟩
  | .locked _ body => Stmt.waysIn body
  | .block body => Stmt.waysIn body
  | .exitLoop => ⟨false, true⟩
  | .nextRound => ⟨false, false⟩

def Stmt.waysIn : List Stmt → Ways
  | [] => ⟨true, false⟩
  | s :: rest => s.ways.andThen (Stmt.waysIn rest)

def Stmt.waysInOption : Option (List Stmt) → Ways
  | none => ⟨true, false⟩
  | some body => Stmt.waysIn body

/-- Whether control can leave the choice from one of its cases, each of which it comes to. -/
def Case.exitsIn : List Case → Bool
  | [] => false
  | .mk _ body :: rest => (Stmt.waysIn body).exits || Case.exitsIn rest

end

mutual

/-- The statements that occur in a statement, itself included, each with whether control comes to it
if it comes to the whole as `live` says. -/
def Stmt.occurrences (live : Bool) : Stmt → List (Stmt × Bool)
  | .declare var init => [(.declare var init, live)]
  | .eval e => [(.eval e, live)]
  | .branch condition thenBody elseBody =>
      (.branch condition thenBody elseBody, live) ::
        (Stmt.occurrencesIn live thenBody ++ Stmt.occurrencesInOption live elseBody)
  | .loop condition body => (.loop condition body, live) :: Stmt.occurrencesIn live body
  | .select selector cases default =>
      (.select selector cases default, live) ::
        (Case.occurrencesIn live cases ++ Stmt.occurrencesInOption live default)
  | .leave value => [(.leave value, live)]
  | .raise value => [(.raise value, live)]
  | .check condition detail => [(.check condition detail, live)]
  | .locked lock body => (.locked lock body, live) :: Stmt.occurrencesIn live body
  | .block body => (.block body, live) :: Stmt.occurrencesIn live body
  | .exitLoop => [(.exitLoop, live)]
  | .nextRound => [(.nextRound, live)]

/-- The statements of a body: control comes to one if it can come to the end of those before it. -/
def Stmt.occurrencesIn (live : Bool) : List Stmt → List (Stmt × Bool)
  | [] => []
  | s :: rest =>
      s.occurrences live ++ Stmt.occurrencesIn (live && s.ways.completes) rest

def Stmt.occurrencesInOption (live : Bool) : Option (List Stmt) → List (Stmt × Bool)
  | none => []
  | some body => Stmt.occurrencesIn live body

def Case.occurrencesIn (live : Bool) : List Case → List (Stmt × Bool)
  | [] => []
  | .mk _ body :: rest => Stmt.occurrencesIn live body ++ Case.occurrencesIn live rest

end

/-- The number of nodes that make a text of a value, which is none if it is a text already. -/
def textNodes (isText : Bool) : Nat := if isText then 0 else 1

mutual

def Expr.nodeCount (p : Program) : Expr → Nat
  | .mk form ty => form.nodeCount p ty

def ExprForm.nodeCount (p : Program) (ty : Ty) : ExprForm → Nat
  | .literal _ => 1
  | .var _ => 1
  | .field receiver id => Expr.nodeCountReceiver p (!p.isStaticField id) receiver + 1
  | .call receiver method args =>
      Expr.nodeCountReceiver p (p.takesReceiver method) receiver +
        (1 + (Expr.nodeCounts p args + 1))
  | .create _ args => Expr.nodeCounts p args + 1
  | .unary _ operand => operand.nodeCount p + 1
  | .binary op left right =>
      if op.isConcat ty then
        left.nodeCount p + (textNodes (decide (left.ty = ty)) +
          (right.nodeCount p + (textNodes (decide (right.ty = ty)) + 1)))
      else left.nodeCount p + (right.nodeCount p + 1)
  | .conditional condition thenArm elseArm =>
      condition.nodeCount p + (thenArm.nodeCount p + (elseArm.nodeCount p + 1))
  | .assign target value => target.nodeCount p + (value.nodeCount p + 1)
  | .update op target value =>
      target.nodeCount p + (value.nodeCount p +
        if op.isConcat target.ty then textNodes (decide (value.ty = target.ty)) + (1 + 1)
        else 1 + 1)
  | .element array index => array.nodeCount p + (index.nodeCount p + 1)
  | .newArray dimensions initializers =>
      Expr.nodeCounts p dimensions + (Expr.nodeCounts p initializers + 1)
  | .cast _ operand => operand.nodeCount p + 1
  | .instanceOf operand _ => operand.nodeCount p + 1
  | .paren inner => inner.nodeCount p
  | .self => 1
  | .super => 1
  | .lambda => 1
  | .methodRef => 1
  | .classLiteral _ => 1

def Expr.nodeCountReceiver (p : Program) (needed : Bool) : Option Expr → Nat
  | some e => e.nodeCount p
  | none => if needed then 1 else 0

def Expr.nodeCounts (p : Program) : List Expr → Nat
  | [] => 0
  | e :: rest => e.nodeCount p + Expr.nodeCounts p rest

end

def Expr.nodeCountOption (p : Program) : Option Expr → Nat
  | some e => e.nodeCount p
  | none => 0

/-- The number of nodes of the tests of cases: those of the labels, and one for each test. -/
def Case.testNodes (p : Program) : List Case → Nat
  | [] => 0
  | c :: rest => c.label.nodeCount p + 1 + Case.testNodes p rest

/-- The number of nodes of a statement, without those of the statements inside it. -/
def Stmt.ownNodes (p : Program) : Stmt → Nat
  | .declare _ none => 1
  | .declare _ (some init) => 1 + (init.nodeCount p + (1 + 1))
  | .eval e => e.nodeCount p
  | .branch condition _ _ => condition.nodeCount p
  | .loop condition _ => condition.nodeCount p
  | .select selector cases _ => selector.nodeCount p + Case.testNodes p cases
  | .leave value => Expr.nodeCountOption p value + 1
  | .raise value => value.nodeCount p + 1
  | .check condition detail => condition.nodeCount p + (Expr.nodeCountOption p detail + 1)
  | .locked lock _ => lock.nodeCount p + 1
  | .block _ => 0
  | .exitLoop => 0
  | .nextRound => 0

/-- For each node of some statements, in order, whether control comes to its statement. -/
def Stmt.nodeMarks (p : Program) (occurrences : List (Stmt × Bool)) : List Bool :=
  occurrences.flatMap fun o => List.replicate (o.1.ownNodes p) o.2

def Stmt.Leaves (occurrences : List (Stmt × Bool)) : Prop :=
  ∃ value, (.leave value, true) ∈ occurrences

@[simp] theorem Stmt.nodeMarks_nil (p : Program) : Stmt.nodeMarks p [] = [] := rfl

@[simp] theorem Stmt.nodeMarks_cons (p : Program) (s : Stmt) (live : Bool)
    (occurrences : List (Stmt × Bool)) :
    Stmt.nodeMarks p ((s, live) :: occurrences) =
      List.replicate (s.ownNodes p) live ++ Stmt.nodeMarks p occurrences :=
  rfl

@[simp] theorem Stmt.nodeMarks_append (p : Program) (before after : List (Stmt × Bool)) :
    Stmt.nodeMarks p (before ++ after) = Stmt.nodeMarks p before ++ Stmt.nodeMarks p after :=
  List.flatMap_append

@[simp] theorem Stmt.not_leaves_nil : ¬ Stmt.Leaves [] := by simp [Stmt.Leaves]

theorem Stmt.leaves_cons {s : Stmt} {live : Bool} {occurrences : List (Stmt × Bool)} :
    Stmt.Leaves ((s, live) :: occurrences) ↔
      (∃ value, .leave value = s) ∧ live = true ∨ Stmt.Leaves occurrences := by
  simp [Stmt.Leaves, exists_or, eq_comm (a := true)]

@[simp] theorem Stmt.leaves_append {before after : List (Stmt × Bool)} :
    Stmt.Leaves (before ++ after) ↔ Stmt.Leaves before ∨ Stmt.Leaves after := by
  simp [Stmt.Leaves, exists_or]

end Disclosure
