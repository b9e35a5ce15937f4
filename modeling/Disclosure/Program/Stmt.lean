import Disclosure.Program.Expr
import Disclosure.Program.Decl

/-!
# Statements

The body of a procedure is a list of structured statements: jumps are `break` and `continue`
only.
-/

namespace Disclosure

mutual

inductive Stmt where
  | declare (var : DeclId) (init : Option Expr)
  | eval (e : Expr)
  | branch (condition : Expr) (thenBody : List Stmt) (elseBody : Option (List Stmt))
  | loop (condition : Expr) (body : List Stmt)
  /-- A choice between cases; a case that completes goes on with the next one. -/
  | select (selector : Expr) (cases : List Case) (default : Option (List Stmt))
  | leave (value : Option Expr)
  | raise (value : Expr)
  | check (condition : Expr) (detail : Option Expr)
  | locked (lock : Expr) (body : List Stmt)
  | block (body : List Stmt)
  /-- Leaves the innermost loop or choice. -/
  | exitLoop
  | nextRound

inductive Case where
  | mk (label : Expr) (body : List Stmt)

end

namespace Case

def label : Case → Expr
  | mk label _ => label

def body : Case → List Stmt
  | mk _ body => body

@[simp] theorem label_mk (e : Expr) (b : List Stmt) : (mk e b).label = e := rfl

@[simp] theorem body_mk (e : Expr) (b : List Stmt) : (mk e b).body = b := rfl

end Case

structure Procedure where
  method : DeclId
  params : List DeclId
  body : List Stmt

namespace Procedure

/-- The procedure of a method that has the parameters that the program declares. -/
def ofMethod (p : Program) (method : DeclId) (body : List Stmt) : Procedure :=
  ⟨method, p.paramsOf method, body⟩

end Procedure

end Disclosure
