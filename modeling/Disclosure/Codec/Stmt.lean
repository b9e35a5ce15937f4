import Disclosure.Codec.Expr
import Disclosure.Program.Stmt

/-!
# Written statements

How statements and procedures are written as JSON, and how they are read.
-/

namespace Disclosure

mutual

def Stmt.toJson : Stmt → Json
  | .declare var init =>
      .variant "LocalDecl" (.record [("var", var.toJson), ("init", Expr.optionToJson init)])
  | .eval e => .variant "Expr" e.toJson
  | .branch condition thenBody elseBody =>
      .variant "If" (.record [("condition", condition.toJson),
        ("then_body", .arr (Stmt.listToJson thenBody)),
        ("else_body", Stmt.optionToJson elseBody)])
  | .loop condition body =>
      .variant "While" (.record [("condition", condition.toJson),
        ("body", .arr (Stmt.listToJson body))])
  | .select selector cases default =>
      .variant "Switch" (.record [("selector", selector.toJson),
        ("cases", .arr (Case.listToJson cases)), ("default", Stmt.optionToJson default)])
  | .leave value => .variant "Return" (Expr.optionToJson value)
  | .raise value => .variant "Throw" value.toJson
  | .check condition detail =>
      .variant "Assert" (.record [("condition", condition.toJson),
        ("detail", Expr.optionToJson detail)])
  | .locked lock body =>
      .variant "Synchronized" (.record [("lock", lock.toJson),
        ("body", .arr (Stmt.listToJson body))])
  | .block body => .variant "Block" (.arr (Stmt.listToJson body))
  | .exitLoop => .text "Break"
  | .nextRound => .text "Continue"

def Stmt.listToJson : List Stmt → List Json
  | [] => []
  | s :: rest => s.toJson :: Stmt.listToJson rest

def Stmt.optionToJson : Option (List Stmt) → Json
  | none => .null
  | some body => .arr (Stmt.listToJson body)

def Case.toJson : Case → Json
  | .mk label body =>
      .record [("label", label.toJson), ("body", .arr (Stmt.listToJson body))]

def Case.listToJson : List Case → List Json
  | [] => []
  | c :: rest => c.toJson :: Case.listToJson rest

end

/-- The statement that is written by its name only. -/
def Stmt.ofName? : String → Option Stmt
  | "Break" => some .exitLoop
  | "Continue" => some .nextRound
  | _ => none

mutual

def Stmt.ofJson? : Nat → Json → Option Stmt
  | depth + 1, .obj [(some name, j)] =>
      match name with
      | "Expr" => (Expr.ofJson? depth j).map .eval
      | "Return" => (Json.optional (Expr.ofJson? depth) (some j)).map .leave
      | "Throw" => (Expr.ofJson? depth j).map .raise
      | "Block" => (Stmt.listOfJson? depth j).map .block
      | name => match j with
        | .null => Stmt.ofName? name
        | j => Stmt.ofRecord? depth name j
  | _, .str (some name) => Stmt.ofName? name
  | _, _ => none

/-- Reads a statement with several parts from its name and its data. -/
def Stmt.ofRecord? : Nat → String → Json → Option Stmt
  | depth + 1, "LocalDecl", j =>
      match j.fields? ["var", "init"] with
      | some [var, init] => do
          let var ← var.bind DeclId.ofJson?
          let init ← Json.optional (Expr.ofJson? depth) init
          return .declare var init
      | _ => none
  | depth + 1, "If", j =>
      match j.fields? ["condition", "then_body", "else_body"] with
      | some [condition, thenBody, elseBody] => do
          let condition ← condition.bind (Expr.ofJson? depth)
          let thenBody ← thenBody.bind (Stmt.listOfJson? depth)
          let elseBody ← Json.optional (Stmt.listOfJson? depth) elseBody
          return .branch condition thenBody elseBody
      | _ => none
  | depth + 1, "While", j =>
      match j.fields? ["condition", "body"] with
      | some [condition, body] => do
          let condition ← condition.bind (Expr.ofJson? depth)
          let body ← body.bind (Stmt.listOfJson? depth)
          return .loop condition body
      | _ => none
  | depth + 1, "Switch", j =>
      match j.fields? ["selector", "cases", "default"] with
      | some [selector, cases, default] => do
          let selector ← selector.bind (Expr.ofJson? depth)
          let cases ← cases.bind (Case.listOfJson? depth)
          let default ← Json.optional (Stmt.listOfJson? depth) default
          return .select selector cases default
      | _ => none
  | depth + 1, "Assert", j =>
      match j.fields? ["condition", "detail"] with
      | some [condition, detail] => do
          let condition ← condition.bind (Expr.ofJson? depth)
          let detail ← Json.optional (Expr.ofJson? depth) detail
          return .check condition detail
      | _ => none
  | depth + 1, "Synchronized", j =>
      match j.fields? ["lock", "body"] with
      | some [lock, body] => do
          let lock ← lock.bind (Expr.ofJson? depth)
          let body ← body.bind (Stmt.listOfJson? depth)
          return .locked lock body
      | _ => none
  | _, _, _ => none

def Stmt.listOfJson? : Nat → Json → Option (List Stmt)
  | depth + 1, .arr items => items.mapM (Stmt.ofJson? depth)
  | _, _ => none

def Case.ofJson? : Nat → Json → Option Case
  | depth + 1, j =>
      match j.fields? ["label", "body"] with
      | some [label, body] => do
          let label ← label.bind (Expr.ofJson? depth)
          let body ← body.bind (Stmt.listOfJson? depth)
          return .mk label body
      | _ => none
  | 0, _ => none

def Case.listOfJson? : Nat → Json → Option (List Case)
  | depth + 1, .arr items => items.mapM (Case.ofJson? depth)
  | _, _ => none

end

namespace Procedure

def toJson (p : Procedure) : Json :=
  .record [("method", p.method.toJson), ("params", .list DeclId.toJson p.params),
    ("body", .arr (Stmt.listToJson p.body))]

def ofJson? : Nat → Json → Option Procedure
  | depth + 1, j =>
      match j.fields? ["method", "params", "body"] with
      | some [method, params, body] => do
          let method ← method.bind DeclId.ofJson?
          let params ← params.bind (DeclId.listOfJson? depth)
          let body ← body.bind (Stmt.listOfJson? depth)
          return ⟨method, params, body⟩
      | _ => none
  | _, _ => none

end Procedure

end Disclosure
