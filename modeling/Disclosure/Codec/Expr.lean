import Disclosure.Codec.Program
import Disclosure.Program.Expr

/-!
# Written expressions

How literals, operators and expressions are written as JSON, and how they are read.
-/

namespace Disclosure

namespace Literal

def toJson : Literal → Json
  | int value => .variant "Int" (.int value.toInt)
  | long value => .variant "Long" (.int value.toInt)
  | float value => .variant "Float" (.decimal value)
  | double value => .variant "Double" (.decimal value)
  | bool value => .variant "Bool" (.bool value)
  | char value => .variant "Char" (.text (String.singleton value))
  | string value => .variant "String" (.text value)
  | null => .text "Null"

def ofJson? : Nat → Json → Option Literal
  | _ + 1, .obj [(some "Int", j)] => j.int64?.map int
  | _ + 1, .obj [(some "Long", j)] => j.int64?.map long
  | _ + 1, .obj [(some "Float", j)] => j.decimal?.map float
  | _ + 1, .obj [(some "Double", j)] => j.decimal?.map double
  | _ + 1, .obj [(some "Bool", j)] => j.bool?.map bool
  | _ + 1, .obj [(some "Char", j)] => j.char?.map char
  | _ + 1, .obj [(some "String", j)] => j.text?.map string
  | depth, j => if j.name? depth = some "Null" then some null else none

end Literal

namespace UnaryOp

def text : UnaryOp → String
  | neg => "Neg"
  | plus => "Plus"
  | bitNot => "BitNot"
  | not => "Not"

def toJson (op : UnaryOp) : Json := .text op.text

def ofName? : String → Option UnaryOp
  | "Neg" => some neg
  | "Plus" => some plus
  | "BitNot" => some bitNot
  | "Not" => some not
  | _ => none

def ofJson? (depth : Nat) (j : Json) : Option UnaryOp := (j.name? depth).bind ofName?

end UnaryOp

namespace BinaryOp

def text : BinaryOp → String
  | add => "Add"
  | sub => "Sub"
  | mul => "Mul"
  | div => "Div"
  | rem => "Rem"
  | shl => "Shl"
  | shr => "Shr"
  | ushr => "UShr"
  | bitAnd => "BitAnd"
  | bitOr => "BitOr"
  | bitXor => "BitXor"
  | eq => "Eq"
  | notEq => "NotEq"
  | lt => "Lt"
  | ltEq => "LtEq"
  | gt => "Gt"
  | gtEq => "GtEq"
  | and => "And"
  | or => "Or"

def toJson (op : BinaryOp) : Json := .text op.text

def ofName? : String → Option BinaryOp
  | "Add" => some add
  | "Sub" => some sub
  | "Mul" => some mul
  | "Div" => some div
  | "Rem" => some rem
  | "Shl" => some shl
  | "Shr" => some shr
  | "UShr" => some ushr
  | "BitAnd" => some bitAnd
  | "BitOr" => some bitOr
  | "BitXor" => some bitXor
  | "Eq" => some eq
  | "NotEq" => some notEq
  | "Lt" => some lt
  | "LtEq" => some ltEq
  | "Gt" => some gt
  | "GtEq" => some gtEq
  | "And" => some and
  | "Or" => some or
  | _ => none

def ofJson? (depth : Nat) (j : Json) : Option BinaryOp := (j.name? depth).bind ofName?

end BinaryOp

mutual

def Expr.toJson : Expr → Json
  | .mk form ty => .record [("kind", form.toJson), ("ty", ty.toJson)]

def ExprForm.toJson : ExprForm → Json
  | .literal value => .variant "Literal" value.toJson
  | .var id => .variant "Local" id.toJson
  | .field receiver id =>
      .variant "Field" (.record [("receiver", Expr.optionToJson receiver), ("field", id.toJson)])
  | .call receiver method args =>
      .variant "Call" (.record [("receiver", Expr.optionToJson receiver),
        ("method", method.toJson), ("args", .arr (Expr.listToJson args))])
  | .create ctor args =>
      .variant "New" (.record [("constructor", ctor.toJson),
        ("args", .arr (Expr.listToJson args))])
  | .unary op operand =>
      .variant "Unary" (.record [("op", op.toJson), ("operand", operand.toJson)])
  | .binary op left right =>
      .variant "Binary" (.record [("op", op.toJson), ("left", left.toJson),
        ("right", right.toJson)])
  | .conditional condition thenArm elseArm =>
      .variant "Conditional" (.record [("condition", condition.toJson),
        ("then_expr", thenArm.toJson), ("else_expr", elseArm.toJson)])
  | .assign target value =>
      .variant "Assign" (.record [("target", target.toJson), ("value", value.toJson)])
  | .update op target value =>
      .variant "CompoundAssign" (.record [("op", op.toJson), ("target", target.toJson),
        ("value", value.toJson)])
  | .element array index =>
      .variant "ArrayAccess" (.record [("array", array.toJson), ("index", index.toJson)])
  | .newArray dimensions initializers =>
      .variant "NewArray" (.record [("dimensions", .arr (Expr.listToJson dimensions)),
        ("initializers", .arr (Expr.listToJson initializers))])
  | .cast target operand =>
      .variant "Cast" (.record [("target", target.toJson), ("operand", operand.toJson)])
  | .instanceOf operand target =>
      .variant "InstanceOf" (.record [("operand", operand.toJson), ("target", target.toJson)])
  | .paren inner => .variant "Paren" inner.toJson
  | .self => .text "This"
  | .super => .text "Super"
  | .lambda => .text "Lambda"
  | .methodRef => .text "MethodReference"
  | .classLiteral ty => .variant "ClassLiteral" ty.toJson

def Expr.optionToJson : Option Expr → Json
  | none => .null
  | some e => e.toJson

def Expr.listToJson : List Expr → List Json
  | [] => []
  | e :: rest => e.toJson :: Expr.listToJson rest

end

/-- The form of expression that is written by its name only. -/
def ExprForm.ofName? : String → Option ExprForm
  | "This" => some .self
  | "Super" => some .super
  | "Lambda" => some .lambda
  | "MethodReference" => some .methodRef
  | _ => none

mutual

def Expr.ofJson? : Nat → Json → Option Expr
  | depth + 1, j =>
      match j.fields? ["kind", "ty"] with
      | some [form, ty] => do
          let form ← form.bind (ExprForm.ofJson? depth)
          let ty ← ty.bind (Ty.ofJson? depth)
          return .mk form ty
      | _ => none
  | 0, _ => none

def ExprForm.ofJson? : Nat → Json → Option ExprForm
  | depth + 1, .obj [(some name, j)] =>
      match name with
      | "Literal" => (Literal.ofJson? depth j).map .literal
      | "Local" => (DeclId.ofJson? j).map .var
      | "Paren" => (Expr.ofJson? depth j).map .paren
      | "ClassLiteral" => (Ty.ofJson? depth j).map .classLiteral
      | name => match j with
        | .null => ExprForm.ofName? name
        | j => ExprForm.ofRecord? depth name j
  | _, .str (some name) => ExprForm.ofName? name
  | _, _ => none

/-- Reads a form of expression with several parts from its name and its data. -/
def ExprForm.ofRecord? : Nat → String → Json → Option ExprForm
  | depth + 1, "Field", j =>
      match j.fields? ["receiver", "field"] with
      | some [receiver, id] => do
          let receiver ← Json.optional (Expr.ofJson? depth) receiver
          let id ← id.bind DeclId.ofJson?
          return .field receiver id
      | _ => none
  | depth + 1, "Call", j =>
      match j.fields? ["receiver", "method", "args"] with
      | some [receiver, method, args] => do
          let receiver ← Json.optional (Expr.ofJson? depth) receiver
          let method ← method.bind DeclId.ofJson?
          let args ← args.bind (Expr.listOfJson? depth)
          return .call receiver method args
      | _ => none
  | depth + 1, "New", j =>
      match j.fields? ["constructor", "args"] with
      | some [ctor, args] => do
          let ctor ← ctor.bind DeclId.ofJson?
          let args ← args.bind (Expr.listOfJson? depth)
          return .create ctor args
      | _ => none
  | depth + 1, "Unary", j =>
      match j.fields? ["op", "operand"] with
      | some [op, operand] => do
          let op ← op.bind (UnaryOp.ofJson? depth)
          let operand ← operand.bind (Expr.ofJson? depth)
          return .unary op operand
      | _ => none
  | depth + 1, "Binary", j =>
      match j.fields? ["op", "left", "right"] with
      | some [op, left, right] => do
          let op ← op.bind (BinaryOp.ofJson? depth)
          let left ← left.bind (Expr.ofJson? depth)
          let right ← right.bind (Expr.ofJson? depth)
          return .binary op left right
      | _ => none
  | depth + 1, "Conditional", j =>
      match j.fields? ["condition", "then_expr", "else_expr"] with
      | some [condition, thenArm, elseArm] => do
          let condition ← condition.bind (Expr.ofJson? depth)
          let thenArm ← thenArm.bind (Expr.ofJson? depth)
          let elseArm ← elseArm.bind (Expr.ofJson? depth)
          return .conditional condition thenArm elseArm
      | _ => none
  | depth + 1, "Assign", j =>
      match j.fields? ["target", "value"] with
      | some [target, value] => do
          let target ← target.bind (Expr.ofJson? depth)
          let value ← value.bind (Expr.ofJson? depth)
          return .assign target value
      | _ => none
  | depth + 1, "CompoundAssign", j =>
      match j.fields? ["op", "target", "value"] with
      | some [op, target, value] => do
          let op ← op.bind (BinaryOp.ofJson? depth)
          let target ← target.bind (Expr.ofJson? depth)
          let value ← value.bind (Expr.ofJson? depth)
          return .update op target value
      | _ => none
  | depth + 1, "ArrayAccess", j =>
      match j.fields? ["array", "index"] with
      | some [array, index] => do
          let array ← array.bind (Expr.ofJson? depth)
          let index ← index.bind (Expr.ofJson? depth)
          return .element array index
      | _ => none
  | depth + 1, "NewArray", j =>
      match j.fields? ["dimensions", "initializers"] with
      | some [dimensions, initializers] => do
          let dimensions ← dimensions.bind (Expr.listOfJson? depth)
          let initializers ← initializers.bind (Expr.listOfJson? depth)
          return .newArray dimensions initializers
      | _ => none
  | depth + 1, "Cast", j =>
      match j.fields? ["target", "operand"] with
      | some [target, operand] => do
          let target ← target.bind (Ty.ofJson? depth)
          let operand ← operand.bind (Expr.ofJson? depth)
          return .cast target operand
      | _ => none
  | depth + 1, "InstanceOf", j =>
      match j.fields? ["operand", "target"] with
      | some [operand, target] => do
          let operand ← operand.bind (Expr.ofJson? depth)
          let target ← target.bind (Ty.ofJson? depth)
          return .instanceOf operand target
      | _ => none
  | _, _, _ => none

def Expr.listOfJson? : Nat → Json → Option (List Expr)
  | depth + 1, .arr items => items.mapM (Expr.ofJson? depth)
  | _, _ => none

end

end Disclosure
