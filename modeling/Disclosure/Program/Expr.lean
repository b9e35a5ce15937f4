import Disclosure.Decimal
import Disclosure.Program.Ty

/-!
# Expressions

An expression is a typed tree: every node has a form, which holds its parts, and a static type.
-/

namespace Disclosure

inductive Literal where
  | int (value : Int64)
  | long (value : Int64)
  | float (value : Decimal)
  | double (value : Decimal)
  | bool (value : Bool)
  | char (value : Char)
  | string (value : String)
  | null
  deriving DecidableEq, Repr

inductive UnaryOp where
  | neg
  | plus
  | bitNot
  | not
  deriving DecidableEq, Repr

inductive BinaryOp where
  | add
  | sub
  | mul
  | div
  | rem
  | shl
  | shr
  | ushr
  | bitAnd
  | bitOr
  | bitXor
  | eq
  | notEq
  | lt
  | ltEq
  | gt
  | gtEq
  | and
  | or
  deriving DecidableEq, Repr

mutual

/-- An expression: what it is, and its static type. -/
inductive Expr where
  | mk (form : ExprForm) (ty : Ty)

inductive ExprForm where
  | literal (value : Literal)
  | var (id : DeclId)
  /-- A field; without a receiver it is static or a field of the current object. -/
  | field (receiver : Option Expr) (id : DeclId)
  /-- A method call; without a receiver it is static or a call on the current object. -/
  | call (receiver : Option Expr) (method : DeclId) (args : List Expr)
  | create (ctor : DeclId) (args : List Expr)
  | unary (op : UnaryOp) (operand : Expr)
  | binary (op : BinaryOp) (left right : Expr)
  | conditional (condition thenArm elseArm : Expr)
  | assign (target value : Expr)
  /-- `target op= value`. -/
  | update (op : BinaryOp) (target value : Expr)
  | element (array index : Expr)
  | newArray (dimensions initializers : List Expr)
  | cast (target : Ty) (operand : Expr)
  | instanceOf (operand : Expr) (target : Ty)
  | paren (inner : Expr)
  | self
  | super
  | lambda
  | methodRef
  | classLiteral (ty : Ty)

end

namespace Expr

def form : Expr → ExprForm
  | mk form _ => form

def ty : Expr → Ty
  | mk _ ty => ty

def literal (value : Literal) (ty : Ty) : Expr := mk (.literal value) ty

/-- A string literal, where `stringType` declares the type of strings. -/
def string (value : String) (stringType : DeclId) : Expr :=
  literal (.string value) (.declared stringType)

def var (id : DeclId) (ty : Ty) : Expr := mk (.var id) ty

def call (method : DeclId) (args : List Expr) (ty : Ty) : Expr := mk (.call none method args) ty

def field (receiver : Option Expr) (id : DeclId) (ty : Ty) : Expr := mk (.field receiver id) ty

def assign (target value : Expr) : Expr := mk (.assign target value) target.ty

def binary (op : BinaryOp) (left right : Expr) (ty : Ty) : Expr := mk (.binary op left right) ty

def paren (inner : Expr) : Expr := mk (.paren inner) inner.ty

def bare : Expr → Expr
  | mk (.paren inner) _ => inner.bare
  | e => e

/-- The declaration that the expression, without the parentheses around it, refers to. -/
def referent? (e : Expr) : Option DeclId :=
  match e.bare.form with
  | .var id => some id
  | .field _ id => some id
  | .call _ method _ => some method
  | .create ctor _ => some ctor
  | _ => none

@[simp] theorem form_mk (f : ExprForm) (t : Ty) : (mk f t).form = f := rfl

@[simp] theorem ty_mk (f : ExprForm) (t : Ty) : (mk f t).ty = t := rfl

@[simp] theorem bare_mk_paren (inner : Expr) (t : Ty) :
    (mk (.paren inner) t).bare = inner.bare := by
  rw [bare]

end Expr

end Disclosure
