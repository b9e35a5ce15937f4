import Disclosure.Memory.Basic
import Disclosure.Scope

/-!
# The effect of an expression, from its tree

An expression is evaluated by going through its tree: the parts are evaluated from the left to the
right, each in the memory that the one before it leaves, and the class of the whole comes from
theirs.  What an assignment to an expression would change is its place.  The place of an element or
a field holds the class that the array or the object had when it was evaluated, because the
assignment raises it.

There are no nodes here, and no classes are recorded: this is what the nodes of an expression are
held to.
-/

namespace Disclosure

/-- What an assignment to an expression changes. -/
inductive Place where
  /-- Nothing. -/
  | nowhere
  /-- Nothing, but the current object has a location. -/
  | self
  /-- A variable or a static field. -/
  | whole (l : Location)
  /-- A field of the object at a location, if it has one, which was of class `held`. -/
  | field (object : Option Location) (held : Sensitivity) (id : DeclId)
  /-- An element of the array at a location, if it has one, which was of class `held`. -/
  | element (array : Option Location) (held : Sensitivity)
  deriving DecidableEq, Repr

namespace Place

def location? : Place → Option Location
  | nowhere => none
  | self => some .self
  | whole l => some l
  | field object _ id => object.map fun l => l.extend id
  | element _ _ => none

def store (s : Sensitivity) (m : Memory) : Place → Memory
  | nowhere => m
  | self => m
  | whole l => m.insert l s
  | field (some l) held id => Table.insert (m.insert (l.extend id) s) l (held.join s)
  | field none _ _ => m
  | element (some l) held => m.insert l (held.join s)
  | element none _ => m

end Place

/-- The class of a value, the place of the expression, and the memory after it. -/
structure Evaluated where
  value : Sensitivity
  place : Place
  memory : Memory

mutual

def Expr.evaluate (sc : Scope) : Expr → Memory → Evaluated
  | .mk form ty, m => form.evaluate sc ty m

/-- Evaluates an expression of type `ty`.  Of a conditional both arms are taken, and what they leave
is joined. -/
def ExprForm.evaluate (sc : Scope) (ty : Ty) : ExprForm → Memory → Evaluated
  | .literal _, m => ⟨.safe, .nowhere, m⟩
  | .var id, m =>
      ⟨if sc.program.isConstant id then .safe else m.read (.var id), .whole (.var id), m⟩
  | .field receiver id, m =>
      let r := Expr.evaluateReceiver sc receiver m
      ⟨sc.classifyContent id, if sc.program.isStaticField id then .whole (.static id)
        else .field r.place.location? r.value id, r.memory⟩
  | .call receiver method args, m =>
      let r := Expr.evaluateReceiver sc receiver m
      ⟨(sc.classifyTy ty).pool (sc.classify method), .nowhere, Expr.evaluateAll sc args r.memory⟩
  | .create ctor args, m =>
      ⟨(sc.classifyTy ty).pool (sc.classify ctor), .nowhere, Expr.evaluateAll sc args m⟩
  | .unary _ operand, m =>
      let o := operand.evaluate sc m
      ⟨o.value, .nowhere, o.memory⟩
  | .binary _ left right, m =>
      let l := left.evaluate sc m
      let r := right.evaluate sc l.memory
      ⟨l.value.join r.value, .nowhere, r.memory⟩
  | .conditional condition thenArm elseArm, m =>
      let c := condition.evaluate sc m
      let t := thenArm.evaluate sc c.memory
      let e := elseArm.evaluate sc c.memory
      ⟨t.value.join e.value, .nowhere, t.memory.join e.memory⟩
  | .assign target value, m =>
      let t := target.evaluate sc m
      let v := value.evaluate sc t.memory
      ⟨v.value, .nowhere, t.place.store v.value v.memory⟩
  | .update _ target value, m =>
      let t := target.evaluate sc m
      let v := value.evaluate sc t.memory
      ⟨t.value.join v.value, .nowhere, t.place.store (t.value.join v.value) v.memory⟩
  | .element array index, m =>
      let a := array.evaluate sc m
      let i := index.evaluate sc a.memory
      ⟨.unknown, .element a.place.location? a.value, i.memory⟩
  | .newArray dimensions initializers, m =>
      ⟨.unknown, .nowhere, Expr.evaluateAll sc initializers (Expr.evaluateAll sc dimensions m)⟩
  | .cast target operand, m =>
      let o := operand.evaluate sc m
      ⟨o.value.pool (sc.classifyTy target), .nowhere, o.memory⟩
  | .instanceOf operand _, m => ⟨.unknown, .nowhere, (operand.evaluate sc m).memory⟩
  | .paren inner, m => inner.evaluate sc m
  | .self, m => ⟨.unknown, .self, m⟩
  | .super, m => ⟨.unknown, .nowhere, m⟩
  | .lambda, m => ⟨.unknown, .nowhere, m⟩
  | .methodRef, m => ⟨.unknown, .nowhere, m⟩
  | .classLiteral _, m => ⟨.unknown, .nowhere, m⟩

def Expr.evaluateReceiver (sc : Scope) : Option Expr → Memory → Evaluated
  | some e, m => e.evaluate sc m
  | none, m => ⟨.unknown, .self, m⟩

def Expr.evaluateAll (sc : Scope) : List Expr → Memory → Memory
  | [], m => m
  | e :: rest, m => Expr.evaluateAll sc rest (e.evaluate sc m).memory

end

end Disclosure
