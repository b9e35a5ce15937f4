import Disclosure.Program.Ty

/-!
# Programs

A program is the list of its declarations.  A declaration is looked up by its position in the
list; looking up a position past the end finds nothing, and every question about such a
declaration has an empty answer.
-/

namespace Disclosure

inductive Role where
  | method (params : List DeclId) (returnType : Ty) (isStatic isConstructor : Bool)
  | staticInitializer
  | field (ty : Ty) (isStatic : Bool)
  | parameter (ty : Ty) (owner : DeclId)
  | localVar (ty : Ty) (isConstant : Bool)
  | type
  deriving DecidableEq, Repr

structure Decl where
  id : DeclId
  name : String
  role : Role
  annotations : List String
  overrides : List DeclId
  deriving DecidableEq, Repr

namespace Decl

def isMarked (s : Decl) (label : String) : Bool := s.annotations.contains label

/-- The type of a field, parameter or variable, and the type that a method returns. -/
def ty? (s : Decl) : Option Ty :=
  match s.role with
  | .method _ returnType _ _ => some returnType
  | .field ty _ => some ty
  | .parameter ty _ => some ty
  | .localVar ty _ => some ty
  | .staticInitializer => none
  | .type => none

def params (s : Decl) : List DeclId :=
  match s.role with
  | .method params _ _ _ => params
  | _ => []

def isStaticField (s : Decl) : Bool :=
  match s.role with
  | .field _ isStatic => isStatic
  | _ => false

def isConstant (s : Decl) : Bool :=
  match s.role with
  | .localVar _ isConstant => isConstant
  | _ => false

/-- A method or constructor that is called on an object. -/
def takesReceiver (s : Decl) : Bool :=
  match s.role with
  | .method _ _ isStatic _ => !isStatic
  | _ => false

/-- A method that a subclass may override: neither static nor a constructor. -/
def isVirtual (s : Decl) : Bool :=
  match s.role with
  | .method _ _ isStatic isConstructor => !isStatic && !isConstructor
  | _ => false

end Decl

namespace Role

def instanceMethod (returnType : Ty) : Role := .method [] returnType false false

def classMethod (returnType : Ty) : Role := .method [] returnType true false

def constructorOf (owner : DeclId) : Role := .method [] (.declared owner) false true

def withParam (param : DeclId) : Role → Role
  | .method params returnType isStatic isConstructor =>
      .method (params ++ [param]) returnType isStatic isConstructor
  | role => role

end Role

structure Program where
  decls : Array Decl
  deriving DecidableEq, Repr

namespace Program

def empty : Program := ⟨#[]⟩

instance : EmptyCollection Program := ⟨empty⟩

instance : Inhabited Program := ⟨empty⟩

def size (p : Program) : Nat := p.decls.size

/-- The declaration at a position, whatever identifier it states itself. -/
def decl? (p : Program) (id : DeclId) : Option Decl := p.decls[id.index.toNat]?

def overridesOf (p : Program) (id : DeclId) : List DeclId :=
  match p.decl? id with
  | some s => s.overrides
  | none => []

def paramsOf (p : Program) (id : DeclId) : List DeclId :=
  match p.decl? id with
  | some s => s.params
  | none => []

def isStaticField (p : Program) (id : DeclId) : Bool :=
  match p.decl? id with
  | some s => s.isStaticField
  | none => false

def isConstant (p : Program) (id : DeclId) : Bool :=
  match p.decl? id with
  | some s => s.isConstant
  | none => false

def takesReceiver (p : Program) (id : DeclId) : Bool :=
  match p.decl? id with
  | some s => s.takesReceiver
  | none => false

def nextId (p : Program) : DeclId := ⟨p.decls.size.toUInt32⟩

def declare (p : Program) (name : String) (role : Role) : Program :=
  ⟨p.decls.push ⟨p.nextId, name, role, [], []⟩⟩

def update (p : Program) (id : DeclId) (f : Decl → Decl) : Program :=
  ⟨p.decls.modify id.index.toNat f⟩

def declareConstructor (p : Program) (owner : DeclId) : Program :=
  p.declare "<init>" (.constructorOf owner)

def declareStaticInitializer (p : Program) : Program :=
  p.declare "<clinit>" .staticInitializer

/-- Adds a parameter and lists it as the last one of its method. -/
def declareParameter (p : Program) (owner : DeclId) (name : String) (ty : Ty) : Program :=
  (p.declare name (.parameter ty owner)).update owner fun s =>
    { s with role := s.role.withParam p.nextId }

def mark (p : Program) (id : DeclId) (label : String) : Program :=
  p.update id fun s => { s with annotations := s.annotations ++ [label] }

def recordOverride (p : Program) (id overridden : DeclId) : Program :=
  p.update id fun s => { s with overrides := s.overrides ++ [overridden] }

end Program

end Disclosure
