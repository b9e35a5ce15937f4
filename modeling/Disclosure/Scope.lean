import Disclosure.Policy
import Disclosure.Program.Expr

/-!
# Declared classes

A declaration has the class that its own annotations declare.  A declaration without such an
annotation takes over the classes of what it overrides: a method those of the methods that it
overrides, a parameter those of the parameters at its place in the methods that its method
overrides.  What is taken over is never below `unknown`.

Overrides may form cycles.  A declaration that is met again on the way from itself adds nothing.
-/

namespace Disclosure

namespace Program

/-- The parameters that a parameter of `owner` takes over: those at its place in the methods that
`owner` overrides. -/
def overriddenParams (p : Program) (param owner : DeclId) : List DeclId :=
  match p.decl? owner with
  | some s =>
      if s.isVirtual then
        match (p.paramsOf owner).findIdx? (fun q => decide (q = param)) with
        | some place => (p.overridesOf owner).filterMap fun o => (p.paramsOf o)[place]?
        | none => []
      else []
  | none => []

/-- The declarations whose classes a declaration takes over if it has no annotation itself. -/
def sources (p : Program) (id : DeclId) : List DeclId :=
  match p.decl? id with
  | some s =>
      match s.role with
      | .method _ _ _ _ => if s.isVirtual then s.overrides else []
      | .parameter _ owner => p.overriddenParams id owner
      | _ => []
  | none => []

end Program

structure Scope where
  program : Program
  marks : Marks

namespace Scope

/-- The class of a declaration, where `path` lists the declarations that are being classified, the
nearest first, and `depth` bounds how many more may be. -/
def classifyWithin (sc : Scope) : Nat → List DeclId → DeclId → Sensitivity
  | 0, _, _ => .unknown
  | depth + 1, path, id =>
      match sc.program.decl? id with
      | none => .unknown
      | some s =>
          match sc.marks.declaredOn s with
          | some declared => declared
          | none =>
              if id ∈ path then .unknown
              else (sc.program.sources id).foldl
                (fun sofar source => sofar.join (sc.classifyWithin depth (id :: path) source))
                .unknown

/-- The class of a declaration: declared on it, or else taken over.  A path without repetition is
never longer than the program. -/
def classify (sc : Scope) (id : DeclId) : Sensitivity :=
  sc.classifyWithin (sc.program.size + 1) [] id

def classifyTy (sc : Scope) (ty : Ty) : Sensitivity :=
  match ty.declaration? with
  | some id => sc.classify id
  | none => .unknown

def classifyTyOf (sc : Scope) (id : DeclId) : Sensitivity :=
  match (sc.program.decl? id).bind Decl.ty? with
  | some ty => sc.classifyTy ty
  | none => .unknown

/-- The class of what a declaration holds, from its type and from the declaration itself. -/
def classifyContent (sc : Scope) (id : DeclId) : Sensitivity :=
  (sc.classifyTyOf id).pool (sc.classify id)

/-- The class of an expression, from its type and from the declaration that it refers to. -/
def classifyExpr (sc : Scope) (e : Expr) : Sensitivity :=
  match e.referent? with
  | some id => (sc.classifyTy e.bare.ty).pool (sc.classify id)
  | none => sc.classifyTy e.bare.ty

end Scope

end Disclosure
