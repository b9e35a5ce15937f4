import Disclosure.Json.Reader
import Disclosure.Location
import Disclosure.Program.Decl
import Disclosure.Sensitivity

/-!
# Written declarations

How classes, types, locations, declarations and programs are written as JSON, and how they are
read.
-/

namespace Disclosure

namespace Sensitivity

def toJson (s : Sensitivity) : Json := .text s.text

def ofName? : String → Option Sensitivity
  | "SAFE" => some safe
  | "UNKNOWN" => some unknown
  | "UNSAFE" => some guarded
  | "DO_NOT_LOG" => some forbidden
  | _ => none

def ofJson? (depth : Nat) (j : Json) : Option Sensitivity := (j.name? depth).bind ofName?

end Sensitivity

namespace DeclId

def toJson (id : DeclId) : Json := .nat id.index.toNat

def ofJson? (j : Json) : Option DeclId := j.uint32?.map mk

def listOfJson? (depth : Nat) (j : Json) : Option (List DeclId) :=
  Json.list? (fun _ => ofJson?) depth j

end DeclId

namespace Primitive

def text : Primitive → String
  | boolean => "Boolean"
  | byte => "Byte"
  | char => "Char"
  | short => "Short"
  | int => "Int"
  | long => "Long"
  | float => "Float"
  | double => "Double"

def toJson (p : Primitive) : Json := .text p.text

def ofName? : String → Option Primitive
  | "Boolean" => some boolean
  | "Byte" => some byte
  | "Char" => some char
  | "Short" => some short
  | "Int" => some int
  | "Long" => some long
  | "Float" => some float
  | "Double" => some double
  | _ => none

def ofJson? (depth : Nat) (j : Json) : Option Primitive := (j.name? depth).bind ofName?

end Primitive

namespace Ty

def toJson : Ty → Json
  | primitive kind => .variant "Primitive" kind.toJson
  | declared id => .variant "Declared" id.toJson
  | array element => .variant "Array" element.toJson
  | null => .text "Null"
  | void => .text "Void"

/-- The type that is written by its name only. -/
def ofName? : String → Option Ty
  | "Null" => some null
  | "Void" => some void
  | _ => none

def ofJson? : Nat → Json → Option Ty
  | depth + 1, .obj [(some "Primitive", j)] => (Primitive.ofJson? depth j).map primitive
  | _ + 1, .obj [(some "Declared", j)] => (DeclId.ofJson? j).map declared
  | depth + 1, .obj [(some "Array", j)] => (ofJson? depth j).map array
  | depth, j => (j.name? depth).bind ofName?

end Ty

namespace Root

def toJson : Root → Json
  | var id => .variant "Local" id.toJson
  | self => .text "This"
  | static field => .variant "Static" field.toJson

def ofJson? : Nat → Json → Option Root
  | _ + 1, .obj [(some "Local", j)] => (DeclId.ofJson? j).map var
  | _ + 1, .obj [(some "Static", j)] => (DeclId.ofJson? j).map static
  | depth, j => if j.name? depth = some "This" then some self else none

end Root

namespace Location

def toJson (l : Location) : Json :=
  .record [("root", l.root.toJson), ("fields", .list DeclId.toJson l.fields)]

def ofJson? : Nat → Json → Option Location
  | depth + 1, j =>
      match j.fields? ["root", "fields"] with
      | some [root, fields] => do
          let root ← root.bind (Root.ofJson? depth)
          let fields ← fields.bind (DeclId.listOfJson? depth)
          return ⟨root, fields⟩
      | _ => none
  | _, _ => none

end Location

namespace Role

def toJson : Role → Json
  | method params returnType isStatic isConstructor =>
      .variant "Method" (.record [("params", .list DeclId.toJson params),
        ("return_type", returnType.toJson), ("is_static", .bool isStatic),
        ("is_constructor", .bool isConstructor)])
  | staticInitializer => .text "StaticInitializer"
  | field ty isStatic =>
      .variant "Field" (.record [("ty", ty.toJson), ("is_static", .bool isStatic)])
  | parameter ty owner =>
      .variant "Parameter" (.record [("ty", ty.toJson), ("owner", owner.toJson)])
  | localVar ty isConstant =>
      .variant "LocalVariable" (.record [("ty", ty.toJson), ("is_constant", .bool isConstant)])
  | type => .text "Type"

/-- The role that is written by its name only. -/
def ofName? : String → Option Role
  | "StaticInitializer" => some staticInitializer
  | "Type" => some type
  | _ => none

def methodOfJson? (depth : Nat) (j : Json) : Option Role :=
  match j.fields? ["params", "return_type", "is_static", "is_constructor"] with
  | some [params, returnType, isStatic, isConstructor] => do
      let params ← params.bind (DeclId.listOfJson? depth)
      let returnType ← returnType.bind (Ty.ofJson? depth)
      let isStatic ← isStatic.bind Json.bool?
      let isConstructor ← isConstructor.bind Json.bool?
      return method params returnType isStatic isConstructor
  | _ => none

def fieldOfJson? (depth : Nat) (j : Json) : Option Role :=
  match j.fields? ["ty", "is_static"] with
  | some [ty, isStatic] => do
      let ty ← ty.bind (Ty.ofJson? depth)
      let isStatic ← isStatic.bind Json.bool?
      return field ty isStatic
  | _ => none

def parameterOfJson? (depth : Nat) (j : Json) : Option Role :=
  match j.fields? ["ty", "owner"] with
  | some [ty, owner] => do
      let ty ← ty.bind (Ty.ofJson? depth)
      let owner ← owner.bind DeclId.ofJson?
      return parameter ty owner
  | _ => none

def localVarOfJson? (depth : Nat) (j : Json) : Option Role :=
  match j.fields? ["ty", "is_constant"] with
  | some [ty, isConstant] => do
      let ty ← ty.bind (Ty.ofJson? depth)
      let isConstant ← isConstant.bind Json.bool?
      return localVar ty isConstant
  | _ => none

def ofJson? : Nat → Json → Option Role
  | depth + 2, .obj [(some "Method", j)] => methodOfJson? depth j
  | depth + 2, .obj [(some "Field", j)] => fieldOfJson? depth j
  | depth + 2, .obj [(some "Parameter", j)] => parameterOfJson? depth j
  | depth + 2, .obj [(some "LocalVariable", j)] => localVarOfJson? depth j
  | depth, j => (j.name? depth).bind ofName?

end Role

namespace Decl

def toJson (s : Decl) : Json :=
  .record [("id", s.id.toJson), ("name", .text s.name), ("kind", s.role.toJson),
    ("annotations", .list Json.text s.annotations),
    ("overrides", .list DeclId.toJson s.overrides)]

def ofJson? : Nat → Json → Option Decl
  | depth + 1, j =>
      match j.fields? ["id", "name", "kind", "annotations", "overrides"] with
      | some [id, name, kind, annotations, overrides] => do
          let id ← id.bind DeclId.ofJson?
          let name ← name.bind Json.text?
          let role ← kind.bind (Role.ofJson? depth)
          let annotations ← annotations.bind (Json.list? (fun _ => Json.text?) depth)
          let overrides ← overrides.bind (DeclId.listOfJson? depth)
          return ⟨id, name, role, annotations, overrides⟩
      | _ => none
  | _, _ => none

end Decl

namespace Program

def toJson (p : Program) : Json := .record [("symbols", .list Decl.toJson p.decls.toList)]

def ofJson? : Nat → Json → Option Program
  | depth + 1, j =>
      match j.fields? ["symbols"] with
      | some [decls] => do
          let decls ← decls.bind (Json.list? Decl.ofJson? depth)
          return ⟨decls.toArray⟩
      | _ => none
  | _, _ => none

end Program

end Disclosure
