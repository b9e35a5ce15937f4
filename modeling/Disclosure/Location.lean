import Disclosure.Program.Ty

/-!
# Locations

A location is a place that a procedure can read and write: a variable, the current object or a
static field, followed by a chain of fields.
-/

namespace Disclosure

inductive Root where
  | var (id : DeclId)
  | self
  | static (field : DeclId)
  deriving DecidableEq, Repr

namespace Root

def text : Root → String
  | var id => "local" ++ id.text
  | self => "this"
  | static field => "static" ++ field.text

end Root

/-- A root and the fields that lead from it to the location. -/
structure Location where
  root : Root
  fields : List DeclId
  deriving DecidableEq, Repr

namespace Location

def var (id : DeclId) : Location := ⟨.var id, []⟩

def self : Location := ⟨.self, []⟩

def static (field : DeclId) : Location := ⟨.static field, []⟩

def extend (l : Location) (field : DeclId) : Location := ⟨l.root, l.fields ++ [field]⟩

/-- The written form: the root, then a point before each field. -/
def text (l : Location) : String :=
  l.fields.foldl (fun shown field => shown ++ "." ++ field.text) l.root.text

end Location

end Disclosure
