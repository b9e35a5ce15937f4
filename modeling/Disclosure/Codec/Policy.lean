import Disclosure.Json.Printer
import Disclosure.Json.Reader
import Disclosure.Policy

/-!
# Written policies

How policies are written as JSON and how they are read.  A field that is missing has its standard
value.
-/

namespace Disclosure

namespace Marks

def toJson (m : Marks) : Json :=
  .record [(Mark.safe.text, .text m.safe), (Mark.guarded.text, .text m.guarded),
    (Mark.forbidden.text, .text m.forbidden)]

def ofJson? : Nat → Json → Option Marks
  | _ + 1, j =>
      match j.partialFields? [Mark.safe.text, Mark.guarded.text, Mark.forbidden.text] with
      | some [safe, guarded, forbidden] => do
          let safe ← Json.withDefault standard.safe Json.text? safe
          let guarded ← Json.withDefault standard.guarded Json.text? guarded
          let forbidden ← Json.withDefault standard.forbidden Json.text? forbidden
          return ⟨safe, guarded, forbidden⟩
      | _ => none
  | _, _ => none

end Marks

namespace Policy

def toJson (p : Policy) : Json :=
  .record [("annotations", p.marks.toJson), ("max_iterations", .nat p.maxVisits.toNat)]

/-- Reads a policy, which need not be valid. -/
def ofJson? : Nat → Json → Option Policy
  | depth + 1, j =>
      match j.partialFields? ["annotations", "max_iterations"] with
      | some [marks, maxVisits] => do
          let marks ← Json.withDefault standard.marks (Marks.ofJson? depth) marks
          let maxVisits ← Json.withDefault standard.maxVisits Json.uint64? maxVisits
          return ⟨marks, maxVisits⟩
      | _ => none
  | _, _ => none

def parse (s : String) : Except PolicyError Policy :=
  match Json.decode ofJson? s with
  | none => .error .malformed
  | some p => p.validate.map fun _ => p

/-- The valid policy that the content of a file gives; `none` stands for a file that is not
there. -/
def load : Option ByteArray → Except PolicyError Policy
  | none => .error .unreadable
  | some content =>
      match String.fromUTF8? content with
      | none => .error .unreadable
      | some s => parse s

end Policy

end Disclosure
