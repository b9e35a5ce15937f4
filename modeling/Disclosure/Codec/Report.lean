import Disclosure.Codec.Policy
import Disclosure.Codec.Program
import Disclosure.Report

/-!
# Written reports

How violations and reports are written as JSON and how they are read.
-/

namespace Disclosure

namespace FlowKind

def toJson (k : FlowKind) : Json := .text k.text

def ofName? : String → Option FlowKind
  | "argument" => some argument
  | "return" => some result
  | "assignment" => some assignment
  | _ => none

def ofJson? (depth : Nat) (j : Json) : Option FlowKind := (j.name? depth).bind ofName?

end FlowKind

namespace Violation

def toJson (v : Violation) : Json :=
  .record [("kind", v.kind.toJson), ("node", .nat v.node), ("target", v.target.toJson),
    ("target_name", .text v.targetName), ("declared", v.declared.toJson),
    ("actual", v.actual.toJson)]

def ofJson? : Nat → Json → Option Violation
  | depth + 1, j =>
      match j.fields? ["kind", "node", "target", "target_name", "declared", "actual"] with
      | some [kind, node, target, targetName, declared, actual] => do
          let kind ← kind.bind (FlowKind.ofJson? depth)
          let node ← node.bind Json.count?
          let target ← target.bind DeclId.ofJson?
          let targetName ← targetName.bind Json.text?
          let declared ← declared.bind (Sensitivity.ofJson? depth)
          let actual ← actual.bind (Sensitivity.ofJson? depth)
          return ⟨kind, node, target, targetName, declared, actual⟩
      | _ => none
  | _, _ => none

end Violation

namespace Tally

def toJson (t : Tally) : Json :=
  .record [("arguments", .nat t.arguments), ("returns", .nat t.results),
    ("assignments", .nat t.assignments)]

def ofJson? : Nat → Json → Option Tally
  | _ + 1, j =>
      match j.fields? ["arguments", "returns", "assignments"] with
      | some [arguments, results, assignments] => do
          let arguments ← arguments.bind Json.count?
          let results ← results.bind Json.count?
          let assignments ← assignments.bind Json.count?
          return ⟨arguments, results, assignments⟩
      | _ => none
  | _, _ => none

end Tally

namespace Report

def toJson (r : Report) : Json :=
  .record [("method", .option DeclId.toJson r.method),
    ("violations", .list Violation.toJson r.violations), ("summary", r.tally.toJson),
    ("iterations", .nat r.visits), ("converged", .bool r.converged)]

def ofJson? : Nat → Json → Option Report
  | depth + 1, j =>
      match j.fields? ["method", "violations", "summary", "iterations", "converged"] with
      | some [method, violations, tally, visits, converged] => do
          let method ← Json.optional DeclId.ofJson? method
          let violations ← violations.bind (Json.list? Violation.ofJson? depth)
          let tally ← tally.bind (Tally.ofJson? depth)
          let visits ← visits.bind Json.count?
          let converged ← converged.bind Json.bool?
          return ⟨method, violations, tally, visits, converged⟩
      | _ => none
  | _, _ => none

def text (r : Report) : String := r.toJson.renderPretty

def parse (s : String) : Option Report := Json.decode ofJson? s

end Report

namespace Policy

/-- The reports on procedures under the policy in a file. -/
def checkAll (file : Option ByteArray) (p : Program) (procs : List Procedure) :
    Except PolicyError (List Report) :=
  (load file).map fun pol => procs.map (pol.check p)

end Policy

end Disclosure
