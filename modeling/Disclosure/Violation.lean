import Disclosure.Analysis

/-!
# Violations

A value flows into a declaration when it is passed to a parameter, returned from a method, or
assigned to a variable or field.  The flow is a violation if the declared class of the declaration
does not admit the class of the value.
-/

namespace Disclosure

/-- The ways in which a value flows into a declaration. -/
inductive FlowKind where
  | argument
  | result
  | assignment
  deriving DecidableEq, Repr

namespace FlowKind

def text : FlowKind → String
  | argument => "argument"
  | result => "return"
  | assignment => "assignment"

end FlowKind

/-- The flow of the value of a node into a declaration. -/
structure Flow where
  kind : FlowKind
  target : DeclId
  value : NodeId
  deriving DecidableEq, Repr

/-- A flow that the declared class does not admit. -/
structure Violation where
  kind : FlowKind
  node : Nat
  target : DeclId
  targetName : String
  declared : Sensitivity
  actual : Sensitivity
  deriving DecidableEq, Repr

namespace Violation

def message (v : Violation) : String :=
  v.kind.text ++ " to `" ++ v.targetName ++ "` declared " ++ v.declared.text ++ " receives a "
    ++ v.actual.text ++ " value"

end Violation

namespace Program

/-- The name of a declaration, or its number if there is none. -/
def nameOf (p : Program) (id : DeclId) : String :=
  match p.decl? id with
  | some s => s.name
  | none => id.text

/-- The flows of arguments into the parameters of a callee.  The last parameter takes all arguments
that are left. -/
def argumentFlows (p : Program) (callee : DeclId) (args : List NodeId) : List Flow :=
  match (p.paramsOf callee).getLast? with
  | none => []
  | some last => args.mapIdx fun i arg => ⟨.argument, (p.paramsOf callee).getD i last, arg⟩

end Program

namespace Graph

def assignee? (g : Graph) (target : NodeId) : Option DeclId :=
  match g.node? target with
  | none => none
  | some node =>
      match node.op with
      | .var id => some id
      | .field _ id _ => some id
      | _ => none

def flowsOf (p : Program) (g : Graph) (node : Node) : List Flow :=
  match node.op with
  | .invocation _ method args _ => p.argumentFlows method args
  | .creation ctor args _ => p.argumentFlows ctor args
  | .leave (some value) =>
      match g.method with
      | some method => [⟨.result, method, value⟩]
      | none => []
  | .assignment target value =>
      match g.assignee? target with
      | some id => [⟨.assignment, id, value⟩]
      | none => []
  | _ => []

end Graph

namespace Scope

def violation? (sc : Scope) (o : Outcome) (f : Flow) : Option Violation :=
  let declared := sc.classify f.target
  let actual := o.valueOf f.value
  if declared.admits actual then none
  else some ⟨f.kind, f.value, f.target, sc.program.nameOf f.target, declared, actual⟩

/-- The violations among the nodes that were reached, in the order of the nodes. -/
def violations (sc : Scope) (g : Graph) (o : Outcome) : List Violation :=
  (g.nodes.toList.filter fun node => o.isReached node.id).flatMap fun node =>
    (g.flowsOf sc.program node).filterMap (sc.violation? o)

end Scope

end Disclosure
