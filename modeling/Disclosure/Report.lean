import Disclosure.Violation

/-!
# Reports

A report lists the violations in a procedure, counts them by kind, and says how the analysis
ended.
-/

namespace Disclosure

structure Tally where
  arguments : Nat
  results : Nat
  assignments : Nat
  deriving DecidableEq, Repr

namespace Tally

def zero : Tally := ⟨0, 0, 0⟩

instance : Inhabited Tally := ⟨zero⟩

def add (t : Tally) : FlowKind → Tally
  | .argument => { t with arguments := t.arguments + 1 }
  | .result => { t with results := t.results + 1 }
  | .assignment => { t with assignments := t.assignments + 1 }

def total (t : Tally) : Nat := t.arguments + t.results + t.assignments

def ofViolations (vs : List Violation) : Tally := vs.foldl (fun t v => t.add v.kind) zero

end Tally

structure Report where
  method : Option DeclId
  violations : List Violation
  tally : Tally
  visits : Nat
  converged : Bool
  deriving DecidableEq, Repr

namespace Report

def ofOutcome (method : Option DeclId) (o : Outcome) (vs : List Violation) : Report :=
  ⟨method, vs, .ofViolations vs, o.visits, o.converged⟩

/-- Whether the analysis was completed and there is no violation. -/
def isClean (r : Report) : Bool := r.violations.isEmpty && r.converged

end Report

namespace Policy

def checkGraph (pol : Policy) (p : Program) (g : Graph) : Report :=
  let o := pol.analyze p g
  .ofOutcome g.method o ((pol.scope p).violations g o)

def check (pol : Policy) (p : Program) (proc : Procedure) : Report :=
  pol.checkGraph p (proc.lower p)

end Policy

end Disclosure
