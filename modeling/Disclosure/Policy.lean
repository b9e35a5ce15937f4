import Disclosure.Program.Decl
import Disclosure.Sensitivity
import Disclosure.Text.Blank

/-!
# Policies

A policy names the annotations that declare a class and bounds the work of the analysis.  A policy
is valid if no annotation name is blank and the bound is positive.
-/

namespace Disclosure

inductive Mark where
  | safe
  | guarded
  | forbidden
  deriving DecidableEq, Repr

namespace Mark

def text : Mark → String
  | safe => "safe"
  | guarded => "unsafe"
  | forbidden => "do_not_log"

end Mark

/-- The fully qualified names of the annotations. -/
structure Marks where
  safe : String
  guarded : String
  forbidden : String
  deriving DecidableEq, Repr

namespace Marks

def standard : Marks :=
  ⟨"com.palantir.logsafe.Safe", "com.palantir.logsafe.Unsafe", "com.palantir.logsafe.DoNotLog"⟩

instance : Inhabited Marks := ⟨standard⟩

def name (m : Marks) : Mark → String
  | .safe => m.safe
  | .guarded => m.guarded
  | .forbidden => m.forbidden

/-- The class that the annotations of a declaration declare: the strictest one if there are
several. -/
def declaredOn (m : Marks) (s : Decl) : Option Sensitivity :=
  if s.isMarked m.forbidden then some .forbidden
  else if s.isMarked m.guarded then some .guarded
  else if s.isMarked m.safe then some .safe
  else none

end Marks

inductive PolicyError where
  /-- There is no file, or it is not text. -/
  | unreadable
  | malformed
  | blankName (mark : Mark)
  | zeroBound
  deriving DecidableEq, Repr

namespace PolicyError

/-- The wording of the faults of a policy that can be read. -/
def message? : PolicyError → Option String
  | unreadable => none
  | malformed => none
  | blankName mark => some ("annotation name for " ++ mark.text ++ " must not be empty")
  | zeroBound => some "max_iterations must be greater than zero"

def context (file : String) : String := "loading analysis config from " ++ file

end PolicyError

structure Policy where
  marks : Marks
  maxVisits : UInt64
  deriving DecidableEq, Repr

namespace Policy

def standard : Policy := ⟨.standard, 10000⟩

instance : Inhabited Policy := ⟨standard⟩

/-- Accepts the policy, or gives the first of its faults: the names are checked before the
bound. -/
def validate (p : Policy) : Except PolicyError Unit :=
  if Text.isBlank p.marks.safe then .error (.blankName .safe)
  else if Text.isBlank p.marks.guarded then .error (.blankName .guarded)
  else if Text.isBlank p.marks.forbidden then .error (.blankName .forbidden)
  else if p.maxVisits = 0 then .error .zeroBound
  else .ok ()

end Policy

end Disclosure
