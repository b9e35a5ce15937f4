/-!
# Sensitivity classes

Every value of a procedure is classified by how freely it may be written to a log.  The four
classes form a chain.  `join` is the least upper bound in it, and is what a value built from two
values gets; `pool` is what one value gets from two independent pieces of evidence, where
`unknown` is no evidence at all.
-/

namespace Disclosure

/-- How freely a value may be logged, from the most to the least freely. -/
inductive Sensitivity where
  /-- May always be logged. -/
  | safe
  /-- Nothing is known of the value. -/
  | unknown
  /-- May be logged only in places that are marked for such values. -/
  | guarded
  /-- May never be logged. -/
  | forbidden
  deriving DecidableEq, Repr

namespace Sensitivity

instance : Inhabited Sensitivity := ⟨unknown⟩

def all : List Sensitivity := [safe, unknown, guarded, forbidden]

def rank : Sensitivity → Nat
  | safe => 0
  | unknown => 1
  | guarded => 2
  | forbidden => 3

def text : Sensitivity → String
  | safe => "SAFE"
  | unknown => "UNKNOWN"
  | guarded => "UNSAFE"
  | forbidden => "DO_NOT_LOG"

instance : LE Sensitivity := ⟨fun a b => a.rank ≤ b.rank⟩

instance (a b : Sensitivity) : Decidable (a ≤ b) :=
  inferInstanceAs (Decidable (a.rank ≤ b.rank))

def join (a b : Sensitivity) : Sensitivity :=
  if b.rank ≤ a.rank then a else b

/-- The class of one value on two independent pieces of evidence: `unknown` says nothing, and of
two classes that say something the stricter one holds. -/
def pool : Sensitivity → Sensitivity → Sensitivity
  | unknown, b => b
  | a, unknown => a
  | a, b => a.join b

/-- Whether a place declared with the first class may receive a value of the second.  A place
without a declaration, and one that never reaches a log, take every value. -/
def admits : Sensitivity → Sensitivity → Bool
  | unknown, _ => true
  | forbidden, _ => true
  | guarded, actual => actual != forbidden
  | safe, actual => actual == safe || actual == unknown

theorem le_iff_rank_le {a b : Sensitivity} : a ≤ b ↔ a.rank ≤ b.rank := Iff.rfl

theorem rank_injective {a b : Sensitivity} (h : a.rank = b.rank) : a = b := by
  cases a <;> cases b <;> simp_all [rank]

@[simp] theorem rank_join (a b : Sensitivity) : (a.join b).rank = max a.rank b.rank := by
  cases a <;> cases b <;> rfl

@[simp] theorem join_self (a : Sensitivity) : a.join a = a := by cases a <;> rfl

theorem join_comm (a b : Sensitivity) : a.join b = b.join a := by
  cases a <;> cases b <;> rfl

@[simp] theorem unknown_pool (b : Sensitivity) : unknown.pool b = b := rfl

@[simp] theorem pool_unknown (a : Sensitivity) : a.pool unknown = a := by cases a <;> rfl

end Sensitivity

end Disclosure
