import Disclosure.Location
import Disclosure.Sensitivity
import Disclosure.Table

/-!
# Memories

A memory says what is known, at one point of a procedure, of the values at locations.  A location
that it does not list reads as `unknown`, but a listed `unknown` and an unlisted location are told
apart: memories are equal if they list the same locations with the same classes, in whatever
order.

`join` merges what is known on two ways to the same point.
-/

namespace Disclosure

/-- The classes known at a point of a procedure. -/
abbrev Memory := Table Location Sensitivity

namespace Memory

/-- The class at a location; `unknown` if the location is not listed. -/
def read (m : Memory) (l : Location) : Sensitivity := (m.get? l).getD .unknown

/-- The entries of `m` joined with what `other` reads at their locations. -/
def raised (m other : Memory) : List (Location × Sensitivity) :=
  m.entries.map fun e => (e.1, e.2.join (other.read e.1))

/-- The entries of `m` at locations that `other` does not list, joined with `unknown`. -/
def added (m other : Memory) : List (Location × Sensitivity) :=
  (m.entries.filter fun e => !other.contains e.1).map fun e => (e.1, e.2.join .unknown)

theorem map_fst_raised (m other : Memory) : (m.raised other).map Prod.fst = m.keys := by
  simp [raised, Table.keys, Function.comp_def]

theorem map_fst_added (m other : Memory) :
    (m.added other).map Prod.fst = m.keys.filter fun l => !other.contains l := by
  simp [added, Table.keys, Function.comp_def, List.filter_map]

theorem nodup_join (a b : Memory) : ((a.raised b ++ b.added a).map Prod.fst).Nodup := by
  rw [List.map_append, map_fst_raised, map_fst_added]
  refine List.nodup_append.2 ⟨a.nodup_keys, b.nodup_keys.filter _, ?_⟩
  intro l ha l' hb hl
  subst hl
  have h := (List.mem_filter.1 hb).2
  have hnone : a.get? l = none := by simpa [Table.contains] using h
  exact Table.get?_eq_none_iff.1 hnone ha

/-- What is known where two ways meet: each location has the join of what it reads on either way.
The locations of the first memory come first, then the others of the second. -/
def join (a b : Memory) : Memory := ⟨a.raised b ++ b.added a, nodup_join a b⟩

theorem keys_join (a b : Memory) :
    (a.join b).keys = a.keys ++ b.keys.filter fun l => !a.contains l := by
  show (a.raised b ++ b.added a).map Prod.fst = _
  rw [List.map_append, map_fst_raised, map_fst_added]

def joinAll : List Memory → Option Memory
  | [] => none
  | m :: rest => some (rest.foldl join m)

@[simp] theorem joinAll_nil : joinAll [] = none := rfl

@[simp] theorem joinAll_cons (m : Memory) (rest : List Memory) :
    joinAll (m :: rest) = some (rest.foldl join m) := rfl

theorem read_insert (m : Memory) (l l' : Location) (s : Sensitivity) :
    Memory.read (m.insert l s) l' = if l = l' then s else m.read l' := by
  unfold Memory.read
  rw [Table.get?_insert]
  split <;> rfl

end Memory

end Disclosure
