import Disclosure.Memory.Batch
import Disclosure.Proofs.Table
import Mathlib.Data.List.Forall2
import Mathlib.Order.Basic

/-!
# Laws of classes and memories

The classes are a chain, and `Sensitivity.join` and `Sensitivity.pool` are monotone in it.  A
memory is below another if it reads at most as strictly at every location; a join of memories is
above each of them.  Joins do not tell memories apart that are equal as maps.

A batch that is closed gives the memory in which its writes were made one after the other, also
where it takes the base itself.
-/

namespace Disclosure

namespace Sensitivity

instance : PartialOrder Sensitivity where
  le_refl a := Nat.le_refl a.rank
  le_trans _ _ _ hab hbc := Nat.le_trans hab hbc
  le_antisymm _ _ hab hba := rank_injective (Nat.le_antisymm hab hba)

theorem le_join_left (a b : Sensitivity) : a ≤ a.join b := by
  rw [le_iff_rank_le, rank_join]
  exact Nat.le_max_left _ _

theorem le_join_right (a b : Sensitivity) : b ≤ a.join b := by
  rw [le_iff_rank_le, rank_join]
  exact Nat.le_max_right _ _

theorem le_join_iff {a b c : Sensitivity} : a ≤ b.join c ↔ a ≤ b ∨ a ≤ c := by
  simp only [le_iff_rank_le, rank_join]
  omega

theorem join_eq_or (a b : Sensitivity) : a.join b = a ∨ a.join b = b := by
  unfold join
  split
  · exact Or.inl rfl
  · exact Or.inr rfl

theorem join_le_join {a a' b b' : Sensitivity} (ha : a ≤ a') (hb : b ≤ b') :
    a.join b ≤ a'.join b' := by
  rw [le_iff_rank_le] at *
  rw [rank_join, rank_join]
  omega

/-- More evidence of the one kind never lowers the class, although `unknown`, which says nothing,
stands above `safe`. -/
theorem pool_le_pool {a a' : Sensitivity} (c : Sensitivity) (ha : a ≤ a') :
    a.pool c ≤ a'.pool c := by
  revert ha
  cases a <;> cases a' <;> cases c <;> decide

section Fold

variable {ι : Type} {classOf : ι → Sensitivity} {is : List ι} {start : Sensitivity}

theorem le_foldl_join : start ≤ is.foldl (fun sofar i => sofar.join (classOf i)) start := by
  induction is generalizing start with
  | nil => exact le_refl start
  | cons first rest ih => exact (le_join_left _ _).trans ih

theorem le_foldl_join_of_mem {i : ι} (hi : i ∈ is) :
    classOf i ≤ is.foldl (fun sofar i => sofar.join (classOf i)) start := by
  induction is generalizing start with
  | nil => cases hi
  | cons first rest ih =>
      cases hi with
      | head => exact (le_join_right _ _).trans le_foldl_join
      | tail _ hrest => exact ih hrest

theorem foldl_join_induction {P : Sensitivity → Prop} (hstart : P start)
    (hclass : ∀ i ∈ is, P (classOf i)) :
    P (is.foldl (fun sofar i => sofar.join (classOf i)) start) := by
  induction is generalizing start with
  | nil => exact hstart
  | cons first rest ih =>
      have hfirst : P (start.join (classOf first)) := by
        cases start.join_eq_or (classOf first) with
        | inl h => rwa [h]
        | inr h => rw [h]; exact hclass first List.mem_cons_self
      exact ih hfirst fun i hi => hclass i (List.mem_cons_of_mem _ hi)

end Fold

end Sensitivity

namespace Memory

theorem read_eq_of_beq {m m' : Memory} (h : (m == m') = true) (l : Location) :
    m.read l = m'.read l := by
  rw [read, read, Table.beq_iff_get?_eq.1 h l]

theorem get?_join (a b : Memory) (l : Location) :
    (a.join b).get? l =
      ((a.get? l).map fun s => s.join (b.read l)).or
        (if a.contains l then none else (b.get? l).map fun s => s.join .unknown) := by
  show Table.lookup l (a.raised b ++ b.added a) = _
  rw [Table.lookup_append]
  congr 1
  · exact Table.lookup_map_snd l (fun l' s => s.join (b.read l')) a.entries
  · have hmap := Table.lookup_map_snd l (fun _ (s : Sensitivity) => s.join .unknown)
      (b.entries.filter fun e => !a.contains e.1)
    rw [added, hmap, Table.lookup_filter_fst l fun l' => !a.contains l']
    cases a.contains l <;> rfl

theorem read_join (a b : Memory) (l : Location) :
    (a.join b).read l = (a.read l).join (b.read l) := by
  rw [read, get?_join, Table.contains, read, read]
  cases a.get? l with
  | some s => rfl
  | none =>
      cases b.get? l with
      | none => rfl
      | some s => simp [Sensitivity.join_comm]

theorem join_beq_join {a a' b b' : Memory} (ha : (a == a') = true) (hb : (b == b') = true) :
    (a.join b == a'.join b') = true := by
  rw [Table.beq_iff_get?_eq] at *
  intro l
  have hlisted : a.contains l = a'.contains l := by rw [Table.contains, Table.contains, ha l]
  have hread : b.read l = b'.read l := by rw [read, read, hb l]
  rw [get?_join, get?_join, hlisted, hread, ha l, hb l]

/-- The first memory reads at most as strictly as the second at every location. -/
def Below (a b : Memory) : Prop := ∀ l, a.read l ≤ b.read l

namespace Below

theorem refl (m : Memory) : m.Below m := fun l => le_refl (m.read l)

theorem trans {a b c : Memory} (hab : a.Below b) (hbc : b.Below c) : a.Below c :=
  fun l => le_trans (hab l) (hbc l)

theorem insert {m m' : Memory} {s s' : Sensitivity} (hm : m.Below m') (l : Location)
    (hs : s ≤ s') : Below (m.insert l s) (m'.insert l s') := by
  intro l'
  rw [read_insert, read_insert]
  split
  · exact hs
  · exact hm l'

theorem join_left (a b : Memory) : a.Below (a.join b) := by
  intro l
  rw [read_join]
  exact Sensitivity.le_join_left _ _

theorem join_right (a b : Memory) : b.Below (a.join b) := by
  intro l
  rw [read_join]
  exact Sensitivity.le_join_right _ _

theorem foldl_join_start (start : Memory) (ms : List Memory) :
    start.Below (ms.foldl Memory.join start) := by
  induction ms generalizing start with
  | nil => exact refl start
  | cons first rest ih => exact (join_left start first).trans (ih (start.join first))

theorem foldl_join_mem {m : Memory} {ms : List Memory} (hm : m ∈ ms) (start : Memory) :
    m.Below (ms.foldl Memory.join start) := by
  induction ms generalizing start with
  | nil => simp at hm
  | cons first rest ih =>
      rcases List.mem_cons.1 hm with rfl | hrest
      · exact (join_right start m).trans (foldl_join_start (start.join m) rest)
      · exact ih hrest (start.join first)

theorem joinAll {m : Memory} {ms : List Memory} (hm : m ∈ ms) :
    m.Below ((Memory.joinAll ms).getD ∅) := by
  cases ms with
  | nil => simp at hm
  | cons first rest =>
      rw [joinAll_cons, Option.getD_some]
      rcases List.mem_cons.1 hm with rfl | hrest
      · exact foldl_join_start m rest
      · exact foldl_join_mem hrest first

end Below

theorem foldl_join_beq {ms ms' : List Memory}
    (h : List.Forall₂ (fun m m' : Memory => (m == m') = true) ms ms') :
    ∀ {start start' : Memory}, (start == start') = true →
      (ms.foldl join start == ms'.foldl join start') = true := by
  induction h with
  | nil => exact fun hstart => hstart
  | cons hfirst _ ih => exact fun hstart => ih (join_beq_join hstart hfirst)

theorem joinAll_beq {ms ms' : List Memory}
    (h : List.Forall₂ (fun m m' : Memory => (m == m') = true) ms ms') :
    ((joinAll ms).getD ∅ == (joinAll ms').getD ∅) = true := by
  cases h with
  | nil => rfl
  | cons hfirst hrest => exact foldl_join_beq hrest hfirst

/-! ## Batches -/

@[simp] theorem close_openBatch (m : Memory) : m.openBatch.close = m := rfl

namespace Batch

/-- The shortcut for writes that change nothing gives what the writes give. -/
theorem close_eq_insertAll (b : Batch) : b.close = b.base.insertAll b.updates.entries := by
  rw [close]
  cases h : b.changesBase with
  | true => rfl
  | false =>
      simp only [changesBase, List.any_eq_false, bne_iff_ne, ne_eq, not_not] at h
      -- every write repeats what the base lists
      exact (Table.insertAll_of_forall_get? h).symm

theorem close_write (b : Batch) (l : Location) (s : Sensitivity) :
    (b.write l s).close = b.close.insert l s := by
  rw [close_eq_insertAll, close_eq_insertAll]
  exact Table.insertAll_upsert b.base l s b.updates.nodup_keys

end Batch

end Memory

end Disclosure
