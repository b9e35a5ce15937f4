import Disclosure.Proofs.Memory
import Mathlib.Algebra.Order.BigOperators.Group.Finset

/-!
# How often a memory can rise

Memories are compared as maps, and a location that is not listed reads as `unknown`.  So a memory
can change without reading differently, when it lists one more location as `unknown`.  One memory
is within another if it reads at most as strictly everywhere and lists nothing more.

Over a finite set of locations there is a level, to which a location adds its rank and one more if
it is listed.  This is at least one, whether the location is unlisted or `safe`, and at most four.
The level rises whenever a memory becomes another that it is within.
-/

namespace Disclosure

namespace Memory

/-- The first memory reads at most as strictly as the second and lists nothing that the second does
not. -/
structure Within (a b : Memory) : Prop where
  below : a.Below b
  contains : ∀ {l}, a.contains l = true → b.contains l = true

theorem contains_join (a b : Memory) (l : Location) :
    (a.join b).contains l = (a.contains l || b.contains l) := by
  rw [Table.contains, get?_join, Table.contains, Table.contains]
  cases a.get? l <;> cases b.get? l <;> rfl

theorem exists_contains_of_foldl_join {l : Location} {ms : List Memory} {start : Memory}
    (h : (ms.foldl join start).contains l = true) :
    start.contains l = true ∨ ∃ m ∈ ms, m.contains l = true := by
  induction ms generalizing start with
  | nil => exact Or.inl h
  | cons first rest ih =>
      rcases ih h with hstart | ⟨m, hm, hl⟩
      · rw [contains_join, Bool.or_eq_true] at hstart
        exact hstart.imp_right fun hl => ⟨first, List.mem_cons_self, hl⟩
      · exact Or.inr ⟨m, List.mem_cons_of_mem _ hm, hl⟩

theorem exists_contains_of_joinAll {l : Location} {ms : List Memory}
    (h : ((joinAll ms).getD ∅).contains l = true) : ∃ m ∈ ms, m.contains l = true := by
  cases ms with
  | nil => cases h
  | cons first rest =>
      rcases exists_contains_of_foldl_join h with hfirst | ⟨m, hm, hl⟩
      · exact ⟨first, List.mem_cons_self, hfirst⟩
      · exact ⟨m, List.mem_cons_of_mem _ hm, hl⟩

namespace Within

variable {a b c : Memory}

theorem refl (m : Memory) : m.Within m := ⟨.refl m, id⟩

theorem trans (hab : a.Within b) (hbc : b.Within c) : a.Within c :=
  ⟨hab.below.trans hbc.below, fun hl => hbc.contains (hab.contains hl)⟩

theorem of_beq (h : (a == b) = true) : a.Within b where
  below l := le_of_eq (read_eq_of_beq h l)
  contains {l} hl := by
    rw [Table.contains, ← Table.beq_iff_get?_eq.1 h l]
    exact hl

theorem insert {s s' : Sensitivity} (h : a.Within b) (l : Location) (hs : s ≤ s') :
    Within (a.insert l s) (b.insert l s') where
  below := h.below.insert l hs
  contains {l'} hl := by
    rw [Table.contains_insert, Bool.or_eq_true] at hl ⊢
    exact hl.imp_right h.contains

theorem join_left (a b : Memory) : a.Within (a.join b) :=
  ⟨.join_left a b, fun hl => by rw [contains_join, hl, Bool.true_or]⟩

theorem join_right (a b : Memory) : b.Within (a.join b) :=
  ⟨.join_right a b, fun hl => by rw [contains_join, hl, Bool.or_true]⟩

theorem join_iff : (a.join b).Within c ↔ a.Within c ∧ b.Within c := by
  constructor
  · intro h
    exact ⟨(join_left a b).trans h, (join_right a b).trans h⟩
  · rintro ⟨ha, hb⟩
    refine ⟨fun l => ?_, fun hl => ?_⟩
    · rw [read_join, Sensitivity.le_iff_rank_le, Sensitivity.rank_join]
      exact Nat.max_le.2 ⟨ha.below l, hb.below l⟩
    · rw [contains_join, Bool.or_eq_true] at hl
      exact hl.elim ha.contains hb.contains

theorem foldl_join_iff {ms : List Memory} {start : Memory} :
    (ms.foldl Memory.join start).Within c ↔ ∀ m ∈ start :: ms, m.Within c := by
  induction ms generalizing start with
  | nil => simp
  | cons first rest ih =>
      rw [List.foldl_cons, ih]
      simp only [List.forall_mem_cons, join_iff, and_assoc]

theorem le_joinAll {m : Memory} {ms : List Memory} (hm : m ∈ ms) :
    m.Within ((joinAll ms).getD ∅) := by
  cases ms with
  | nil => exact absurd hm List.not_mem_nil
  | cons first rest => exact foldl_join_iff.1 (refl _) m hm

theorem joinAll_le {ms : List Memory} (hne : ms ≠ []) (h : ∀ m ∈ ms, m.Within c) :
    ((joinAll ms).getD ∅).Within c := by
  cases ms with
  | nil => exact absurd rfl hne
  | cons first rest => exact foldl_join_iff.2 h

end Within

/-- The level of a memory over some locations. -/
def level (paths : Finset Location) (m : Memory) : Nat :=
  ∑ l ∈ paths, ((m.contains l).toNat + (m.read l).rank)

theorem card_le_level (paths : Finset Location) (m : Memory) : paths.card ≤ m.level paths := by
  rw [Finset.card_eq_sum_ones, level]
  refine Finset.sum_le_sum fun l _ => ?_
  rw [Table.contains, read]
  cases m.get? l with
  | none => exact Nat.le_refl _
  | some s => exact Nat.le_add_right 1 _

theorem level_le (paths : Finset Location) (m : Memory) : m.level paths ≤ 4 * paths.card := by
  have hfour : ∀ l ∈ paths, (m.contains l).toNat + (m.read l).rank ≤ 4 := by
    intro l _
    have hrank : (m.read l).rank ≤ 3 := by cases m.read l <;> decide
    have hlisted : (m.contains l).toNat ≤ 1 := Bool.toNat_le _
    omega
  calc m.level paths ≤ ∑ _l ∈ paths, 4 := Finset.sum_le_sum hfour
    _ = paths.card * 4 := Finset.sum_const_nat fun _ _ => rfl
    _ = 4 * paths.card := Nat.mul_comm _ _

theorem Within.level_lt_at {a b : Memory} (h : a.Within b) {l : Location}
    (hl : a.get? l ≠ b.get? l) :
    b.contains l = true ∧ (a.contains l).toNat + (a.read l).rank <
      (b.contains l).toNat + (b.read l).rank := by
  have hcontains := h.contains (l := l)
  have hread := h.below l
  rw [Sensitivity.le_iff_rank_le] at hread
  simp only [Table.contains, read] at hcontains hread ⊢
  cases ha : a.get? l with
  | none =>
      cases hb : b.get? l with
      | none => exact absurd (ha.trans hb.symm) hl
      | some t =>
          simp only [ha, hb, Option.getD_none, Option.getD_some, Sensitivity.rank] at hread
          exact ⟨rfl, Nat.lt_of_lt_of_le Nat.one_lt_two (Nat.add_le_add_left hread 1)⟩
  | some s =>
      cases hb : b.get? l with
      | none => simp [ha, hb] at hcontains
      | some t =>
          simp only [ha, hb, Option.getD_some] at hread
          have hne : s.rank ≠ t.rank := fun heq =>
            hl (by rw [ha, hb, Sensitivity.rank_injective heq])
          exact ⟨rfl, Nat.add_lt_add_left (Nat.lt_of_le_of_ne hread hne) 1⟩

/-- A memory that changes to one that it is within comes to a higher level. -/
theorem Within.level_lt {a b : Memory} (h : a.Within b) (hne : (a == b) = false)
    {paths : Finset Location} (hpaths : ∀ {l}, b.contains l = true → l ∈ paths) :
    a.level paths < b.level paths := by
  obtain ⟨l, hl⟩ : ∃ l, a.get? l ≠ b.get? l := by
    by_contra hsame
    push Not at hsame
    rw [Table.beq_iff_get?_eq.2 hsame] at hne
    cases hne
  obtain ⟨hlisted, hlt⟩ := h.level_lt_at hl
  refine Finset.sum_lt_sum (fun l _ => ?_) ⟨l, hpaths hlisted, hlt⟩
  exact Nat.add_le_add (Bool.toNat_le_toNat h.contains) (h.below l)

end Memory

end Disclosure
