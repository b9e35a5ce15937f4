import Disclosure.Proofs.Memory.Levels
import Mathlib.Order.Bounds.Basic

/-!
# Joins are least upper bounds

Memories are ordered by `Memory.Within`: one is at most another if it reads at most as strictly
everywhere and lists nothing more.  Memories that are at most each other are equal as maps, so up to
`==` a memory is determined by the memories that it is at most.  A join is at most exactly the ones
that both its parts are at most.  From this the laws of joins follow by logic alone: neither the
order of the parts, nor how they are grouped, nor how often one of them is given makes a difference.

The order of the keys is not part of this.  It does depend on the order of the parts.
-/

namespace Disclosure

namespace Memory

instance : Preorder Memory where
  le := Within
  le_refl := Within.refl
  le_trans _ _ _ := Within.trans

variable {a b c : Memory}

theorem le_iff_keys_read : a ≤ b ↔ a.keys ⊆ b.keys ∧ ∀ l, a.read l ≤ b.read l := by
  constructor
  · intro h
    refine ⟨fun l hl => ?_, h.below⟩
    exact Table.contains_iff_mem_keys.1 (h.contains (Table.contains_iff_mem_keys.2 hl))
  · rintro ⟨hkeys, hread⟩
    refine ⟨hread, fun hl => ?_⟩
    exact Table.contains_iff_mem_keys.2 (hkeys (Table.contains_iff_mem_keys.1 hl))

/-- Equality as maps tells a location that is listed as `unknown` from one that is not listed. -/
theorem beq_iff_contains_read :
    (a == b) = true ↔ ∀ l, a.contains l = b.contains l ∧ a.read l = b.read l := by
  rw [Table.beq_iff_get?_eq]
  refine forall_congr' fun l => ?_
  rw [Table.contains, Table.contains, read, read]
  cases a.get? l <;> cases b.get? l <;> simp

theorem beq_iff_le_le : (a == b) = true ↔ a ≤ b ∧ b ≤ a := by
  constructor
  · intro h
    have hsymm : (b == a) = true :=
      Table.beq_iff_get?_eq.2 fun l => (Table.beq_iff_get?_eq.1 h l).symm
    exact ⟨Within.of_beq h, Within.of_beq hsymm⟩
  · rintro ⟨hab, hba⟩
    refine beq_iff_contains_read.2 fun l => ⟨?_, le_antisymm (hab.below l) (hba.below l)⟩
    exact Bool.eq_iff_iff.2 ⟨hab.contains, hba.contains⟩

/-- Up to equality as maps, a memory is determined by what it is at most. -/
theorem beq_of_forall_within_iff (h : ∀ d, a.Within d ↔ b.Within d) : (a == b) = true :=
  beq_iff_le_le.2 ⟨(h b).2 (le_refl b), (h a).1 (le_refl a)⟩

/-! ## Laws -/

theorem isLUB_join (a b : Memory) : IsLUB {a, b} (a.join b) := by
  constructor
  · rintro m (rfl | rfl)
    · exact .join_left _ _
    · exact .join_right _ _
  · intro d hd
    exact Within.join_iff.2 ⟨hd (Or.inl rfl), hd (Or.inr rfl)⟩

theorem join_self_beq (a : Memory) : (a.join a == a) = true :=
  beq_of_forall_within_iff fun d => by rw [Within.join_iff, and_self]

theorem join_comm_beq (a b : Memory) : (a.join b == b.join a) = true :=
  beq_of_forall_within_iff fun d => by rw [Within.join_iff, Within.join_iff, and_comm]

theorem join_assoc_beq (a b c : Memory) :
    ((a.join b).join c == a.join (b.join c)) = true :=
  beq_of_forall_within_iff fun d => by simp only [Within.join_iff, and_assoc]

theorem isLUB_joinAll {ms : List Memory} {j : Memory} (h : joinAll ms = some j) :
    IsLUB {m | m ∈ ms} j := by
  cases ms with
  | nil => cases h
  | cons first rest =>
      cases h
      exact ⟨Within.foldl_join_iff.1 (.refl _), fun d hd => Within.foldl_join_iff.2 hd⟩

/-- Only which memories are joined matters, not in which order nor how often. -/
theorem exists_joinAll_beq {ms ms' : List Memory} (hne : ms ≠ [])
    (hmem : ∀ m, m ∈ ms ↔ m ∈ ms') :
    ∃ j j', joinAll ms = some j ∧ joinAll ms' = some j' ∧ IsLUB {m | m ∈ ms} j ∧
      (j == j') = true := by
  obtain ⟨first, rest, rfl⟩ := List.exists_cons_of_ne_nil hne
  obtain ⟨first', rest', rfl⟩ :=
    List.exists_cons_of_ne_nil (List.ne_nil_of_mem ((hmem first).1 List.mem_cons_self))
  have hsame : {m | m ∈ first :: rest} = {m | m ∈ first' :: rest'} := Set.ext hmem
  have hj := isLUB_joinAll (joinAll_cons first rest)
  have hj' := isLUB_joinAll (joinAll_cons first' rest')
  rw [← hsame] at hj'
  exact ⟨_, _, joinAll_cons first rest, joinAll_cons first' rest', hj,
    beq_iff_le_le.2 ⟨hj.2 hj'.1, hj'.2 hj.1⟩⟩

/-- What a join reads, what it lists and in which order; what equality and the order of memories
are; the laws of joins; and that a join of several memories depends, up to equality, on nothing but
which memories they are. -/
theorem join_laws (a b c : Memory) :
    (∀ l, (a.join b).read l = (a.read l).join (b.read l)) ∧
    (∀ l, (a.join b).contains l = true ↔ a.contains l = true ∨ b.contains l = true) ∧
    ((a.join b).keys = a.keys ++ b.keys.filter (fun l => !a.contains l) ∧
      (a.join b).keys.Nodup) ∧
    ((a == b) = true ↔ ∀ l, a.contains l = b.contains l ∧ a.read l = b.read l) ∧
    (a ≤ b ↔ a.keys ⊆ b.keys ∧ ∀ l, a.read l ≤ b.read l) ∧
    ((a == b) = true ↔ a ≤ b ∧ b ≤ a) ∧
    (a.join a == a) = true ∧ (a.join b == b.join a) = true ∧
    ((a.join b).join c == a.join (b.join c)) = true ∧
    IsLUB {a, b} (a.join b) ∧
    ∀ ms ms' : List Memory, ms ≠ [] → (∀ m, m ∈ ms ↔ m ∈ ms') →
      ∃ j j', joinAll ms = some j ∧ joinAll ms' = some j' ∧ IsLUB {m | m ∈ ms} j ∧
        (j == j') = true := by
  have hcontains : ∀ l, (a.join b).contains l = true ↔ a.contains l = true ∨ b.contains l = true :=
    fun l => by rw [contains_join, Bool.or_eq_true]
  exact ⟨read_join a b, hcontains, ⟨keys_join a b, (a.join b).nodup_keys⟩, beq_iff_contains_read,
    le_iff_keys_read, beq_iff_le_le, join_self_beq a, join_comm_beq a b, join_assoc_beq a b c,
    isLUB_join a b, fun _ _ hne hmem => exists_joinAll_beq hne hmem⟩

/-- The variable 0 is `safe` in the one memory and not listed in the other, and the variable 2 is
listed as `unknown`.  The joins read the same but list the locations in another order. -/
theorem join_laws_overlap :
    let a : Memory := Table.ofList [(.var ⟨0⟩, .safe), (.var ⟨1⟩, .guarded)]
    let b : Memory := Table.ofList [(.var ⟨2⟩, .unknown), (.var ⟨1⟩, .forbidden)]
    ∃ j j', joinAll [a, b, a] = some j ∧ joinAll [b, a] = some j' ∧ (j == j') = true ∧
      j.keys = [.var ⟨0⟩, .var ⟨1⟩, .var ⟨2⟩] ∧ j'.keys = [.var ⟨2⟩, .var ⟨1⟩, .var ⟨0⟩] ∧
      j.read (.var ⟨0⟩) = .unknown ∧ j.read (.var ⟨1⟩) = .forbidden := by
  intro a b
  have hmem : ∀ m, m ∈ [a, b, a] ↔ m ∈ [b, a] := by
    intro m
    simp only [List.mem_cons, List.not_mem_nil, or_false]
    tauto
  obtain ⟨-, -, -, -, -, -, -, -, -, -, hlists⟩ := join_laws a b ∅
  obtain ⟨j, j', hj, hj', -, hbeq⟩ := hlists [a, b, a] [b, a] (List.cons_ne_nil _ _) hmem
  refine ⟨j, j', hj, hj', hbeq, ?_⟩
  cases hj
  cases hj'
  decide +kernel

end Memory

end Disclosure
