import Disclosure.Table
import Mathlib.Data.List.Nodup
import Mathlib.Data.List.Perm.Subperm

/-!
# Laws of tables

Look-up is what a table is for, so the operations are described by it.  Three facts are about the
order of the keys as well: an insertion that changes no value changes nothing at all, a value that
is replaced in a list of insertions could as well have been inserted afterwards, and new keys follow
the old ones in the order of their first insertions.

`==` compares tables as maps: it holds exactly where both give every key the same value.
-/

namespace Disclosure

namespace Table

variable {κ α β : Type}

theorem ext {s t : Table κ α} (h : s.entries = t.entries) : s = t := by
  cases s
  cases t
  simpa using h

instance [DecidableEq κ] [DecidableEq α] : DecidableEq (Table κ α) := fun s t =>
  decidable_of_iff (s.entries = t.entries) ⟨ext, congrArg entries⟩

section

variable [DecidableEq κ]

theorem lookup_append (k : κ) (xs ys : List (κ × α)) :
    lookup k (xs ++ ys) = (lookup k xs).or (lookup k ys) := by
  induction xs with
  | nil => simp [lookup]
  | cons e rest ih =>
      by_cases h : e.1 = k
      · simp [lookup, h]
      · simp [lookup, h, ih]

theorem lookup_map_snd (k : κ) (f : κ → α → β) (es : List (κ × α)) :
    lookup k (es.map fun e => (e.1, f e.1 e.2)) = (lookup k es).map (f k) := by
  induction es with
  | nil => rfl
  | cons e rest ih =>
      by_cases h : e.1 = k
      · simp [lookup, h]
      · simp [lookup, h, ih]

theorem lookup_filter_fst (k : κ) (p : κ → Bool) (es : List (κ × α)) :
    lookup k (es.filter fun e => p e.1) = if p k then lookup k es else none := by
  induction es with
  | nil => simp [lookup]
  | cons e rest ih =>
      by_cases hk : e.1 = k
      · subst hk
        cases hp : p e.1 with
        | true => simp [lookup, hp]
        | false => simp [hp, ih]
      · cases hp : p e.1 with
        | true => simp [lookup, hp, hk, ih]
        | false => simp [lookup, hp, hk, ih]

theorem mem_of_lookup_eq_some {k : κ} {v : α} {es : List (κ × α)} (h : lookup k es = some v) :
    (k, v) ∈ es := by
  induction es with
  | nil => simp [lookup] at h
  | cons e rest ih =>
      obtain ⟨a, w⟩ := e
      by_cases hk : a = k
      · subst hk
        have hw : w = v := by simpa [lookup] using h
        simp [hw]
      · have hrest : lookup k rest = some v := by simpa [lookup, hk] using h
        exact List.mem_cons_of_mem _ (ih hrest)

theorem lookup_eq_some_of_mem {k : κ} {v : α} {es : List (κ × α)}
    (hes : (es.map Prod.fst).Nodup) (h : (k, v) ∈ es) : lookup k es = some v := by
  induction es with
  | nil => simp at h
  | cons e rest ih =>
      obtain ⟨a, w⟩ := e
      rw [List.map_cons, List.nodup_cons] at hes
      rcases List.mem_cons.1 h with heq | hmem
      · cases heq
        simp [lookup]
      · have hak : a ≠ k := by
          rintro rfl
          exact hes.1 (List.mem_map.2 ⟨(a, v), hmem, rfl⟩)
        simpa [lookup, hak] using ih hes.2 hmem

/-- Where no key is listed twice, the first entry with a key is the last one too. -/
theorem lookup_reverse {k : κ} {es : List (κ × α)} (hes : (es.map Prod.fst).Nodup) :
    lookup k es.reverse = lookup k es := by
  cases h : lookup k es with
  | some v =>
      have hreverse : (es.reverse.map Prod.fst).Nodup := by
        rw [List.map_reverse]
        exact List.nodup_reverse.2 hes
      exact lookup_eq_some_of_mem hreverse (List.mem_reverse.2 (mem_of_lookup_eq_some h))
  | none =>
      rw [lookup_eq_none_iff] at h ⊢
      simpa using h

theorem get?_eq_some_iff {t : Table κ α} {k : κ} {v : α} :
    t.get? k = some v ↔ (k, v) ∈ t.entries :=
  ⟨mem_of_lookup_eq_some, lookup_eq_some_of_mem t.nodup_keys⟩

theorem contains_iff_exists {t : Table κ α} {k : κ} :
    t.contains k = true ↔ ∃ v, t.get? k = some v := by
  simp [contains, Option.isSome_iff_exists]

@[simp] theorem get?_insert_self (t : Table κ α) (k : κ) (v : α) :
    (t.insert k v).get? k = some v := by
  simp [get?_insert]

theorem get?_insert_of_ne (t : Table κ α) {k k' : κ} (v : α) (h : k ≠ k') :
    (t.insert k v).get? k' = t.get? k' := by
  simp [get?_insert, h]

theorem of_get?_insert {t : Table κ α} {k k' : κ} {v v' : α} {P : κ → α → Prop}
    (h : (t.insert k v).get? k' = some v') (hself : P k v)
    (hold : ∀ {a w}, t.get? a = some w → P a w) : P k' v' := by
  by_cases hk : k = k'
  · subst hk
    rw [get?_insert_self, Option.some.injEq] at h
    exact h ▸ hself
  · rw [get?_insert_of_ne t v hk] at h
    exact hold h

theorem contains_insert (t : Table κ α) (k k' : κ) (v : α) :
    (t.insert k v).contains k' = (decide (k = k') || t.contains k') := by
  by_cases h : k = k'
  · simp [contains, h]
  · simp [contains, get?_insert, h]

/-! ## Insertions that commute or do nothing -/

theorem upsert_of_lookup_eq_some {k : κ} {v : α} {es : List (κ × α)}
    (h : lookup k es = some v) : upsert k v es = es := by
  induction es with
  | nil => simp [lookup] at h
  | cons e rest ih =>
      obtain ⟨a, w⟩ := e
      by_cases hk : a = k
      · have hw : w = v := by simpa [lookup, hk] using h
        simp [upsert, hk, hw]
      · have hrest : lookup k rest = some v := by simpa [lookup, hk] using h
        simp [upsert, hk, ih hrest]

theorem insert_of_get?_eq_some {t : Table κ α} {k : κ} {v : α} (h : t.get? k = some v) :
    t.insert k v = t :=
  ext (upsert_of_lookup_eq_some h)

theorem upsert_upsert_self (k : κ) (v w : α) (es : List (κ × α)) :
    upsert k v (upsert k w es) = upsert k v es := by
  induction es with
  | nil => simp [upsert]
  | cons e rest ih =>
      by_cases hk : e.1 = k
      · simp [upsert, hk]
      · simp [upsert, hk, ih]

/-- Insertions at two keys commute if the one key is listed already: neither then changes the
place of the other. -/
theorem upsert_comm_of_mem {k a : κ} (v w : α) {es : List (κ × α)}
    (hk : k ∈ es.map Prod.fst) (hne : k ≠ a) :
    upsert k v (upsert a w es) = upsert a w (upsert k v es) := by
  induction es with
  | nil => simp at hk
  | cons e rest ih =>
      obtain ⟨c, u⟩ := e
      by_cases hck : c = k
      · subst hck
        simp [upsert, hne]
      · by_cases hca : c = a
        · subst hca
          simp [upsert, hck]
        · have hmem : k ∈ rest.map Prod.fst := by
            rcases List.mem_cons.1 hk with h | h
            · exact absurd h.symm hck
            · exact h
          simp [upsert, hck, hca, ih hmem]

theorem insert_comm_of_mem {t : Table κ α} {k a : κ} (v w : α) (hk : k ∈ t.keys) (hne : k ≠ a) :
    (t.insert a w).insert k v = (t.insert k v).insert a w :=
  ext (upsert_comm_of_mem v w hk hne)

theorem mem_keys_insert {t : Table κ α} {k a : κ} (w : α) (hk : k ∈ t.keys) :
    k ∈ (t.insert a w).keys := by
  rw [keys_insert]
  split
  · exact hk
  · exact List.mem_append_left _ hk

/-- The last insertion at a key gives its value; a key without insertions keeps its own. -/
theorem get?_insertAll (t : Table κ α) (es : List (κ × α)) (k : κ) :
    (t.insertAll es).get? k = (lookup k es.reverse).or (t.get? k) := by
  induction es generalizing t with
  | nil => rfl
  | cons e rest ih =>
      rw [insertAll_cons, ih, List.reverse_cons, lookup_append, get?_insert, Option.or_assoc]
      by_cases hk : e.1 = k <;> simp [lookup, hk]

theorem mem_or_get?_of_insertAll {t : Table κ α} {es : List (κ × α)} {k : κ} {v : α}
    (h : (t.insertAll es).get? k = some v) : (k, v) ∈ es ∨ t.get? k = some v := by
  rw [get?_insertAll] at h
  cases hlast : lookup k es.reverse with
  | none =>
      rw [hlast, Option.none_or] at h
      exact Or.inr h
  | some w =>
      rw [hlast, Option.some_or] at h
      exact Or.inl (List.mem_reverse.1 (mem_of_lookup_eq_some (hlast.trans h)))

theorem contains_of_insertAll {t : Table κ α} {es : List (κ × α)} {k : κ}
    (h : (t.insertAll es).contains k = true) : t.contains k = true ∨ ∃ e ∈ es, e.1 = k := by
  obtain ⟨v, hv⟩ := contains_iff_exists.1 h
  cases mem_or_get?_of_insertAll hv with
  | inl hmem => exact Or.inr ⟨(k, v), hmem, rfl⟩
  | inr hold => exact Or.inl (contains_iff_exists.2 ⟨v, hold⟩)

theorem get?_insertAll_of_notMem {t : Table κ α} {es : List (κ × α)} {k : κ}
    (hk : k ∉ es.map Prod.fst) : (t.insertAll es).get? k = t.get? k := by
  have hnone : lookup k es.reverse = none := by
    rw [lookup_eq_none_iff, List.map_reverse, List.mem_reverse]
    exact hk
  rw [get?_insertAll, hnone, Option.none_or]

theorem insertAll_of_forall_get? {t : Table κ α} {es : List (κ × α)}
    (h : ∀ e ∈ es, t.get? e.1 = some e.2) : t.insertAll es = t := by
  induction es with
  | nil => rfl
  | cons e rest ih =>
      rw [insertAll_cons, insert_of_get?_eq_some (h e List.mem_cons_self)]
      exact ih fun e' he' => h e' (List.mem_cons_of_mem _ he')

theorem get?_insertAll_entries (t u : Table κ α) (k : κ) :
    (t.insertAll u.entries).get? k = (u.get? k).or (t.get? k) := by
  rw [get?_insertAll, lookup_reverse u.nodup_keys, ← get?]

/-- Listed keys keep their places.  The new ones follow in the order of their first insertions. -/
theorem keys_insertAll (t : Table κ α) (es : List (κ × α)) :
    (t.insertAll es).keys =
      t.keys ++ ((es.map Prod.fst).filter fun k => k ∉ t.keys).eraseDups := by
  induction es generalizing t with
  | nil => simp
  | cons e rest ih =>
      rw [insertAll_cons, ih, keys_insert, List.map_cons]
      by_cases hk : e.1 ∈ t.keys
      · simp [hk]
      · -- what is new after the insertion was new before it and is another key
        have hnew : (rest.map Prod.fst).filter (fun k => k ∉ t.keys ++ [e.1]) =
            ((rest.map Prod.fst).filter fun k => k ∉ t.keys).filter fun k => !k == e.1 := by
          rw [List.filter_filter]
          refine List.filter_congr fun k _ => ?_
          simp [and_comm, beq_eq_decide]
        rw [if_neg hk, hnew, List.filter_cons_of_pos (by simpa using hk), List.eraseDups_cons,
          List.append_assoc, List.singleton_append]

theorem insertAll_insert_of_mem {k : κ} (v : α) {es : List (κ × α)}
    (hes : k ∉ es.map Prod.fst) {t : Table κ α} (hk : k ∈ t.keys) :
    (t.insertAll es).insert k v = (t.insert k v).insertAll es := by
  induction es generalizing t with
  | nil => rfl
  | cons e rest ih =>
      rw [List.map_cons, List.mem_cons, not_or] at hes
      rw [insertAll_cons, insertAll_cons, ih hes.2 (mem_keys_insert e.2 hk),
        insert_comm_of_mem v e.2 hk hes.1]

theorem insertAll_upsert (t : Table κ α) (k : κ) (v : α) {es : List (κ × α)}
    (hes : (es.map Prod.fst).Nodup) :
    t.insertAll (upsert k v es) = (t.insertAll es).insert k v := by
  induction es generalizing t with
  | nil => rfl
  | cons e rest ih =>
      obtain ⟨a, w⟩ := e
      rw [List.map_cons, List.nodup_cons] at hes
      by_cases hk : a = k
      · subst hk
        have hlisted : a ∈ (t.insert a w).keys := by
          rw [← contains_iff_mem_keys, contains_insert]
          simp
        have hself : (t.insert a w).insert a v = t.insert a v := ext (upsert_upsert_self a v w _)
        rw [insertAll_cons, insertAll_insert_of_mem v hes.1 hlisted, hself]
        simp [upsert]
      · simp [upsert, hk, ih (t.insert a w) hes.2]

/-! ## Equality as maps -/

theorem keys_subset_of_get? {s t : Table κ α} (h : ∀ k v, s.get? k = some v → t.get? k = some v) :
    s.keys ⊆ t.keys := by
  intro k hk
  obtain ⟨v, hv⟩ := contains_iff_exists.1 (contains_iff_mem_keys.2 hk)
  exact contains_iff_mem_keys.1 (contains_iff_exists.2 ⟨v, h k v hv⟩)

/-- `==` says that both tables give every key the same value, or both none. -/
theorem beq_iff_get?_eq [BEq α] [LawfulBEq α] {s t : Table κ α} :
    (s == t) = true ↔ ∀ k, s.get? k = t.get? k := by
  have hunfold : (s == t) = true ↔
      s.entries.length = t.entries.length ∧ ∀ k v, s.get? k = some v → t.get? k = some v := by
    show sameMap s t = true ↔ _
    simp only [sameMap, size, Bool.and_eq_true, beq_iff_eq, List.all_eq_true, Prod.forall]
    refine and_congr_right fun _ => forall₂_congr fun k v => ?_
    rw [← get?_eq_some_iff]
    refine imp_congr_right fun _ => ?_
    cases t.get? k with
    | none => simp
    | some w => simp [eq_comm (a := v)]
  rw [hunfold]
  constructor
  · rintro ⟨hlen, hsub⟩ k
    -- equally long lists without repetition, one inside the other, have the same members
    have hperm : s.keys.Perm t.keys := by
      refine (s.nodup_keys.subperm (keys_subset_of_get? hsub)).perm_of_length_le ?_
      simp [keys, hlen]
    cases hs : s.get? k with
    | some v => exact (hsub k v hs).symm
    | none =>
        rw [get?_eq_none_iff, hperm.mem_iff, ← get?_eq_none_iff] at hs
        exact hs.symm
  · intro h
    have hst : s.keys ⊆ t.keys := keys_subset_of_get? fun k v hv => (h k).symm.trans hv
    have hts : t.keys ⊆ s.keys := keys_subset_of_get? fun k v hv => (h k).trans hv
    have hle := (s.nodup_keys.subperm hst).length_le
    have hge := (t.nodup_keys.subperm hts).length_le
    have hlen : s.entries.length = t.entries.length := by
      simpa [keys] using Nat.le_antisymm hle hge
    exact ⟨hlen, fun k v hv => (h k).symm.trans hv⟩

end

end Table

end Disclosure
