/-!
# Tables

A table is a finite map that lists its keys in the order in which they were first inserted.
Inserting a key that is already there replaces its value and keeps its place.  No key is listed
twice; that is part of the type, so look-up and listing always agree.

Two tables are compared with `==` as maps: the order of the keys does not count.
-/

namespace Disclosure

/-- A finite map that lists its keys in the order of their first insertion. -/
structure Table (κ α : Type) where
  entries : List (κ × α)
  nodup_keys : (entries.map Prod.fst).Nodup

namespace Table

variable {κ α : Type}

def empty : Table κ α := ⟨[], List.nodup_nil⟩

instance : EmptyCollection (Table κ α) := ⟨empty⟩

instance : Inhabited (Table κ α) := ⟨empty⟩

def keys (t : Table κ α) : List κ := t.entries.map Prod.fst

def size (t : Table κ α) : Nat := t.entries.length

section

variable [DecidableEq κ]

/-- The value that a list of entries gives to a key: that of the first entry with the key. -/
def lookup (k : κ) : List (κ × α) → Option α
  | [] => none
  | (k', v) :: rest => if k' = k then some v else lookup k rest

/-- The entries with the value of `k` set to `v`: in place if `k` is listed, else at the end. -/
def upsert (k : κ) (v : α) : List (κ × α) → List (κ × α)
  | [] => [(k, v)]
  | (k', v') :: rest => if k' = k then (k, v) :: rest else (k', v') :: upsert k v rest

theorem map_fst_upsert (k : κ) (v : α) (es : List (κ × α)) :
    (upsert k v es).map Prod.fst =
      if k ∈ es.map Prod.fst then es.map Prod.fst else es.map Prod.fst ++ [k] := by
  induction es with
  | nil => simp [upsert]
  | cons e rest ih =>
      obtain ⟨k', v'⟩ := e
      by_cases h : k' = k
      · simp [upsert, h]
      · have h' : ¬ k = k' := fun e => h e.symm
        simp only [upsert, h, if_false, List.map_cons, ih, List.mem_cons, h', false_or]
        split <;> simp

theorem nodup_upsert (k : κ) (v : α) {es : List (κ × α)} (h : (es.map Prod.fst).Nodup) :
    ((upsert k v es).map Prod.fst).Nodup := by
  rw [map_fst_upsert]
  split
  · exact h
  · rename_i hk
    refine List.nodup_append.2 ⟨h, List.nodup_cons.2 ⟨List.not_mem_nil, List.nodup_nil⟩, ?_⟩
    intro a ha b hb hab
    rw [List.mem_singleton] at hb
    exact hk (hb ▸ hab ▸ ha)

theorem lookup_upsert (k k' : κ) (v : α) (es : List (κ × α)) :
    lookup k' (upsert k v es) = if k = k' then some v else lookup k' es := by
  induction es with
  | nil => simp [upsert, lookup]
  | cons e rest ih =>
      obtain ⟨a, w⟩ := e
      by_cases h : a = k
      · subst h
        by_cases h' : a = k' <;> simp [upsert, lookup, h']
      · by_cases h' : a = k'
        · subst h'
          have hk : ¬ k = a := fun e => h e.symm
          simp [upsert, lookup, h, hk]
        · simp [upsert, lookup, h, h', ih]

theorem lookup_eq_none_iff {k : κ} {es : List (κ × α)} :
    lookup k es = none ↔ k ∉ es.map Prod.fst := by
  induction es with
  | nil => simp [lookup]
  | cons e rest ih =>
      obtain ⟨a, w⟩ := e
      by_cases h : a = k
      · simp [lookup, h]
      · have h' : ¬ k = a := fun e => h e.symm
        simp [lookup, h, h', ih]

def get? (t : Table κ α) (k : κ) : Option α := lookup k t.entries

def contains (t : Table κ α) (k : κ) : Bool := (t.get? k).isSome

def insert (t : Table κ α) (k : κ) (v : α) : Table κ α :=
  ⟨upsert k v t.entries, nodup_upsert k v t.nodup_keys⟩

def insertAll (t : Table κ α) (pairs : List (κ × α)) : Table κ α :=
  pairs.foldl (fun t p => t.insert p.1 p.2) t

/-- The table of the pairs: a repeated key keeps its first place and its last value. -/
def ofList (pairs : List (κ × α)) : Table κ α := empty.insertAll pairs

/-- Equality as maps: the same keys with the same values, in whatever order. -/
def sameMap [BEq α] (s t : Table κ α) : Bool :=
  s.size == t.size && s.entries.all fun e => match t.get? e.1 with
    | some v => e.2 == v
    | none => false

instance [BEq α] : BEq (Table κ α) := ⟨sameMap⟩

@[simp] theorem get?_empty (k : κ) : (empty : Table κ α).get? k = none := rfl

theorem get?_insert (t : Table κ α) (k k' : κ) (v : α) :
    (t.insert k v).get? k' = if k = k' then some v else t.get? k' :=
  lookup_upsert k k' v t.entries

theorem keys_insert (t : Table κ α) (k : κ) (v : α) :
    (t.insert k v).keys = if k ∈ t.keys then t.keys else t.keys ++ [k] :=
  map_fst_upsert k v t.entries

theorem get?_eq_none_iff {t : Table κ α} {k : κ} : t.get? k = none ↔ k ∉ t.keys :=
  lookup_eq_none_iff

theorem contains_iff_mem_keys {t : Table κ α} {k : κ} : t.contains k = true ↔ k ∈ t.keys := by
  have h := get?_eq_none_iff (t := t) (k := k)
  cases hk : t.get? k with
  | none => simpa [contains, hk] using h.1 hk
  | some v =>
      have : k ∈ t.keys := Decidable.byContradiction fun hn => by simp [h.2 hn] at hk
      simpa [contains, hk] using this

@[simp] theorem insertAll_nil (t : Table κ α) : t.insertAll [] = t := rfl

@[simp] theorem insertAll_cons (t : Table κ α) (e : κ × α) (pairs : List (κ × α)) :
    t.insertAll (e :: pairs) = (t.insert e.1 e.2).insertAll pairs := rfl

theorem insertAll_append (t : Table κ α) (pairs more : List (κ × α)) :
    t.insertAll (pairs ++ more) = (t.insertAll pairs).insertAll more := by
  simp [insertAll]

end

end Table

end Disclosure
