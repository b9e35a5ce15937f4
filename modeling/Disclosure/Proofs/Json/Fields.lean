import Disclosure.Json.Reader
import Disclosure.Proofs.Table

/-!
# Objects that give some of the known fields

A record in which fields may be missing is written as an object.  `Gives fields members` says that
the members give each field that has a value, once, in whatever order and among members with unknown
keys.  The reader finds exactly these values.
-/

namespace Disclosure

namespace Json

variable {α : Type}

def given (fields : List (String × Option Json)) : List (String × Json) :=
  fields.filterMap fun f => f.2.map fun j => (f.1, j)

theorem mem_given {fields : List (String × Option Json)} {f : String × Json} :
    f ∈ given fields ↔ (f.1, some f.2) ∈ fields := by
  simp [given, Prod.ext_iff]

theorem map_fst_given_sublist (fields : List (String × Option Json)) :
    ((given fields).map Prod.fst).Sublist (fields.map Prod.fst) := by
  induction fields with
  | nil => exact .slnil
  | cons f fields ih =>
      obtain ⟨name, value⟩ := f
      cases value with
      | none => exact ih.cons name
      | some j => exact ih.cons_cons name

/-- The members of an object are the fields that have a value and members with unknown keys, in some
order. -/
def Gives (fields : List (String × Option Json)) (members : List (Option String × Json)) : Prop :=
  ∃ unknown : List (String × Json), (∀ f ∈ unknown, f.1 ∉ fields.map Prod.fst) ∧
    members.Perm ((given fields ++ unknown).map fun f => (some f.1, f.2))

theorem gives_record (fields : List (String × Json)) :
    Gives (fields.map fun f => (f.1, some f.2)) (fields.map fun f => (some f.1, f.2)) := by
  refine ⟨[], by simp, ?_⟩
  have hgiven : given (fields.map fun f => (f.1, some f.2)) = fields := by
    simp [given, List.filterMap_map]
  rw [hgiven, List.append_nil]

theorem countKey_record_le_one {fields : List (String × Json)} (h : (fields.map Prod.fst).Nodup)
    (name : String) : countKey name (fields.map fun f => (some f.1, f.2)) ≤ 1 := by
  have hcount := List.nodup_iff_count_le_one.1 h name
  rw [List.count, List.countP_map] at hcount
  rw [countKey, List.countP_map]
  convert hcount using 2
  ext f
  simp [beq_eq_decide]

theorem member?_eq_lookup (name : String) (members : List (Option String × Json)) :
    member? name members = Table.lookup (some name) members := by
  induction members with
  | nil => rfl
  | cons m members ih => rw [member?, Table.lookup, ih]

namespace Gives

variable {fields : List (String × Option Json)} {members : List (Option String × Json)}

theorem isSome_key (h : Gives fields members) {m : Option String × Json} (hm : m ∈ members) :
    m.1.isSome = true := by
  obtain ⟨unknown, -, hperm⟩ := h
  obtain ⟨f, -, rfl⟩ := List.mem_map.1 (hperm.mem_iff.1 hm)
  rfl

theorem countKey_le_one (h : Gives fields members) (hnames : (fields.map Prod.fst).Nodup)
    {name : String} (hname : name ∈ fields.map Prod.fst) : countKey name members ≤ 1 := by
  obtain ⟨unknown, hunknown, hperm⟩ := h
  have hgiven := countKey_record_le_one (hnames.sublist (map_fst_given_sublist fields)) name
  have hrest : countKey name (unknown.map fun f => (some f.1, f.2)) = 0 := by
    rw [countKey, List.countP_eq_zero]
    simp only [List.forall_mem_map, Option.some.injEq, decide_eq_true_eq]
    rintro f hf rfl
    exact hunknown f hf hname
  have hsplit : countKey name members =
      countKey name ((given fields).map fun f => (some f.1, f.2)) +
        countKey name (unknown.map fun f => (some f.1, f.2)) := by
    rw [countKey, hperm.countP_eq, List.map_append, List.countP_append]
    rfl
  omega

theorem mem_iff (h : Gives fields members) (hnames : (fields.map Prod.fst).Nodup)
    {f : String × Option Json} (hf : f ∈ fields) {j : Json} :
    (some f.1, j) ∈ members ↔ f.2 = some j := by
  obtain ⟨unknown, hunknown, hperm⟩ := h
  have hmem : (some f.1, j) ∈ members ↔ (f.1, j) ∈ given fields ++ unknown := by
    rw [hperm.mem_iff]
    simp [Prod.ext_iff]
  rw [hmem, List.mem_append, mem_given]
  constructor
  · rintro (hgiven | hrest)
    · have hsame := List.inj_on_of_nodup_map hnames hf hgiven rfl
      rw [hsame]
    · exact absurd (List.mem_map_of_mem hf) (hunknown _ hrest)
  · intro hvalue
    left
    rwa [← hvalue]

theorem member?_eq (h : Gives fields members) (hnames : (fields.map Prod.fst).Nodup)
    {f : String × Option Json} (hf : f ∈ fields) : member? f.1 members = f.2 := by
  rw [member?_eq_lookup]
  cases hfound : Table.lookup (some f.1) members with
  | some j => exact ((h.mem_iff hnames hf).1 (Table.mem_of_lookup_eq_some hfound)).symm
  | none =>
      cases hvalue : f.2 with
      | none => rfl
      | some j =>
          have hmem := (h.mem_iff hnames hf).2 hvalue
          exact absurd (List.mem_map_of_mem hmem) (Table.lookup_eq_none_iff.1 hfound)

/-- The values are found under their names, whatever else the object holds. -/
theorem knownMembers? (h : Gives fields members) {names : List String}
    (heq : fields.map Prod.fst = names) (hnames : names.Nodup) :
    Json.knownMembers? names members = some (fields.map Prod.snd) := by
  subst heq
  have hkeys : members.all (fun m => m.1.isSome) = true :=
    List.all_eq_true.2 fun _ hm => h.isSome_key hm
  have hcounts :
      (fields.map Prod.fst).all (fun name => decide (countKey name members ≤ 1)) = true :=
    List.all_eq_true.2 fun _ hname => decide_eq_true (h.countKey_le_one hnames hname)
  have hvalues : (fields.map Prod.fst).map (member? · members) = fields.map Prod.snd := by
    rw [List.map_map]
    exact List.map_congr_left fun f hf => h.member?_eq hnames hf
  rw [Json.knownMembers?, hkeys, hcounts, hvalues]
  rfl

end Gives

theorem withDefault_map {read : Json → Option α} {write : α → Json}
    (h : ∀ a, read (write a) = some a) (default : α) (o : Option α) :
    withDefault default read (o.map write) = some (o.getD default) := by
  cases o with
  | none => rfl
  | some a => exact h a

end Json

end Disclosure
