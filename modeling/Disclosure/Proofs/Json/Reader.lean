import Disclosure.Proofs.Json.Fields
import Disclosure.Proofs.Json.Parser

/-!
# Written data is read back

`Encodes read j a` says that the value `j` is a form in which `a` is written: it is plain, and with
at least as many levels left as `j` has, `read` finds `a` in it.  Each of the shapes in which data
is written keeps this: names, records, named alternatives, lists, and values that may be missing.
What is written so is read back from its text, unless the text is nested too deep.
-/

namespace Disclosure

namespace Json

variable {α β : Type}

/-! ## Depth -/

theorem depthList_le_iff {items : List Json} {n : Nat} :
    depthList items ≤ n ↔ ∀ j ∈ items, j.depth ≤ n := by
  induction items with
  | nil => simp [depthList]
  | cons j items ih => rw [depthList, Nat.max_le, ih, List.forall_mem_cons]

theorem depthMembers_le_iff {members : List (Option String × Json)} {n : Nat} :
    depthMembers members ≤ n ↔ ∀ m ∈ members, m.2.depth ≤ n := by
  induction members with
  | nil => simp [depthMembers]
  | cons m members ih => rw [depthMembers, Nat.max_le, ih, List.forall_mem_cons]

theorem depth_record_le_iff {fields : List (String × Json)} {n : Nat} :
    (record fields).depth ≤ n + 1 ↔ fields.Forall fun f => f.2.depth ≤ n := by
  rw [record, depth, Nat.add_le_add_iff_right, depthMembers_le_iff, List.forall_mem_map,
    List.forall_iff_forall_mem]

theorem depth_variant_le_iff {name : String} {j : Json} {n : Nat} :
    (variant name j).depth ≤ n + 1 ↔ j.depth ≤ n := by
  rw [variant, depth, Nat.add_le_add_iff_right, depthMembers_le_iff, List.forall_mem_singleton]

theorem depth_list_le_iff {toJson : α → Json} {as : List α} {n : Nat} :
    (list toJson as).depth ≤ n + 1 ↔ ∀ a ∈ as, (toJson a).depth ≤ n := by
  rw [list, depth, Nat.add_le_add_iff_right, depthList_le_iff, List.forall_mem_map]

/-! ## Plain values -/

theorem plain_text (s : String) : (text s).Plain := .text s

theorem plain_nat (n : Nat) : (nat n).Plain := .int _

theorem plain_record {fields : List (String × Json)} (h : fields.Forall fun f => f.2.Plain) :
    (record fields).Plain := by
  refine .obj ?_ ?_
  · exact List.forall_mem_map.2 fun _ _ => rfl
  · exact List.forall_mem_map.2 (List.forall_iff_forall_mem.1 h)

/-! ## Plain data -/

theorem natBelow?_nat {n bound : Nat} (h : n < bound) : (nat n).natBelow? bound = some n :=
  if_pos h

theorem count?_nat {n : Nat} (h : n < UInt64.size) : (nat n).count? = some n := natBelow?_nat h

@[simp] theorem uint32?_nat (n : UInt32) : (nat n.toNat).uint32? = some n := by
  simp [uint32?, natBelow?_nat n.toNat_lt]

@[simp] theorem uint64?_nat (n : UInt64) : (nat n.toNat).uint64? = some n := by
  simp [uint64?, natBelow?_nat n.toNat_lt]

@[simp] theorem int64?_int (n : Int64) : (int n.toInt).int64? = some n := by
  rw [int64?, if_pos ⟨n.minValue_le_toInt, n.toInt_le⟩, Int64.ofInt_toInt]

@[simp] theorem text?_text (s : String) : (text s).text? = some s := rfl

@[simp] theorem bool?_bool (b : Bool) : (bool b).bool? = some b := rfl

@[simp] theorem char?_text (c : Char) : (text (String.singleton c)).char? = some c := by
  simp [char?]

/-! ## Fields -/

@[simp] theorem fields?_record {names : List String} {fields : List (String × Json)}
    (hnames : fields.map Prod.fst = names) (h : names.Nodup) :
    (record fields).fields? names = some (fields.map fun f => some f.2) := by
  have hkeys : (fields.map fun f => (f.1, some f.2)).map Prod.fst = names := by
    rw [← hnames, List.map_map]
    rfl
  rw [record, fields?, (gives_record fields).knownMembers? hkeys h, List.map_map]
  rfl

theorem optional_of_ne_null {read : Json → Option α} {j : Json} (h : j ≠ .null) :
    optional read (some j) = (read j).map some := by
  cases j with
  | null => exact absurd rfl h
  | _ => rfl

theorem mapM_map_eq_some {read : Json → Option α} {toJson : α → Json} {as : List α}
    (h : ∀ a ∈ as, read (toJson a) = some a) : (as.map toJson).mapM read = some as := by
  induction as with
  | nil => rfl
  | cons a as ih =>
      have hrest := ih fun b hb => h b (List.mem_cons_of_mem _ hb)
      simp [h a List.mem_cons_self, hrest]

/-! ## Written forms of data -/

/-- The value is a form in which `a` is written. -/
structure Encodes (read : Nat → Json → Option α) (j : Json) (a : α) : Prop where
  plain : j.Plain
  read_eq : ∀ depth, j.depth ≤ depth → read depth j = some a

/-- Both texts of the value are read as `a`. -/
structure Recovers (read : Nat → Json → Option α) (j : Json) (a : α) : Prop where
  render : decode read j.render = some a
  renderPretty : decode read j.renderPretty = some a

namespace Encodes

variable {read : Nat → Json → Option α} {readPayload : Nat → Json → Option β} {toJson : α → Json}
  {j : Json} {a : α} {b : β}

theorem text {s : String} (h : ∀ depth, read depth (text s) = some a) :
    Encodes read (text s) a where
  plain := plain_text s
  read_eq depth _ := h depth

theorem record {fields : List (String × Json)} (hplain : fields.Forall fun f => f.2.Plain)
    (hread : ∀ depth, (fields.Forall fun f => f.2.depth ≤ depth) →
      read (depth + 1) (record fields) = some a) : Encodes read (record fields) a where
  plain := plain_record hplain
  read_eq
    | 0, h => absurd h (Nat.not_succ_le_zero _)
    | depth + 1, h => hread depth (depth_record_le_iff.1 h)

theorem variant {name : String} (hj : Encodes readPayload j b)
    (hread : ∀ depth, readPayload depth j = some b → read (depth + 1) (variant name j) = some a) :
    Encodes read (variant name j) a where
  plain := .obj (by simp) (by simpa using hj.plain)
  read_eq
    | 0, h => absurd h (Nat.not_succ_le_zero _)
    | depth + 1, h => hread depth (hj.read_eq depth (depth_variant_le_iff.1 h))

theorem variant_record {name : String} {fields : List (String × Json)}
    (hplain : fields.Forall fun f => f.2.Plain)
    (hread : ∀ depth, (fields.Forall fun f => f.2.depth ≤ depth) →
      read (depth + 2) (.variant name (.record fields)) = some a) :
    Encodes read (.variant name (.record fields)) a := by
  have hrecord : Encodes (fun depth j => read (depth + 1) (.variant name j)) (.record fields) a :=
    .record hplain hread
  exact hrecord.variant fun _ h => h

/-- An array of values that are all written in such forms, one after the other, where `readList` has
one level less for the values. -/
theorem arr {readList : Nat → Json → Option (List α)} {writeList : List α → List Json} {as : List α}
    (hnil : writeList [] = []) (hcons : ∀ a as, writeList (a :: as) = toJson a :: writeList as)
    (hread : ∀ depth items, readList (depth + 1) (.arr items) = items.mapM (read depth))
    (h : ∀ a ∈ as, Encodes read (toJson a) a) : Encodes readList (.arr (writeList as)) as := by
  have hitems : ∀ as, writeList as = as.map toJson := by
    intro as
    induction as with
    | nil => exact hnil
    | cons a as ih => rw [hcons, ih, List.map_cons]
  rw [hitems]
  refine ⟨.arr (List.forall_mem_map.2 fun a ha => (h a ha).plain), fun depth hdepth => ?_⟩
  cases depth with
  | zero => exact absurd hdepth (Nat.not_succ_le_zero _)
  | succ depth =>
      rw [hread]
      exact mapM_map_eq_some fun a ha => (h a ha).read_eq depth (depth_list_le_iff.1 hdepth a ha)

theorem list {as : List α} (h : ∀ a ∈ as, Encodes read (toJson a) a) :
    Encodes (list? read) (list toJson as) as :=
  .arr rfl (fun _ _ => rfl) (fun _ _ => rfl) h

theorem option {o : Option α} (h : ∀ a ∈ o, Encodes read (toJson a) a ∧ toJson a ≠ .null) :
    Encodes (fun depth j => optional (read depth) (some j)) (option toJson o) o := by
  cases o with
  | none => exact ⟨.null, fun _ _ => rfl⟩
  | some a =>
      obtain ⟨ha, hne⟩ := h a rfl
      refine ⟨ha.plain, fun depth hle => ?_⟩
      rw [Json.option, optional_of_ne_null hne, ha.read_eq depth hle, Option.map_some]

theorem recovers (h : Encodes read j a) (hdepth : j.depth ≤ maxDepth) : Recovers read j a where
  render := by
    rw [decode, h.plain.parse_render.1, Option.bind_some, h.read_eq maxDepth hdepth]
  renderPretty := by
    rw [decode, h.plain.parse_render.2, Option.bind_some, h.read_eq maxDepth hdepth]

end Encodes

end Json

end Disclosure
