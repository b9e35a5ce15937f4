import Disclosure.Location
import Mathlib.Data.List.Basic

/-!
# Written locations

The written form of a location is its root and its fields with points between them.  Neither a root
nor a field is written with a point, so the parts are found again between the points, and each part
stands for one root or one declaration: a location is determined by its written form.
-/

namespace Disclosure

namespace DeclId

@[simp] theorem toList_text (id : DeclId) :
    id.text.toList = '#' :: Nat.toDigits 10 id.index.toNat := by
  simp [text, Nat.toString_eq_repr]

theorem text_injective : Function.Injective text := by
  rintro ⟨a⟩ ⟨b⟩ h
  have hdigits : Nat.toDigits 10 a.toNat = Nat.toDigits 10 b.toNat := by
    simpa using congrArg String.toList h
  have hvalue : a.toNat = b.toNat := by
    rw [← Nat.ofDigitChars_ten_toDigits (n := a.toNat), hdigits, Nat.ofDigitChars_ten_toDigits]
  rw [UInt32.toNat_inj.1 hvalue]

theorem point_notMem_text (id : DeclId) : '.' ∉ id.text.toList := by
  rw [toList_text, List.mem_cons, not_or]
  refine ⟨by decide, fun hpoint => ?_⟩
  have hdigit := Nat.isDigit_of_mem_toDigits (by decide) (by decide) hpoint
  revert hdigit
  decide

end DeclId

namespace Root

/-- The first letters tell the kinds of roots apart. -/
theorem text_injective : Function.Injective text := by
  intro r r' h
  have hchars : r.text.toList = r'.text.toList := congrArg String.toList h
  cases r with
  | var id =>
      cases r' with
      | var id' => rw [DeclId.text_injective ((String.append_right_inj _).1 h)]
      | self => simp [text] at hchars
      | static field => simp [text] at hchars
  | self =>
      cases r' with
      | var id => simp [text] at hchars
      | self => rfl
      | static field => simp [text] at hchars
  | static field =>
      cases r' with
      | var id => simp [text] at hchars
      | self => simp [text] at hchars
      | static field' => rw [DeclId.text_injective ((String.append_right_inj _).1 h)]

theorem point_notMem_text (r : Root) : '.' ∉ r.text.toList := by
  cases r with
  | var id => simpa [text] using id.point_notMem_text
  | self => decide
  | static field => simpa [text] using field.point_notMem_text

end Root

namespace Location

/-- The written parts of a location: its root, then its fields. -/
def parts (l : Location) : List (List Char) :=
  l.root.text.toList :: l.fields.map fun field => field.text.toList

theorem toList_text (l : Location) : l.text.toList = ['.'].intercalate l.parts := by
  -- the text grows at its end, so the induction is over whatever stands before the fields
  have hfields : ∀ (fields : List DeclId) (shown : String),
      (fields.foldl (fun shown field => shown ++ "." ++ field.text) shown).toList =
        ['.'].intercalate (shown.toList :: fields.map fun field => field.text.toList) := by
    intro fields
    induction fields with
    | nil => simp
    | cons field rest ih =>
        intro shown
        have hmerge : ∀ (xs ys : List Char) (more : List (List Char)),
            ['.'].intercalate ((xs ++ ys) :: more) = xs ++ ['.'].intercalate (ys :: more) := by
          intro xs ys more
          cases more <;> simp
        rw [List.foldl_cons, ih, List.map_cons, List.intercalate_cons_cons, String.toList_append,
          String.toList_append, hmerge]
        rfl
  exact hfields l.fields l.root.text

theorem point_notMem_of_mem_parts {l : Location} {part : List Char} (h : part ∈ l.parts) :
    '.' ∉ part := by
  rcases List.mem_cons.1 h with rfl | hfield
  · exact l.root.point_notMem_text
  · obtain ⟨field, -, rfl⟩ := List.mem_map.1 hfield
    exact field.point_notMem_text

theorem splitOn_text (l : Location) : l.text.toList.splitOn '.' = l.parts := by
  rw [toList_text]
  exact List.splitOn_intercalate '.' (fun _ => point_notMem_of_mem_parts) (List.cons_ne_nil _ _)

theorem parts_injective : Function.Injective parts := by
  rintro ⟨r, fields⟩ ⟨r', fields'⟩ h
  obtain ⟨hroot, hfields⟩ := List.cons.inj h
  have hr : r = r' := Root.text_injective (String.toList_inj.1 hroot)
  have hchars : Function.Injective fun field : DeclId => field.text.toList :=
    fun _ _ hfield => DeclId.text_injective (String.toList_inj.1 hfield)
  have hf : fields = fields' := List.map_injective_iff.2 hchars hfields
  rw [hr, hf]

/-- Locations with the same written form are equal. -/
theorem text_inj {p q : Location} : p.text = q.text ↔ p = q := by
  constructor
  · intro h
    apply parts_injective
    rw [← splitOn_text p, h, splitOn_text q]
  · exact congrArg text

end Location

end Disclosure
