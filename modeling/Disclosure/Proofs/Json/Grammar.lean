import Disclosure.Json.Parser
import Disclosure.Json.Printer

/-!
# How values may be written

`Written j cs rest` says that the characters `cs` start with a written form of the value `j` and
that `rest` follows it.  Blanks may stand before every sign.  The relation goes along the value, as
the writers do: after its first item an array goes on with further items, each after a comma, and an
object likewise.

Values with decimal numbers, or with strings that are no texts, have no written form here.  All
other values are plain, and both writers write a plain value in one of its written forms.
-/

namespace Disclosure

namespace Json

/-! ## Blanks -/

theorem skipSpace_cons_of_isSpace {c : Char} (hc : isSpace c = true) (cs : List Char) :
    skipSpace (c :: cs) = skipSpace cs := by
  simp [skipSpace, hc]

theorem skipSpace_cons_of_not_isSpace {c : Char} (hc : isSpace c = false) (cs : List Char) :
    skipSpace (c :: cs) = c :: cs := by
  simp [skipSpace, hc]

@[simp] theorem skipSpace_skipSpace (cs : List Char) : skipSpace (skipSpace cs) = skipSpace cs := by
  induction cs with
  | nil => rfl
  | cons c rest ih =>
      cases hc : isSpace c with
      | true => rw [skipSpace_cons_of_isSpace hc, ih]
      | false => rw [skipSpace_cons_of_not_isSpace hc, skipSpace_cons_of_not_isSpace hc]

theorem length_skipSpace_le (cs : List Char) : (skipSpace cs).length ≤ cs.length := by
  induction cs with
  | nil => exact Nat.le_refl _
  | cons c rest ih =>
      cases hc : isSpace c with
      | true =>
          rw [skipSpace_cons_of_isSpace hc, List.length_cons]
          omega
      | false => exact Nat.le_of_eq (congrArg _ (skipSpace_cons_of_not_isSpace hc rest))

theorem length_lt_of_skipSpace {cs rest : List Char} {c : Char} (h : skipSpace cs = c :: rest) :
    rest.length < cs.length := by
  have hle := length_skipSpace_le cs
  rw [h, List.length_cons] at hle
  omega

@[simp] theorem skipSpace_newLine (level : Nat) (cs : List Char) :
    skipSpace (newLine level cs) = skipSpace cs := by
  have hblanks : ∀ n, skipSpace (List.replicate n ' ' ++ cs) = skipSpace cs := by
    intro n
    induction n with
    | zero => rfl
    | succ n ih =>
        rw [List.replicate_succ, List.cons_append, skipSpace_cons_of_isSpace rfl, ih]
  rw [newLine, skipSpace_cons_of_isSpace rfl, hblanks]

/-! ## Written forms -/

/-- What stands in front does not go on with a number. -/
def Delimited : List Char → Prop
  | [] => True
  | c :: _ => isSpace c = true ∨ c = ',' ∨ c = ']' ∨ c = '\x7d'

def WrittenKey (k : Option String) (cs rest : List Char) : Prop :=
  ∃ s t, k = some s ∧ skipSpace cs = writeText s.toList t ∧ skipSpace t = ':' :: rest

mutual

/-- The characters start with a written form of the value. -/
def Written : Json → List Char → List Char → Prop
  | .null, cs, rest => skipSpace cs = 'n' :: 'u' :: 'l' :: 'l' :: rest
  | .bool true, cs, rest => skipSpace cs = 't' :: 'r' :: 'u' :: 'e' :: rest
  | .bool false, cs, rest => skipSpace cs = 'f' :: 'a' :: 'l' :: 's' :: 'e' :: rest
  | .int n, cs, rest => skipSpace cs = intDigits n ++ rest ∧ Delimited rest
  | .decimal _, _, _ => False
  | .str none, _, _ => False
  | .str (some s), cs, rest => skipSpace cs = writeText s.toList rest
  | .arr [], cs, rest => ∃ t, skipSpace cs = '[' :: t ∧ skipSpace t = ']' :: rest
  | .arr (j :: items), cs, rest =>
      ∃ t u, skipSpace cs = '[' :: t ∧ Written j t u ∧ WrittenItems items u rest
  | .obj [], cs, rest => ∃ t, skipSpace cs = '\x7b' :: t ∧ skipSpace t = '\x7d' :: rest
  | .obj ((k, j) :: members), cs, rest =>
      ∃ t u v, skipSpace cs = '\x7b' :: t ∧ WrittenKey k t u ∧ Written j u v ∧
        WrittenMembers members v rest

def WrittenItems : List Json → List Char → List Char → Prop
  | [], cs, rest => skipSpace cs = ']' :: rest
  | j :: items, cs, rest =>
      ∃ t u, skipSpace cs = ',' :: t ∧ Written j t u ∧ WrittenItems items u rest

def WrittenMembers : List (Option String × Json) → List Char → List Char → Prop
  | [], cs, rest => skipSpace cs = '\x7d' :: rest
  | (k, j) :: members, cs, rest =>
      ∃ t u v, skipSpace cs = ',' :: t ∧ WrittenKey k t u ∧ Written j u v ∧
        WrittenMembers members v rest

end

theorem written_iff_of_skipSpace_eq {j : Json} {cs cs' rest : List Char}
    (h : skipSpace cs = skipSpace cs') : Written j cs rest ↔ Written j cs' rest := by
  cases j with
  | null => rw [Written, Written, h]
  | bool b => cases b <;> rw [Written, Written, h]
  | int n => rw [Written, Written, h]
  | decimal d => rw [Written, Written]
  | str s => cases s <;> simp only [Written, h]
  | arr items => cases items <;> simp only [Written, h]
  | obj members => cases members <;> simp only [Written, h]

/-! ## Plain values -/

/-- A value without decimal numbers, all of whose strings are texts. -/
inductive Plain : Json → Prop where
  | null : Plain .null
  | bool (b : Bool) : Plain (.bool b)
  | int (n : Int) : Plain (.int n)
  | text (s : String) : Plain (.str (some s))
  | arr {items : List Json} (h : ∀ j ∈ items, Plain j) : Plain (.arr items)
  | obj {members : List (Option String × Json)} (hkey : ∀ m ∈ members, m.1.isSome = true)
      (h : ∀ m ∈ members, Plain m.2) : Plain (.obj members)

/-! ## The writers -/

theorem exists_toDigits_eq_cons (n : Nat) :
    ∃ c ds, Nat.toDigits 10 n = c :: ds ∧ c.isDigit = true := by
  obtain ⟨c, ds, hds⟩ := List.exists_cons_of_ne_nil (Nat.toDigits_ne_nil (n := n) (b := 10))
  have hc : c ∈ Nat.toDigits 10 n := by simp [hds]
  exact ⟨c, ds, hds, Nat.isDigit_of_mem_toDigits (by decide) (by decide) hc⟩

theorem exists_intDigits_eq_cons (n : Int) :
    ∃ c ds, intDigits n = c :: ds ∧ (c = '-' ∨ c.isDigit = true) := by
  cases n with
  | negSucc n => exact ⟨'-', _, rfl, Or.inl rfl⟩
  | ofNat n =>
      obtain ⟨c, ds, hds, hc⟩ := exists_toDigits_eq_cons n
      exact ⟨c, ds, hds, Or.inr hc⟩

theorem ne_of_isDigit {c d : Char} (hc : c.isDigit = true) (hd : d.isDigit = false) : c ≠ d := by
  rintro rfl
  rw [hc] at hd
  cases hd

theorem isSpace_eq_false_of_isDigit {c : Char} (hc : c.isDigit = true) : isSpace c = false := by
  have hne : ∀ d : Char, d.isDigit = false → c ≠ d := fun d hd => ne_of_isDigit hc hd
  simp [isSpace, hne]

theorem skipSpace_intDigits (n : Int) (rest : List Char) :
    skipSpace (intDigits n ++ rest) = intDigits n ++ rest := by
  obtain ⟨c, ds, hds, hc⟩ := exists_intDigits_eq_cons n
  rw [hds, List.cons_append]
  cases hc with
  | inl hsign => exact skipSpace_cons_of_not_isSpace (hsign ▸ rfl) _
  | inr hdigit => exact skipSpace_cons_of_not_isSpace (isSpace_eq_false_of_isDigit hdigit) _

theorem writtenKey_writeString {k : Option String} (hk : k.isSome = true) (rest : List Char) :
    WrittenKey k (writeString k (':' :: rest)) rest := by
  obtain ⟨s, rfl⟩ := Option.isSome_iff_exists.1 hk
  exact ⟨s, _, rfl, skipSpace_cons_of_not_isSpace rfl _, skipSpace_cons_of_not_isSpace rfl _⟩

theorem delimited_writeItems (items : List Json) (rest : List Char) :
    Delimited (writeItems items (']' :: rest)) := by
  cases items <;> simp [writeItems, Delimited]

theorem delimited_writeMembers (members : List (Option String × Json)) (rest : List Char) :
    Delimited (writeMembers members ('\x7d' :: rest)) := by
  rcases members with - | ⟨⟨k, j⟩, members⟩ <;> simp [writeMembers, Delimited]

mutual

/-- `write` writes a plain value in a written form. -/
theorem written_write : ∀ {j : Json}, j.Plain → ∀ {rest : List Char}, Delimited rest →
    Written j (j.write rest) rest
  | .null, _, _, _ => skipSpace_cons_of_not_isSpace rfl _
  | .bool true, _, _, _ => skipSpace_cons_of_not_isSpace rfl _
  | .bool false, _, _, _ => skipSpace_cons_of_not_isSpace rfl _
  | .int n, _, _, hrest => ⟨skipSpace_intDigits n _, hrest⟩
  | .str (some _), _, _, _ => skipSpace_cons_of_not_isSpace rfl _
  | .arr [], _, _, _ =>
      ⟨_, skipSpace_cons_of_not_isSpace rfl _, skipSpace_cons_of_not_isSpace rfl _⟩
  | .arr (j :: items), .arr h, rest, _ => by
      rw [write]
      refine ⟨_, writeItems items (']' :: rest), skipSpace_cons_of_not_isSpace rfl _, ?_, ?_⟩
      · exact written_write (h j List.mem_cons_self) (delimited_writeItems items rest)
      · exact writtenItems_writeItems (fun j hj => h j (List.mem_cons_of_mem _ hj)) rest
  | .obj [], _, _, _ =>
      ⟨_, skipSpace_cons_of_not_isSpace rfl _, skipSpace_cons_of_not_isSpace rfl _⟩
  | .obj ((k, j) :: members), .obj hkey h, rest, _ => by
      rw [write]
      refine ⟨_, _, writeMembers members ('\x7d' :: rest), skipSpace_cons_of_not_isSpace rfl _,
        writtenKey_writeString (hkey _ List.mem_cons_self) _, ?_, ?_⟩
      · exact written_write (h _ List.mem_cons_self) (delimited_writeMembers members rest)
      · exact writtenMembers_writeMembers (fun m hm => hkey m (List.mem_cons_of_mem _ hm))
          (fun m hm => h m (List.mem_cons_of_mem _ hm)) rest

theorem writtenItems_writeItems : ∀ {items : List Json}, (∀ j ∈ items, j.Plain) →
    ∀ rest : List Char, WrittenItems items (writeItems items (']' :: rest)) rest
  | [], _, _ => skipSpace_cons_of_not_isSpace rfl _
  | j :: items, h, rest => by
      rw [writeItems]
      refine ⟨_, writeItems items (']' :: rest), skipSpace_cons_of_not_isSpace rfl _, ?_, ?_⟩
      · exact written_write (h j List.mem_cons_self) (delimited_writeItems items rest)
      · exact writtenItems_writeItems (fun j hj => h j (List.mem_cons_of_mem _ hj)) rest

theorem writtenMembers_writeMembers : ∀ {members : List (Option String × Json)},
    (∀ m ∈ members, m.1.isSome = true) → (∀ m ∈ members, m.2.Plain) →
    ∀ rest : List Char, WrittenMembers members (writeMembers members ('\x7d' :: rest)) rest
  | [], _, _, _ => skipSpace_cons_of_not_isSpace rfl _
  | (k, j) :: members, hkey, h, rest => by
      rw [writeMembers]
      refine ⟨_, _, writeMembers members ('\x7d' :: rest), skipSpace_cons_of_not_isSpace rfl _,
        writtenKey_writeString (hkey _ List.mem_cons_self) _, ?_, ?_⟩
      · exact written_write (h _ List.mem_cons_self) (delimited_writeMembers members rest)
      · exact writtenMembers_writeMembers (fun m hm => hkey m (List.mem_cons_of_mem _ hm))
          (fun m hm => h m (List.mem_cons_of_mem _ hm)) rest

end

theorem delimited_newLine (level : Nat) (cs : List Char) : Delimited (newLine level cs) :=
  Or.inl rfl

theorem delimited_writePrettyItems (level : Nat) (items : List Json) {rest : List Char}
    (hrest : Delimited rest) : Delimited (writePrettyItems level items rest) := by
  cases items with
  | nil => exact hrest
  | cons j items => exact Or.inr (Or.inl rfl)

theorem delimited_writePrettyMembers (level : Nat) (members : List (Option String × Json))
    {rest : List Char} (hrest : Delimited rest) :
    Delimited (writePrettyMembers level members rest) := by
  cases members with
  | nil => exact hrest
  | cons m members => exact Or.inr (Or.inl rfl)

theorem Written.newLine {j : Json} {cs rest : List Char} (h : Written j cs rest) (level : Nat) :
    Written j (newLine level cs) rest :=
  (written_iff_of_skipSpace_eq (skipSpace_newLine level cs)).2 h

theorem Written.space {j : Json} {cs rest : List Char} (h : Written j cs rest) :
    Written j (' ' :: cs) rest :=
  (written_iff_of_skipSpace_eq (skipSpace_cons_of_isSpace rfl cs)).2 h

theorem WrittenKey.newLine {k : Option String} {cs rest : List Char} (h : WrittenKey k cs rest)
    (level : Nat) : WrittenKey k (newLine level cs) rest := by
  rw [WrittenKey, skipSpace_newLine]
  exact h

mutual

theorem written_writePretty : ∀ {j : Json}, j.Plain → ∀ (level : Nat) {rest : List Char},
    Delimited rest → Written j (writePretty level j rest) rest
  | .arr (j :: items), .arr h, level, rest, _ => by
      rw [writePretty]
      refine ⟨_, writePrettyItems (level + 1) items (newLine level (']' :: rest)),
        skipSpace_cons_of_not_isSpace rfl _, ?_, ?_⟩
      · exact (written_writePretty (h j List.mem_cons_self) (level + 1)
          (delimited_writePrettyItems _ items (delimited_newLine _ _))).newLine _
      · exact writtenItems_writePrettyItems (fun j hj => h j (List.mem_cons_of_mem _ hj)) level rest
  | .obj ((k, j) :: members), .obj hkey h, level, rest, _ => by
      rw [writePretty]
      refine ⟨_, _, writePrettyMembers (level + 1) members (newLine level ('\x7d' :: rest)),
        skipSpace_cons_of_not_isSpace rfl _,
        (writtenKey_writeString (hkey _ List.mem_cons_self) _).newLine _, ?_, ?_⟩
      · exact (written_writePretty (h _ List.mem_cons_self) (level + 1)
          (delimited_writePrettyMembers _ members (delimited_newLine _ _))).space
      · exact writtenMembers_writePrettyMembers (fun m hm => hkey m (List.mem_cons_of_mem _ hm))
          (fun m hm => h m (List.mem_cons_of_mem _ hm)) level rest
  | .null, h, _, _, hrest => written_write h hrest
  | .bool _, h, _, _, hrest => written_write h hrest
  | .int _, h, _, _, hrest => written_write h hrest
  | .str _, h, _, _, hrest => written_write h hrest
  | .arr [], h, _, _, hrest => written_write h hrest
  | .obj [], h, _, _, hrest => written_write h hrest

theorem writtenItems_writePrettyItems : ∀ {items : List Json}, (∀ j ∈ items, j.Plain) →
    ∀ (level : Nat) (rest : List Char),
      WrittenItems items (writePrettyItems (level + 1) items (newLine level (']' :: rest))) rest
  | [], _, level, rest => skipSpace_newLine level (']' :: rest)
  | j :: items, h, level, rest => by
      rw [writePrettyItems]
      refine ⟨_, writePrettyItems (level + 1) items (newLine level (']' :: rest)),
        skipSpace_cons_of_not_isSpace rfl _, ?_, ?_⟩
      · exact (written_writePretty (h j List.mem_cons_self) (level + 1)
          (delimited_writePrettyItems _ items (delimited_newLine _ _))).newLine _
      · exact writtenItems_writePrettyItems (fun j hj => h j (List.mem_cons_of_mem _ hj)) level rest

theorem writtenMembers_writePrettyMembers : ∀ {members : List (Option String × Json)},
    (∀ m ∈ members, m.1.isSome = true) → (∀ m ∈ members, m.2.Plain) →
    ∀ (level : Nat) (rest : List Char), WrittenMembers members
      (writePrettyMembers (level + 1) members (newLine level ('\x7d' :: rest))) rest
  | [], _, _, level, rest => skipSpace_newLine level ('\x7d' :: rest)
  | (k, j) :: members, hkey, h, level, rest => by
      rw [writePrettyMembers]
      refine ⟨_, _, writePrettyMembers (level + 1) members (newLine level ('\x7d' :: rest)),
        skipSpace_cons_of_not_isSpace rfl _,
        (writtenKey_writeString (hkey _ List.mem_cons_self) _).newLine _, ?_, ?_⟩
      · exact (written_writePretty (h _ List.mem_cons_self) (level + 1)
          (delimited_writePrettyMembers _ members (delimited_newLine _ _))).space
      · exact writtenMembers_writePrettyMembers (fun m hm => hkey m (List.mem_cons_of_mem _ hm))
          (fun m hm => h m (List.mem_cons_of_mem _ hm)) level rest

end

end Json

end Disclosure
