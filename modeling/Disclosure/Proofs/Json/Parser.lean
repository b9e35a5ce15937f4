import Disclosure.Proofs.Json.Grammar
import Mathlib.Data.List.Forall2
import Mathlib.Data.List.TakeDrop

/-!
# Reading what is written

Whatever starts with a written form of a value is read as this value, and what follows it is left.
The reader takes at most two steps for each character that it consumes, so the steps that `parse`
allows are enough.

A plain value is therefore read back from its text, from the text without blanks as well as from the
one with a line for each member.
-/

namespace Disclosure

namespace Json

/-! ## Strings -/

/-- The piece stands for the character: it is the character, or its number written as an escape. -/
inductive Piece.Shows : Piece → Char → Prop where
  | char (c : Char) : Shows (.char c) c
  | unit {c : Char} (hc : c.toNat < 32) : Shows (.unit c.toNat) c

theorem assemble_unit {n : Nat} (hn : n < 0xD800) (ps : List Piece) :
    assemble (.unit n :: ps) = (assemble ps).map (Char.ofNat n :: ·) := by
  have hhigh : isHighSurrogate n = false := by
    simp only [isHighSurrogate, Bool.and_eq_false_iff, decide_eq_false_iff_not]
    omega
  have hlow : isLowSurrogate n = false := by
    simp only [isLowSurrogate, Bool.and_eq_false_iff, decide_eq_false_iff_not]
    omega
  rcases ps with - | ⟨p, ps⟩
  · simp [assemble, hhigh, hlow]
  · cases p <;> simp [assemble, hhigh, hlow]

theorem assemble_of_shows {ps : List Piece} {cs : List Char}
    (h : List.Forall₂ Piece.Shows ps cs) : assemble ps = some cs := by
  induction h with
  | nil => rfl
  | cons hfirst _ ih =>
      cases hfirst with
      | char c => simp [assemble, ih]
      | unit hc => simp [assemble_unit (Nat.lt_trans hc (by decide)), ih]

theorem hexUnit?_hexPair {n : Nat} (hn : n < 32) :
    hexUnit? '0' '0' (Nat.digitChar (n / 16 % 16)) (Nat.digitChar (n % 16)) = some n := by
  revert n
  decide

theorem readPieces_cons {c : Char} (hquote : c ≠ '"') (hslash : c ≠ '\\') (hc : ¬ c.toNat < 32)
    (cs : List Char) :
    readPieces (c :: cs) = (readPieces cs).map fun r => (.char c :: r.1, r.2) := by
  rw [readPieces]
  · rw [if_neg (by simp [hslash, hc])]
    cases readPieces cs <;> rfl
  all_goals simp_all

theorem exists_readPieces_escapeChar (c : Char) :
    ∃ p, p.Shows c ∧ ∀ cs, readPieces (escapeChar c ++ cs) =
      (readPieces cs).map fun r => (p :: r.1, r.2) := by
  -- a one-letter escape
  have hletter : ∀ e, e ≠ 'u' → escaped? e = some c → ∀ cs,
      readPieces (['\\', e] ++ cs) = (readPieces cs).map fun r => (.char c :: r.1, r.2) := by
    intro e hu he cs
    rw [List.cons_append, List.cons_append, List.nil_append, readPieces]
    · rw [he]
      cases readPieces cs <;> rfl
    · intro a b c d rest h
      simp_all
  unfold escapeChar
  split_ifs with hquote hslash hback htab hline hfeed hreturn hcontrol
  · exact ⟨_, .char c, hletter '"' (by decide) (by rw [hquote]; rfl)⟩
  · exact ⟨_, .char c, hletter '\\' (by decide) (by rw [hslash]; rfl)⟩
  · exact ⟨_, .char c, hletter 'b' (by decide) (by rw [hback]; rfl)⟩
  · exact ⟨_, .char c, hletter 't' (by decide) (by rw [htab]; rfl)⟩
  · exact ⟨_, .char c, hletter 'n' (by decide) (by rw [hline]; rfl)⟩
  · exact ⟨_, .char c, hletter 'f' (by decide) (by rw [hfeed]; rfl)⟩
  · exact ⟨_, .char c, hletter 'r' (by decide) (by rw [hreturn]; rfl)⟩
  · refine ⟨_, .unit hcontrol, fun cs => ?_⟩
    simp only [hexPair, List.cons_append, List.nil_append]
    rw [readPieces, hexUnit?_hexPair hcontrol]
    cases readPieces cs <;> rfl
  · exact ⟨_, .char c, readPieces_cons hquote hslash hcontrol⟩

theorem exists_readPieces (s rest : List Char) :
    ∃ ps, List.Forall₂ Piece.Shows ps s ∧
      readPieces (s.flatMap escapeChar ++ '"' :: rest) = some (ps, rest) := by
  induction s with
  | nil => exact ⟨[], .nil, rfl⟩
  | cons c cs ih =>
      obtain ⟨p, hp, hread⟩ := exists_readPieces_escapeChar c
      obtain ⟨ps, hps, hrest⟩ := ih
      refine ⟨p :: ps, .cons hp hps, ?_⟩
      rw [List.flatMap_cons, List.append_assoc, hread, hrest]
      rfl

theorem readString_writeText (s : String) (rest : List Char) :
    ∃ t, writeText s.toList rest = '"' :: t ∧ readString t = some (some s, rest) := by
  obtain ⟨ps, hps, hread⟩ := exists_readPieces s.toList rest
  refine ⟨_, rfl, ?_⟩
  rw [readString, hread]
  simp [assemble_of_shows hps]

/-! ## Integers -/

theorem digitsValue_toDigits (n : Nat) : digitsValue (Nat.toDigits 10 n) = n := by
  have hvalue : digitsValue (Nat.toDigits 10 n) = Nat.ofDigitChars 10 (Nat.toDigits 10 n) 0 := by
    simp only [digitsValue, Nat.ofDigitChars, Nat.mul_comm 10]
  rw [hvalue, Nat.ofDigitChars_ten_toDigits]

theorem head?_toDigits_ne_zero {n : Nat} (hn : 0 < n) : (Nat.toDigits 10 n).head? ≠ some '0' := by
  induction n using Nat.strongRecOn with
  | ind n ih =>
      by_cases hlt : n < 10
      · have hdigit : ∀ d < 10, 0 < d → [Nat.digitChar d].head? ≠ some '0' := by decide
        rw [Nat.toDigits_of_lt_base hlt]
        exact hdigit n hlt hn
      · rw [Nat.toDigits_of_base_le (by decide) (Nat.le_of_not_lt hlt),
          List.head?_append_of_ne_nil _ Nat.toDigits_ne_nil]
        exact ih (n / 10) (by omega) (by omega)

theorem readDigits_append {ds rest : List Char} (hne : ds ≠ [])
    (hds : ∀ d ∈ ds, d.isDigit = true) (hrest : ∀ c ∈ rest.head?, c.isDigit = false) :
    readDigits (ds ++ rest) = some (ds, rest) := by
  have hspan : (ds ++ rest).span Char.isDigit = (ds, rest) := by
    rw [List.span_eq_takeWhile_dropWhile, List.takeWhile_append_of_pos hds,
      List.dropWhile_append_of_pos hds]
    cases rest with
    | nil => simp
    | cons c rest => simp [hrest c rfl]
  rw [readDigits, hspan]
  cases ds with
  | nil => exact absurd rfl hne
  | cons d ds => rfl

theorem Delimited.head {rest : List Char} (h : Delimited rest) :
    ∀ c ∈ rest.head?, c.isDigit = false ∧ c ≠ '.' ∧ c ≠ 'e' ∧ c ≠ 'E' := by
  intro c hc
  cases rest with
  | nil => cases hc
  | cons d rest =>
      cases hc
      simp only [Delimited, isSpace, Bool.or_eq_true, decide_eq_true_eq, or_assoc] at h
      rcases h with rfl | rfl | rfl | rfl | rfl | rfl | rfl <;> decide

theorem readWhole_toDigits (n : Nat) {rest : List Char} (h : Delimited rest) :
    readWhole (Nat.toDigits 10 n ++ rest) = some (Nat.toDigits 10 n, rest) := by
  have hdigits : readDigits (Nat.toDigits 10 n ++ rest) = some (Nat.toDigits 10 n, rest) :=
    readDigits_append Nat.toDigits_ne_nil
      (fun d hd => Nat.isDigit_of_mem_toDigits (by decide) (by decide) hd)
      fun c hc => (h.head c hc).1
  rw [readWhole, hdigits]
  split
  · rename_i ds d rest' heq
    -- more than one digit, the first of them zero: then the number is zero, which has one digit
    simp only [Option.some.injEq, Prod.mk.injEq] at heq
    cases n with
    | zero => simp at heq
    | succ n => exact absurd (by rw [heq.1]; rfl) (head?_toDigits_ne_zero (Nat.succ_pos n))
  · rfl

theorem readFraction_of_delimited {rest : List Char} (h : Delimited rest) :
    readFraction rest = some (none, rest) := by
  unfold readFraction
  split
  · exact absurd rfl (h.head '.' rfl).2.1
  · rfl

theorem readExponent_of_delimited {rest : List Char} (h : Delimited rest) :
    readExponent rest = some (none, rest) := by
  unfold readExponent
  split
  · exact absurd rfl (h.head 'e' rfl).2.2.1
  · exact absurd rfl (h.head 'E' rfl).2.2.2
  · rfl

theorem readUnsigned_toDigits (negative : Bool) (n : Nat) {rest : List Char} (h : Delimited rest) :
    readUnsigned negative (Nat.toDigits 10 n ++ rest) =
      some (number negative (Nat.toDigits 10 n) none none, rest) := by
  simp [readUnsigned, readWhole_toDigits n h, readFraction_of_delimited h,
    readExponent_of_delimited h]

theorem readNumber_intDigits (n : Int) {rest : List Char} (h : Delimited rest) :
    readNumber (intDigits n ++ rest) = some (.int n, rest) := by
  cases n with
  | negSucc n =>
      rw [intDigits, List.cons_append, readNumber, readUnsigned_toDigits true _ h]
      simp only [number, digitsValue_toDigits]
      rfl
  | ofNat n =>
      have hplain : readNumber (Nat.toDigits 10 n ++ rest) =
          readUnsigned false (Nat.toDigits 10 n ++ rest) := by
        obtain ⟨c, ds, hds, hc⟩ := exists_toDigits_eq_cons n
        rw [hds, List.cons_append, readNumber]
        intro rest' heq
        exact ne_of_isDigit hc rfl (List.cons.inj heq).1
      rw [intDigits, hplain, readUnsigned_toDigits false _ h]
      simp only [number, digitsValue_toDigits]
      rfl

/-! ## Values -/

/-- The reader finds `a` at the front of the characters and leaves the rest, if it may take two
steps for each character that it consumes. -/
structure Reads {α : Type} (read : Nat → List Char → Option (α × List Char)) (a : α)
    (cs rest : List Char) : Prop where
  length_lt : rest.length < cs.length
  read_eq : ∀ fuel, 2 * cs.length ≤ fuel + 2 * rest.length → read fuel cs = some (a, rest)

theorem reads_of_succ {α : Type} {read : Nat → List Char → Option (α × List Char)} {a : α}
    {cs rest : List Char} (hlt : rest.length < cs.length)
    (h : ∀ fuel, 2 * cs.length ≤ fuel + 1 + 2 * rest.length → read (fuel + 1) cs = some (a, rest)) :
    Reads read a cs rest where
  length_lt := hlt
  read_eq fuel hfuel := by
    cases fuel with
    | zero => omega
    | succ fuel => exact h fuel hfuel

theorem Written.skipSpace_ne {j : Json} {cs rest : List Char} (h : Written j cs rest)
    (u : List Char) : skipSpace cs ≠ ']' :: u := by
  intro hcs
  cases j with
  | null => simp [Written, hcs] at h
  | bool b => cases b <;> simp [Written, hcs] at h
  | int n =>
      obtain ⟨c, ds, hds, hc⟩ := exists_intDigits_eq_cons n
      simp only [Written, hcs, hds, List.cons_append, List.cons.injEq] at h
      rw [← h.1.1] at hc
      revert hc
      decide
  | decimal d => simp [Written] at h
  | str s => cases s <;> simp [Written, hcs, writeText] at h
  | arr items => cases items <;> simp [Written, hcs] at h
  | obj members => cases members <;> simp [Written, hcs] at h

theorem reads_of_token {j : Json} {cs rest t : List Char} {c : Char} (hcs : skipSpace cs = c :: t)
    (hle : rest.length ≤ t.length) (hread : ∀ fuel, readValue (fuel + 1) cs = some (j, rest)) :
    Reads readValue j cs rest :=
  reads_of_succ (Nat.lt_of_le_of_lt hle (length_lt_of_skipSpace hcs)) fun fuel _ => hread fuel

theorem readValue_eq_readNumber {cs t : List Char} {c : Char} (hcs : skipSpace cs = c :: t)
    (hc : c = '-' ∨ c.isDigit = true) (fuel : Nat) :
    readValue (fuel + 1) cs = readNumber (c :: t) := by
  have hne : ∀ d : Char, d ≠ '-' → d.isDigit = false → c ≠ d := by
    intro d hsign hd
    cases hc with
    | inl h => exact fun heq => hsign (heq.symm.trans h)
    | inr h => exact ne_of_isDigit h hd
  rw [readValue, hcs]
  split
  · rename_i heq
    exact absurd (List.cons.inj heq).1 (hne '"' (by decide) rfl)
  · rename_i heq
    exact absurd (List.cons.inj heq).1 (hne '[' (by decide) rfl)
  · rename_i heq
    exact absurd (List.cons.inj heq).1 (hne '\x7b' (by decide) rfl)
  · rename_i heq
    exact absurd (List.cons.inj heq).1 (hne 'n' (by decide) rfl)
  · rename_i heq
    exact absurd (List.cons.inj heq).1 (hne 't' (by decide) rfl)
  · rename_i heq
    exact absurd (List.cons.inj heq).1 (hne 'f' (by decide) rfl)
  · rfl

theorem reads_int {n : Int} {cs rest : List Char} (h : Written (.int n) cs rest) :
    Reads readValue (.int n) cs rest := by
  obtain ⟨c, ds, hds, hc⟩ := exists_intDigits_eq_cons n
  have hcs : skipSpace cs = c :: (ds ++ rest) := by rw [h.1, hds, List.cons_append]
  refine reads_of_token hcs (by simp) fun fuel => ?_
  rw [readValue_eq_readNumber hcs hc, ← List.cons_append, ← hds, readNumber_intDigits n h.2]

theorem reads_text {s : String} {cs rest : List Char} (h : Written (.str (some s)) cs rest) :
    Reads readValue (.str (some s)) cs rest := by
  obtain ⟨t, ht, hread⟩ := readString_writeText s rest
  have hcs : skipSpace cs = '"' :: t := h.trans ht
  have hle : rest.length ≤ t.length := by
    have hlength := congrArg List.length ht
    simp only [writeText, List.length_cons, List.length_append] at hlength
    omega
  refine reads_of_token hcs hle fun fuel => ?_
  rw [readValue, hcs]
  simp [hread]

theorem WrittenKey.readString {k : Option String} {cs rest : List Char} (h : WrittenKey k cs rest) :
    ∃ q t, skipSpace cs = '"' :: q ∧ Json.readString q = some (k, t) ∧ skipSpace t = ':' :: rest ∧
      rest.length < cs.length := by
  obtain ⟨s, t, rfl, hcs, hcolon⟩ := h
  obtain ⟨q, hq, hread⟩ := readString_writeText s t
  have hlt := length_lt_of_skipSpace hcolon
  have hle := length_skipSpace_le cs
  simp only [hcs, writeText, List.length_cons, List.length_append] at hle
  exact ⟨q, t, hcs.trans hq, hread, hcolon, by omega⟩

mutual

theorem reads_of_written : ∀ {j : Json} {cs rest : List Char}, Written j cs rest →
    Reads readValue j cs rest
  | .null, _, _, h => reads_of_token h (Nat.le_add_right _ 3) fun fuel => by rw [readValue, h]; rfl
  | .bool true, _, _, h =>
      reads_of_token h (Nat.le_add_right _ 3) fun fuel => by rw [readValue, h]; rfl
  | .bool false, _, _, h =>
      reads_of_token h (Nat.le_add_right _ 4) fun fuel => by rw [readValue, h]; rfl
  | .int _, _, _, h => reads_int h
  | .str (some _), _, _, h => reads_text h
  | .arr [], cs, rest, ⟨t, hcs, hend⟩ => by
      refine reads_of_token hcs (Nat.le_of_lt (length_lt_of_skipSpace hend)) fun fuel => ?_
      rw [readValue, hcs]
      simp [hend]
  | .arr (j :: items), cs, rest, ⟨t, u, hcs, hj, hitems⟩ => by
      have hj' : Written j (skipSpace t) u :=
        (written_iff_of_skipSpace_eq (skipSpace_skipSpace t)).2 hj
      have hread := readsItems_of_written (reads_of_written hj') hitems
      have hlt := length_lt_of_skipSpace hcs
      have hle := length_skipSpace_le t
      have hrest := hread.length_lt
      refine reads_of_succ (by omega) fun fuel hfuel => ?_
      rw [readValue, hcs]
      simp only
      split
      · rename_i heq
        exact absurd heq (hj.skipSpace_ne _)
      · rw [hread.read_eq fuel (by omega)]
        rfl
  | .obj [], cs, rest, ⟨t, hcs, hend⟩ => by
      refine reads_of_token hcs (Nat.le_of_lt (length_lt_of_skipSpace hend)) fun fuel => ?_
      rw [readValue, hcs]
      simp [hend]
  | .obj ((k, j) :: members), cs, rest, ⟨t, u, v, hcs, hkey, hj, hmembers⟩ => by
      have hkey' : WrittenKey k (skipSpace t) u := by
        rw [WrittenKey, skipSpace_skipSpace]
        exact hkey
      have hread := readsMembers_of_written hkey' (reads_of_written hj) hmembers
      have hlt := length_lt_of_skipSpace hcs
      have hle := length_skipSpace_le t
      have hrest := hread.length_lt
      refine reads_of_succ (by omega) fun fuel hfuel => ?_
      rw [readValue, hcs]
      simp only
      split
      · rename_i heq
        obtain ⟨s, t', -, hquote, -⟩ := hkey
        rw [heq] at hquote
        cases hquote
      · rw [hread.read_eq fuel (by omega)]
        rfl

theorem readsItems_of_written : ∀ {items : List Json} {j : Json} {cs u rest : List Char},
    Reads readValue j cs u → WrittenItems items u rest → Reads readItems (j :: items) cs rest
  | [], j, cs, u, rest, hj, hend => by
      have hsign : skipSpace u = ']' :: rest := hend
      have hlt := hj.length_lt
      have hu := length_lt_of_skipSpace hsign
      refine reads_of_succ (by omega) fun fuel hfuel => ?_
      simp [readItems, hj.read_eq fuel (by omega), hsign]
  | next :: items, j, cs, u, rest, hj, ⟨t, v, hcomma, hnext, hitems⟩ => by
      have hlt := hj.length_lt
      have ht := length_lt_of_skipSpace hcomma
      have hread := readsItems_of_written (reads_of_written hnext) hitems
      have hrest := hread.length_lt
      refine reads_of_succ (by omega) fun fuel hfuel => ?_
      simp [readItems, hj.read_eq fuel (by omega), hcomma,
        hread.read_eq fuel (by omega)]

theorem readsMembers_of_written : ∀ {members : List (Option String × Json)} {k : Option String}
    {j : Json} {cs t u rest : List Char}, WrittenKey k cs t → Reads readValue j t u →
    WrittenMembers members u rest → Reads readMembers ((k, j) :: members) cs rest
  | [], k, j, cs, t, u, rest, hkey, hj, hend => by
      have hsign : skipSpace u = '\x7d' :: rest := hend
      have hlt := hj.length_lt
      have hu := length_lt_of_skipSpace hsign
      obtain ⟨q, t', hquote, hk, hcolon, ht⟩ := hkey.readString
      refine reads_of_succ (by omega) fun fuel hfuel => ?_
      simp [readMembers, hquote, hk, hcolon, hj.read_eq fuel (by omega), hsign]
  | (next, value) :: members, k, j, cs, t, u, rest, hkey, hj,
      ⟨t₁, u₁, v₁, hcomma, hnext, hvalue, hmembers⟩ => by
      have hlt := hj.length_lt
      have hu := length_lt_of_skipSpace hcomma
      have hread := readsMembers_of_written hnext (reads_of_written hvalue) hmembers
      have hrest := hread.length_lt
      obtain ⟨q, t', hquote, hk, hcolon, ht⟩ := hkey.readString
      refine reads_of_succ (by omega) fun fuel hfuel => ?_
      simp [readMembers, hquote, hk, hcolon, hj.read_eq fuel (by omega), hcomma,
        hread.read_eq fuel (by omega)]

end

/-- A text that is a written form of a value, with blanks after it, is read as the value. -/
theorem parse_of_written {j : Json} {s : String} {rest : List Char} (h : Written j s.toList rest)
    (hrest : skipSpace rest = []) : parse s = some j := by
  have hread := (reads_of_written h).read_eq (2 * s.toList.length + 2) (by omega)
  simp [parse, hread, hrest]

/-- A plain value is read back from either of its texts. -/
theorem Plain.parse_render {j : Json} (h : j.Plain) :
    parse j.render = some j ∧ parse j.renderPretty = some j := by
  have hend : Delimited [] := trivial
  constructor
  · have hwritten : Written j j.render.toList [] := by
      rw [render, String.toList_ofList]
      exact written_write h hend
    exact parse_of_written hwritten rfl
  · have hwritten : Written j j.renderPretty.toList [] := by
      rw [renderPretty, String.toList_ofList]
      exact written_writePretty h 0 hend
    exact parse_of_written hwritten rfl

end Json

end Disclosure
