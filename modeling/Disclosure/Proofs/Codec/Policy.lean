import Disclosure.Codec.Policy
import Disclosure.Proofs.Json.Reader

/-!
# Written policies are read back

A policy may be written in part.  What a written policy does not give has its standard value, and
whatever it gives besides is skipped; a policy that is written as a whole is the case in which
everything is given.

A policy that can be read is refused only for a fault of its own: a blank name, or a bound of zero.
-/

namespace Disclosure

open Json (Encodes Gives)

/-! ## Policies that are given in part -/

namespace Marks

def replace (m : Marks) (names : Mark → Option String) : Marks :=
  ⟨(names .safe).getD m.safe, (names .guarded).getD m.guarded,
    (names .forbidden).getD m.forbidden⟩

def fieldsOf (names : Mark → Option String) : List (String × Option Json) :=
  [("safe", (names .safe).map .text), ("unsafe", (names .guarded).map .text),
    ("do_not_log", (names .forbidden).map .text)]

/-- A field gives some of the names: it is missing and gives none, or it is an object that gives
them. -/
inductive GivenBy (names : Mark → Option String) : Option Json → Prop where
  | missing (h : ∀ mark, names mark = none) : GivenBy names none
  | object {members : List (Option String × Json)} (h : Gives (fieldsOf names) members) :
      GivenBy names (some (.obj members))

theorem GivenBy.read_eq {names : Mark → Option String} {j : Option Json} (h : GivenBy names j)
    (depth : Nat) :
    Json.withDefault standard (ofJson? (depth + 1)) j = some (standard.replace names) := by
  cases h with
  | missing h => simp [Json.withDefault, replace, h]
  | @object members h =>
      have hvalues : Json.knownMembers? [Mark.safe.text, Mark.guarded.text, Mark.forbidden.text]
          members = some ((fieldsOf names).map Prod.snd) := h.knownMembers? rfl (by decide)
      rw [Json.withDefault]
      simp [ofJson?, Json.partialFields?, hvalues, fieldsOf, replace,
        Json.withDefault_map Json.text?_text]

theorem givenBy_toJson (m : Marks) : GivenBy (fun mark => some (m.name mark)) (some m.toJson) :=
  .object (Json.gives_record [("safe", .text m.safe), ("unsafe", .text m.guarded),
    ("do_not_log", .text m.forbidden)])

end Marks

namespace Policy

/-- The fields of a policy that are given. -/
structure Settings where
  names : Mark → Option String
  maxVisits : Option UInt64

namespace Settings

def ofPolicy (p : Policy) : Settings := ⟨fun mark => some (p.marks.name mark), some p.maxVisits⟩

/-- The policy `p` with the given fields replaced. -/
def applyTo (given : Settings) (p : Policy) : Policy :=
  ⟨p.marks.replace given.names, given.maxVisits.getD p.maxVisits⟩

def GivenBy (given : Settings) (members : List (Option String × Json)) : Prop :=
  ∃ marks, Marks.GivenBy given.names marks ∧
    Gives [("annotations", marks), ("max_iterations", given.maxVisits.map fun n => .nat n.toNat)]
      members

theorem GivenBy.read_eq {given : Settings} {members : List (Option String × Json)}
    (h : given.GivenBy members) (depth : Nat) :
    ofJson? (depth + 2) (.obj members) = some (given.applyTo standard) := by
  obtain ⟨marks, hmarks, hgives⟩ := h
  have hvalues : Json.knownMembers? ["annotations", "max_iterations"] members =
      some [marks, given.maxVisits.map fun n => .nat n.toNat] :=
    hgives.knownMembers? rfl (by decide)
  have hnames : Json.withDefault standard.marks (Marks.ofJson? (depth + 1)) marks =
      some (standard.marks.replace given.names) := hmarks.read_eq depth
  simp [ofJson?, Json.partialFields?, hvalues, hnames, applyTo,
    Json.withDefault_map Json.uint64?_nat]

theorem givenBy_ofPolicy (p : Policy) : (ofPolicy p).GivenBy
    [(some "annotations", p.marks.toJson), (some "max_iterations", .nat p.maxVisits.toNat)] :=
  ⟨_, p.marks.givenBy_toJson, Json.gives_record [("annotations", p.marks.toJson),
    ("max_iterations", .nat p.maxVisits.toNat)]⟩

end Settings

/-! ## Policies that are written as a whole -/

theorem encodes (p : Policy) : Encodes ofJson? p.toJson p := by
  have hmarks : p.marks.toJson.Plain :=
    Json.plain_record ⟨Json.plain_text _, Json.plain_text _, Json.plain_text _⟩
  refine .record ⟨hmarks, Json.plain_nat _⟩ ?_
  rintro depth ⟨hdepth, -⟩
  cases depth with
  | zero => exact absurd hdepth (Nat.not_succ_le_zero _)
  | succ depth => exact (Settings.givenBy_ofPolicy p).read_eq depth

theorem depth_toJson (p : Policy) : p.toJson.depth = 2 := rfl

/-! ## Faults -/

theorem validate_eq_ok_iff {p : Policy} : p.validate = .ok () ↔
    (∀ mark, ∃ c ∈ (p.marks.name mark).toList, Text.isBlankChar c = false) ∧ 0 < p.maxVisits := by
  have hshown (s : String) :
      (∃ c ∈ s.toList, Text.isBlankChar c = false) ↔ ¬ Text.isBlank s = true := by
    simp [Text.isBlank]
  have hmarks : (∀ mark, ¬ Text.isBlank (p.marks.name mark) = true) ↔
      ¬ Text.isBlank p.marks.safe = true ∧ ¬ Text.isBlank p.marks.guarded = true ∧
        ¬ Text.isBlank p.marks.forbidden = true := by
    constructor
    · exact fun h => ⟨h .safe, h .guarded, h .forbidden⟩
    · rintro ⟨hsafe, hguarded, hforbidden⟩ (- | - | -)
      · exact hsafe
      · exact hguarded
      · exact hforbidden
  simp only [hshown, hmarks, UInt64.pos_iff_ne_zero]
  unfold validate
  split_ifs with hsafe hguarded hforbidden hbound <;> simp [*]

theorem parse_of_decode {s : String} {p : Policy} (h : Json.decode ofJson? s = some p) :
    parse s = p.validate.map fun _ => p := by
  rw [parse, h]

theorem parse_eq_ok_iff {s : String} {p : Policy} :
    parse s = .ok p ↔ Json.decode ofJson? s = some p ∧ p.validate = .ok () := by
  cases hread : Json.decode ofJson? s with
  | none => simp [parse, hread]
  | some q =>
      rw [parse_of_decode hread, Option.some.injEq]
      cases hvalid : q.validate with
      | error e =>
          constructor
          · intro h
            cases h
          · rintro ⟨rfl, h⟩
            rw [hvalid] at h
            cases h
      | ok u =>
          constructor
          · intro h
            cases h
            exact ⟨rfl, hvalid⟩
          · rintro ⟨rfl, -⟩
            rfl

/-- A written policy, with or without blanks, is read back if it is valid and else refused for its
own fault.  An object that gives some of the fields, whatever else it holds, is read as the standard
policy with these fields replaced.  A policy is accepted exactly if it can be read, each of its
names has a character that is not blank, and its bound is positive. -/
theorem parse_exact :
    (∀ p : Policy, ∀ s ∈ [p.toJson.render, p.toJson.renderPretty],
      (p.validate = .ok () → parse s = .ok p) ∧ ∀ e, p.validate = .error e → parse s = .error e) ∧
    (∀ (given : Settings) (members : List (Option String × Json)) (s : String),
      given.GivenBy members → Json.parse s = some (.obj members) →
        Json.decode ofJson? s = some (given.applyTo standard)) ∧
    ∀ (s : String) (p : Policy), parse s = .ok p ↔ Json.decode ofJson? s = some p ∧
      (∀ mark, ∃ c ∈ (p.marks.name mark).toList, Text.isBlankChar c = false) ∧ 0 < p.maxVisits := by
  refine ⟨?_, ?_, ?_⟩
  · intro p s hs
    have hrecovers := p.encodes.recovers (by rw [depth_toJson]; decide)
    have hread : Json.decode ofJson? s = some p := by
      simp only [List.mem_cons, List.not_mem_nil, or_false] at hs
      rcases hs with rfl | rfl
      · exact hrecovers.render
      · exact hrecovers.renderPretty
    rw [parse_of_decode hread]
    constructor
    · intro h
      rw [h]
      rfl
    · intro e h
      rw [h]
      rfl
  · intro given members s hgiven hs
    have hlevels : Json.maxDepth = 125 + 2 := rfl
    rw [Json.decode, hs, Option.bind_some, hlevels]
    exact hgiven.read_eq 125
  · intro s p
    rw [parse_eq_ok_iff, validate_eq_ok_iff]

/-- Of several faults the first one is reported.  An object with unknown keys, one of them known
elsewhere, gives a name and the bound. -/
theorem parse_exact_partial :
    let p : Policy := ⟨⟨"\"safe\"\n", "\u2003\t", ""⟩, 0⟩
    let j : Json := .record [("safe", .null), ("max_iterations", .nat 7),
      ("annotations", .record [("x", .arr []), ("unsafe", .text "\"A\"\n")])]
    let q : Policy := ⟨⟨standard.marks.safe, "\"A\"\n", standard.marks.forbidden⟩, 7⟩
    parse p.toJson.render = .error (.blankName .guarded) ∧
      Json.decode ofJson? j.renderPretty = some q ∧ parse j.renderPretty = .ok q := by
  intro p j q
  obtain ⟨hwhole, hpartial, hvalid⟩ := parse_exact
  have hfault : p.validate = .error (.blankName .guarded) := by decide
  have hplain : j.Plain := Json.plain_record
    ⟨.null, Json.plain_nat 7, Json.plain_record ⟨.arr (by simp), Json.plain_text _⟩⟩
  have hgiven : Settings.GivenBy
      ⟨fun mark => if mark = .guarded then some "\"A\"\n" else none, some 7⟩ _ :=
    ⟨_, .object ⟨[("x", .arr [])], by decide, .swap _ _ _⟩,
      [("safe", .null)], by decide, List.reverse_perm _⟩
  have hread : Json.decode ofJson? j.renderPretty = some q :=
    hpartial _ _ _ hgiven hplain.parse_render.2
  refine ⟨(hwhole p _ List.mem_cons_self).2 _ hfault, hread, (hvalid _ q).2 ⟨hread, ?_, by decide⟩⟩
  rintro (- | - | -)
  · exact ⟨'c', by decide, by decide⟩
  · exact ⟨'A', by decide, by decide⟩
  · exact ⟨'c', by decide, by decide⟩

end Policy

end Disclosure
