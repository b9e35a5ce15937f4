import Disclosure.Codec.Report
import Disclosure.Proofs.Codec.Program

/-!
# Written reports are read back

The numbers in a report are natural numbers, and the reader takes 64 bits of each.  A report whose
numbers fit into them is read back from its text, whatever its names are.  A report is never nested
too deep.
-/

namespace Disclosure

open Json (Encodes)

theorem FlowKind.encodes (k : FlowKind) : Encodes ofJson? k.toJson k := by
  cases k <;> exact .text fun _ => rfl

namespace Violation

def Fits (v : Violation) : Prop := v.node < UInt64.size

instance (v : Violation) : Decidable v.Fits := inferInstanceAs (Decidable (_ < _))

theorem encodes {v : Violation} (h : v.Fits) : Encodes ofJson? v.toJson v := by
  have hkind := v.kind.encodes
  have hdeclared := v.declared.encodes
  have hactual := v.actual.encodes
  refine .record ⟨hkind.plain, Json.plain_nat _, v.target.encodes.plain, Json.plain_text _,
    hdeclared.plain, hactual.plain⟩ ?_
  rintro depth ⟨hk, -, -, -, hd, ha⟩
  simp [ofJson?, hkind.read_eq _ hk, Json.count?_nat h, hdeclared.read_eq _ hd,
    hactual.read_eq _ ha]

end Violation

namespace Tally

def Fits (t : Tally) : Prop :=
  t.arguments < UInt64.size ∧ t.results < UInt64.size ∧ t.assignments < UInt64.size

instance (t : Tally) : Decidable t.Fits := inferInstanceAs (Decidable (_ ∧ _))

theorem encodes {t : Tally} (h : t.Fits) : Encodes ofJson? t.toJson t := by
  obtain ⟨harguments, hresults, hassignments⟩ := h
  refine .record ⟨Json.plain_nat _, Json.plain_nat _, Json.plain_nat _⟩ ?_
  intro depth _
  simp [ofJson?, Json.count?_nat harguments, Json.count?_nat hresults,
    Json.count?_nat hassignments]

end Tally

namespace Report

/-- All numbers of the report fit into 64 bits. -/
structure Fits (r : Report) : Prop where
  violations : ∀ v ∈ r.violations, v.Fits
  tally : r.tally.Fits
  visits : r.visits < UInt64.size

theorem encodes {r : Report} (h : r.Fits) : Encodes ofJson? r.toJson r := by
  have hmethod : Encodes (fun _ j => Json.optional DeclId.ofJson? (some j))
      (.option DeclId.toJson r.method) r.method :=
    .option fun id _ => ⟨id.encodes, by simp [DeclId.toJson, Json.nat]⟩
  have hviolations : Encodes (Json.list? Violation.ofJson?) (.list Violation.toJson r.violations)
      r.violations := .list fun v hv => Violation.encodes (h.violations v hv)
  have htally := Tally.encodes h.tally
  refine .record ⟨hmethod.plain, hviolations.plain, htally.plain, Json.plain_nat _, .bool _⟩ ?_
  rintro depth ⟨hm, hv, ht, -⟩
  simp [ofJson?, hmethod.read_eq _ hm, hviolations.read_eq _ hv, htally.read_eq _ ht,
    Json.count?_nat h.visits]

theorem depth_toJson_le (r : Report) : r.toJson.depth ≤ 3 := by
  have hviolation (v : Violation) : v.toJson.depth = 1 := rfl
  have htally : r.tally.toJson.depth = 1 := rfl
  refine Json.depth_record_le_iff.2 ⟨?_, ?_, ?_, Nat.zero_le 2, Nat.zero_le 2⟩
  · cases r.method <;> exact Nat.zero_le 2
  · exact Json.depth_list_le_iff.2 fun v _ => Nat.le_of_eq (hviolation v)
  · exact Nat.le_succ_of_le (Nat.le_of_eq htally)

/-- A report whose numbers fit into 64 bits is read back from its text. -/
theorem parse_text {r : Report} (h : r.Fits) : parse r.text = some r := by
  have hdepth : r.toJson.depth ≤ Json.maxDepth := Nat.le_trans r.depth_toJson_le (by decide)
  exact ((encodes h).recovers hdepth).renderPretty

/-- The greatest numbers, and a name with a quote, a backslash, control characters and a character
outside the basic plane. -/
theorem parse_text_escaped :
    let r : Report := ⟨some ⟨4294967295⟩,
      [⟨.argument, 18446744073709551615, ⟨0⟩, "\"\\/\u0000\n\u001f\u007f𝄞", .safe, .forbidden⟩,
        ⟨.result, 0, ⟨1⟩, "", .unknown, .guarded⟩],
      ⟨18446744073709551615, 1, 0⟩, 18446744073709551615, false⟩
    r.Fits ∧ parse r.text = some r := by
  intro r
  have hfits : r.Fits := ⟨by decide, by decide, by decide⟩
  exact ⟨hfits, parse_text hfits⟩

end Report

end Disclosure
