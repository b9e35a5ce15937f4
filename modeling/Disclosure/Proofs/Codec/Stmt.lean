import Disclosure.Codec.Stmt
import Disclosure.Proofs.Codec.Expr
import Disclosure.Proofs.Program.Shape

/-!
# Written statements are read back

Statements and procedures without floating-point numbers are read back from the forms in which they
are written, and so from their texts where these are not nested too deep.  What is missing in a
statement is written as `null` and found missing again: no expression and no body is written so.
-/

namespace Disclosure

open Json (Encodes)

/-- No expression of the statement contains a floating-point number. -/
def Stmt.IsExact (s : Stmt) : Prop := s.every (fun _ => Expr.isExact) = true

instance (s : Stmt) : Decidable s.IsExact := inferInstanceAs (Decidable (_ = _))

def Procedure.IsExact (proc : Procedure) : Prop :=
  Stmt.everyIn (fun _ => Expr.isExact) proc.body = true

instance (proc : Procedure) : Decidable proc.IsExact := inferInstanceAs (Decidable (_ = _))

/-! ## Statements -/

theorem Stmt.encodes_record {s : Stmt} {name : String} {fields : List (String × Json)}
    (hname : name ∉ ["Expr", "Return", "Throw", "Block"])
    (hplain : fields.Forall fun f => f.2.Plain)
    (hread : ∀ depth, (fields.Forall fun f => f.2.depth ≤ depth) →
      ofRecord? (depth + 1) name (.record fields) = some s) :
    Encodes ofJson? (.variant name (.record fields)) s := by
  simp only [List.mem_cons, List.not_mem_nil, or_false, not_or] at hname
  obtain ⟨hexpr, hreturn, hthrow, hblock⟩ := hname
  refine .variant_record hplain fun depth h => ?_
  rw [← hread depth h]
  simp [Json.variant, ofJson?, Json.record]

theorem Expr.encodes_option_of_all {o : Option Expr} (h : o.all Expr.isExact = true) :
    Encodes (fun depth j => Json.optional (ofJson? depth) (some j)) (optionToJson o) o := by
  refine encodes_option fun e he => ?_
  cases he
  exact Expr.encodes h

theorem Stmt.encodes_list {body : List Stmt} (h : ∀ s ∈ body, Encodes ofJson? s.toJson s) :
    Encodes listOfJson? (.arr (listToJson body)) body :=
  .arr (by rw [listToJson]) (fun _ _ => by rw [listToJson]) (fun _ _ => by rw [listOfJson?]) h

theorem Stmt.encodes_option {o : Option (List Stmt)}
    (h : ∀ body ∈ o, ∀ s ∈ body, Encodes ofJson? s.toJson s) :
    Encodes (fun depth j => Json.optional (listOfJson? depth) (some j)) (optionToJson o) o := by
  have hwritten : optionToJson o = .option (fun body => .arr (listToJson body)) o := by
    cases o <;> simp [optionToJson, Json.option]
  rw [hwritten]
  exact .option fun body hbody => ⟨encodes_list (h body hbody), by simp⟩

theorem Case.encodes_list {cases : List Case} (h : ∀ c ∈ cases, Encodes ofJson? c.toJson c) :
    Encodes listOfJson? (.arr (listToJson cases)) cases :=
  .arr (by rw [listToJson]) (fun _ _ => by rw [listToJson]) (fun _ _ => by rw [listOfJson?]) h

mutual

theorem Stmt.encodes : ∀ {s : Stmt}, s.every (fun _ => Expr.isExact) = true →
    Encodes Stmt.ofJson? s.toJson s
  | .declare var init, h => by
      rw [Stmt.every] at h
      have hinit := Expr.encodes_option_of_all h
      rw [Stmt.toJson]
      refine Stmt.encodes_record (by decide) ⟨var.encodes.plain, hinit.plain⟩ ?_
      rintro depth ⟨-, hi⟩
      simp [Stmt.ofRecord?, hinit.read_eq _ hi]
  | .eval e, h => by
      rw [Stmt.every] at h
      rw [Stmt.toJson]
      exact (Expr.encodes h).variant fun _ h => by simp [Json.variant, Stmt.ofJson?, h]
  | .branch condition thenBody elseBody, h => by
      rw [Stmt.every, Bool.and_eq_true, Bool.and_eq_true] at h
      have hcondition := Expr.encodes h.1.1
      have hthen := Stmt.encodes_list (Stmt.encodes_of_mem h.1.2)
      have helse := Stmt.encodes_option (Stmt.encodes_of_mem_option h.2)
      rw [Stmt.toJson]
      refine Stmt.encodes_record (by decide) ⟨hcondition.plain, hthen.plain, helse.plain⟩ ?_
      rintro depth ⟨hc, ht, he⟩
      simp [Stmt.ofRecord?, hcondition.read_eq _ hc, hthen.read_eq _ ht, helse.read_eq _ he]
  | .loop condition body, h => by
      rw [Stmt.every, Bool.and_eq_true] at h
      have hcondition := Expr.encodes h.1
      have hbody := Stmt.encodes_list (Stmt.encodes_of_mem h.2)
      rw [Stmt.toJson]
      refine Stmt.encodes_record (by decide) ⟨hcondition.plain, hbody.plain⟩ ?_
      rintro depth ⟨hc, hb⟩
      simp [Stmt.ofRecord?, hcondition.read_eq _ hc, hbody.read_eq _ hb]
  | .select selector cases default, h => by
      rw [Stmt.every, Bool.and_eq_true, Bool.and_eq_true] at h
      have hselector := Expr.encodes h.1.1
      have hcases := Case.encodes_list (Case.encodes_of_mem h.1.2)
      have hdefault := Stmt.encodes_option (Stmt.encodes_of_mem_option h.2)
      rw [Stmt.toJson]
      refine Stmt.encodes_record (by decide) ⟨hselector.plain, hcases.plain, hdefault.plain⟩ ?_
      rintro depth ⟨hs, hc, hd⟩
      simp [Stmt.ofRecord?, hselector.read_eq _ hs, hcases.read_eq _ hc, hdefault.read_eq _ hd]
  | .leave value, h => by
      rw [Stmt.every] at h
      have hvalue := Expr.encodes_option_of_all h
      rw [Stmt.toJson]
      exact hvalue.variant fun _ h => by simp [Json.variant, Stmt.ofJson?, h]
  | .raise value, h => by
      rw [Stmt.every] at h
      rw [Stmt.toJson]
      exact (Expr.encodes h).variant fun _ h => by simp [Json.variant, Stmt.ofJson?, h]
  | .check condition detail, h => by
      rw [Stmt.every, Bool.and_eq_true] at h
      have hcondition := Expr.encodes h.1
      have hdetail := Expr.encodes_option_of_all h.2
      rw [Stmt.toJson]
      refine Stmt.encodes_record (by decide) ⟨hcondition.plain, hdetail.plain⟩ ?_
      rintro depth ⟨hc, hd⟩
      simp [Stmt.ofRecord?, hcondition.read_eq _ hc, hdetail.read_eq _ hd]
  | .locked lock body, h => by
      rw [Stmt.every, Bool.and_eq_true] at h
      have hlock := Expr.encodes h.1
      have hbody := Stmt.encodes_list (Stmt.encodes_of_mem h.2)
      rw [Stmt.toJson]
      refine Stmt.encodes_record (by decide) ⟨hlock.plain, hbody.plain⟩ ?_
      rintro depth ⟨hl, hb⟩
      simp [Stmt.ofRecord?, hlock.read_eq _ hl, hbody.read_eq _ hb]
  | .block body, h => by
      rw [Stmt.every] at h
      have hbody := Stmt.encodes_list (Stmt.encodes_of_mem h)
      rw [Stmt.toJson]
      exact hbody.variant fun _ h => by simp [Json.variant, Stmt.ofJson?, h]
  | .exitLoop, _ => by
      rw [Stmt.toJson]
      exact .text fun _ => by simp [Json.text, Stmt.ofJson?, Stmt.ofName?]
  | .nextRound, _ => by
      rw [Stmt.toJson]
      exact .text fun _ => by simp [Json.text, Stmt.ofJson?, Stmt.ofName?]

theorem Stmt.encodes_of_mem : ∀ {body : List Stmt},
    Stmt.everyIn (fun _ => Expr.isExact) body = true →
    ∀ s ∈ body, Encodes Stmt.ofJson? s.toJson s
  | [], _, _, hs => by cases hs
  | s :: body, h, t, ht => by
      rw [Stmt.everyIn, Bool.and_eq_true] at h
      cases ht with
      | head => exact Stmt.encodes h.1
      | tail _ hmem => exact Stmt.encodes_of_mem h.2 t hmem

theorem Stmt.encodes_of_mem_option : ∀ {o : Option (List Stmt)},
    Stmt.everyInOption (fun _ => Expr.isExact) o = true →
    ∀ body ∈ o, ∀ s ∈ body, Encodes Stmt.ofJson? s.toJson s
  | none, _, _, hbody => by cases hbody
  | some body, h, _, hbody => by
      cases hbody
      rw [Stmt.everyInOption] at h
      exact Stmt.encodes_of_mem h

theorem Case.encodes_of_mem : ∀ {cases : List Case},
    Case.everyIn (fun _ => Expr.isExact) cases = true →
    ∀ c ∈ cases, Encodes Case.ofJson? c.toJson c
  | [], _, _, hc => by cases hc
  | .mk label body :: cases, h, c, hc => by
      rw [Case.everyIn, Bool.and_eq_true, Bool.and_eq_true] at h
      cases hc with
      | tail _ hmem => exact Case.encodes_of_mem h.2 c hmem
      | head =>
          have hlabel := Expr.encodes h.1.1
          have hbody := Stmt.encodes_list (Stmt.encodes_of_mem h.1.2)
          rw [Case.toJson]
          refine .record ⟨hlabel.plain, hbody.plain⟩ ?_
          rintro depth ⟨hl, hb⟩
          simp [Case.ofJson?, hlabel.read_eq _ hl, hbody.read_eq _ hb]

end

/-! ## Procedures -/

theorem Procedure.encodes {proc : Procedure} (h : proc.IsExact) :
    Encodes ofJson? proc.toJson proc := by
  have hparams := DeclId.encodes_list proc.params
  have hbody := Stmt.encodes_list (Stmt.encodes_of_mem h)
  refine .record ⟨proc.method.encodes.plain, hparams.plain, hbody.plain⟩ ?_
  rintro depth ⟨-, hp, hb⟩
  simp [ofJson?, hparams.read_eq _ hp, hbody.read_eq _ hb]

/-- Programs and types, and procedures, statements and expressions without floating-point numbers,
are read back from their texts, unless these are nested too deep. -/
theorem recovers_toJson :
    (∀ p : Program, p.toJson.depth ≤ Json.maxDepth → Json.Recovers Program.ofJson? p.toJson p) ∧
    (∀ proc : Procedure, proc.IsExact → proc.toJson.depth ≤ Json.maxDepth →
      Json.Recovers Procedure.ofJson? proc.toJson proc) ∧
    (∀ s : Stmt, s.IsExact → s.toJson.depth ≤ Json.maxDepth →
      Json.Recovers Stmt.ofJson? s.toJson s) ∧
    (∀ e : Expr, e.isExact = true → e.toJson.depth ≤ Json.maxDepth →
      Json.Recovers Expr.ofJson? e.toJson e) ∧
    (∀ ty : Ty, ty.toJson.depth ≤ Json.maxDepth → Json.Recovers Ty.ofJson? ty.toJson ty) := by
  refine ⟨?_, ?_, ?_, ?_, ?_⟩
  · exact fun p hdepth => p.encodes.recovers hdepth
  · exact fun proc h hdepth => (Procedure.encodes h).recovers hdepth
  · exact fun s h hdepth => (Stmt.encodes h).recovers hdepth
  · exact fun e h hdepth => (Expr.encodes h).recovers hdepth
  · exact fun ty hdepth => ty.encodes.recovers hdepth

/-- A procedure with statements in which everything that may be missing is missing, with the least
and the greatest integer, a quote as a character and a type that is nested as deep as can be
read. -/
theorem recovers_toJson_missing :
    let ty : Ty := Nat.repeat .array 118 .null
    let e (f : ExprForm) : Expr := .mk f .void
    let proc : Procedure := ⟨⟨3⟩, [⟨0⟩, ⟨4294967295⟩],
      [.declare ⟨1⟩ none,
        .loop (e (.literal (.bool true))) [.branch (e (.field none ⟨2⟩)) [.exitLoop] none,
          .select (e .self) [.mk (e (.literal (.char '"'))) [.nextRound]] none],
        .check (e (.call none ⟨5⟩ [e (.literal .null), e (.literal (.string "\\\u0000"))])) none,
        .eval (e (.binary .ushr (e (.literal (.int Int64.minValue)))
          (e (.literal (.long Int64.maxValue))))),
        .eval (e (.unary .neg (e (.cast ty (e .lambda))))),
        .leave none]⟩
    proc.IsExact ∧ proc.toJson.depth = Json.maxDepth ∧
      Json.Recovers Procedure.ofJson? proc.toJson proc := by
  intro ty e proc
  have hexact : proc.IsExact := by decide +kernel
  have hdepth : proc.toJson.depth = Json.maxDepth := by decide +kernel
  exact ⟨hexact, hdepth, recovers_toJson.2.1 proc hexact (Nat.le_of_eq hdepth)⟩

end Disclosure
