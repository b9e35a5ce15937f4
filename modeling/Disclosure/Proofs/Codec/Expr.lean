import Disclosure.Codec.Expr
import Disclosure.Proofs.Codec.Program

/-!
# Written expressions are read back

An expression is exact if no literal in it is a floating-point number.  Exact expressions are read
back from the forms in which they are written.
-/

namespace Disclosure

open Json (Encodes)

/-! ## Exact expressions -/

def Literal.isExact : Literal → Bool
  | .float _ => false
  | .double _ => false
  | _ => true

mutual

/-- Whether an expression contains no floating-point number. -/
def Expr.isExact : Expr → Bool
  | .mk form _ => form.isExact

def ExprForm.isExact : ExprForm → Bool
  | .literal value => value.isExact
  | .field receiver _ => Expr.isExactOption receiver
  | .call receiver _ args => Expr.isExactOption receiver && Expr.areExact args
  | .create _ args => Expr.areExact args
  | .unary _ operand => operand.isExact
  | .binary _ left right => left.isExact && right.isExact
  | .conditional condition thenArm elseArm =>
      condition.isExact && thenArm.isExact && elseArm.isExact
  | .assign target value => target.isExact && value.isExact
  | .update _ target value => target.isExact && value.isExact
  | .element array index => array.isExact && index.isExact
  | .newArray dimensions initializers => Expr.areExact dimensions && Expr.areExact initializers
  | .cast _ operand => operand.isExact
  | .instanceOf operand _ => operand.isExact
  | .paren inner => inner.isExact
  | .var _ => true
  | .self => true
  | .super => true
  | .lambda => true
  | .methodRef => true
  | .classLiteral _ => true

def Expr.isExactOption : Option Expr → Bool
  | some e => e.isExact
  | none => true

def Expr.areExact : List Expr → Bool
  | [] => true
  | e :: rest => e.isExact && Expr.areExact rest

end

/-! ## Literals and operators -/

theorem Literal.encodes {l : Literal} (h : l.isExact = true) : Encodes ofJson? l.toJson l := by
  have hint (value : Int64) : Encodes (fun _ => Json.int64?) (.int value.toInt) value :=
    ⟨.int _, fun _ _ => Json.int64?_int value⟩
  have hbool (value : Bool) : Encodes (fun _ => Json.bool?) (.bool value) value :=
    ⟨.bool _, fun _ _ => rfl⟩
  have hchar (value : Char) : Encodes (fun _ => Json.char?) (.text (.singleton value)) value :=
    .text fun _ => Json.char?_text value
  have hstring (value : String) : Encodes (fun _ => Json.text?) (.text value) value :=
    .text fun _ => rfl
  cases l with
  | int value => exact (hint value).variant fun _ h => by simp [Json.variant, ofJson?, h]
  | long value => exact (hint value).variant fun _ h => by simp [Json.variant, ofJson?, h]
  | float value => cases h
  | double value => cases h
  | bool value => exact (hbool value).variant fun _ h => by simp [Json.variant, ofJson?, h]
  | char value => exact (hchar value).variant fun _ h => by simp [Json.variant, ofJson?, h]
  | string value => exact (hstring value).variant fun _ h => by simp [Json.variant, ofJson?, h]
  | null => exact .text fun _ => by simp [Json.text, ofJson?, Json.name?]

theorem UnaryOp.encodes (op : UnaryOp) : Encodes ofJson? op.toJson op := by
  cases op <;> exact .text fun _ => rfl

theorem BinaryOp.encodes (op : BinaryOp) : Encodes ofJson? op.toJson op := by
  cases op <;> exact .text fun _ => rfl

/-! ## Expressions -/

/-- A form with several parts is read by `ofRecord?`.  The four names that are left out stand before
a single part. -/
theorem ExprForm.encodes_record {f : ExprForm} {name : String} {fields : List (String × Json)}
    (hname : name ∉ ["Literal", "Local", "Paren", "ClassLiteral"])
    (hplain : fields.Forall fun f => f.2.Plain)
    (hread : ∀ depth, (fields.Forall fun f => f.2.depth ≤ depth) →
      ofRecord? (depth + 1) name (.record fields) = some f) :
    Encodes ofJson? (.variant name (.record fields)) f := by
  simp only [List.mem_cons, List.not_mem_nil, or_false, not_or] at hname
  obtain ⟨hliteral, hlocal, hparen, hclass⟩ := hname
  refine .variant_record hplain fun depth h => ?_
  rw [← hread depth h]
  -- a record is not `null`, so it is not taken for the data of a name without data
  simp [Json.variant, ofJson?, Json.record]

theorem Expr.toJson_ne_null (e : Expr) : e.toJson ≠ .null := by
  cases e
  simp [toJson, Json.record]

theorem Expr.encodes_option {o : Option Expr} (h : ∀ e ∈ o, Encodes ofJson? e.toJson e) :
    Encodes (fun depth j => Json.optional (ofJson? depth) (some j)) (optionToJson o) o := by
  have hwritten : optionToJson o = .option toJson o := by
    cases o <;> simp [optionToJson, Json.option]
  rw [hwritten]
  exact .option fun e he => ⟨h e he, e.toJson_ne_null⟩

theorem Expr.encodes_list {es : List Expr} (h : ∀ e ∈ es, Encodes ofJson? e.toJson e) :
    Encodes listOfJson? (.arr (listToJson es)) es :=
  .arr (by rw [listToJson]) (fun _ _ => by rw [listToJson]) (fun _ _ => by rw [listOfJson?]) h

-- The recursion goes through optional and listed parts, so each of these has a theorem here.
mutual

theorem Expr.encodes : ∀ {e : Expr}, e.isExact = true → Encodes Expr.ofJson? e.toJson e
  | .mk form ty, h => by
      have hform : Encodes ExprForm.ofJson? form.toJson form :=
        ExprForm.encodes (by simpa [Expr.isExact] using h)
      rw [Expr.toJson]
      refine .record ⟨hform.plain, ty.encodes.plain⟩ ?_
      rintro depth ⟨hf, ht⟩
      simp [Expr.ofJson?, hform.read_eq _ hf, ty.encodes.read_eq _ ht]

theorem ExprForm.encodes : ∀ {f : ExprForm}, f.isExact = true →
    Encodes ExprForm.ofJson? f.toJson f
  | .literal value, h => by
      rw [ExprForm.isExact] at h
      rw [ExprForm.toJson]
      exact (Literal.encodes h).variant fun _ h => by simp [Json.variant, ExprForm.ofJson?, h]
  | .var id, _ => by
      rw [ExprForm.toJson]
      exact id.encodes.variant fun _ h => by simp [Json.variant, ExprForm.ofJson?, h]
  | .field receiver id, h => by
      rw [ExprForm.isExact] at h
      have hreceiver := Expr.encodes_option (Expr.encodes_of_mem_option h)
      rw [ExprForm.toJson]
      refine ExprForm.encodes_record (by decide) ⟨hreceiver.plain, id.encodes.plain⟩ ?_
      rintro depth ⟨hr, -⟩
      simp [ExprForm.ofRecord?, hreceiver.read_eq _ hr]
  | .call receiver method args, h => by
      rw [ExprForm.isExact, Bool.and_eq_true] at h
      have hreceiver := Expr.encodes_option (Expr.encodes_of_mem_option h.1)
      have hargs := Expr.encodes_list (Expr.encodes_of_mem h.2)
      rw [ExprForm.toJson]
      refine ExprForm.encodes_record (by decide)
        ⟨hreceiver.plain, method.encodes.plain, hargs.plain⟩ ?_
      rintro depth ⟨hr, -, ha⟩
      simp [ExprForm.ofRecord?, hreceiver.read_eq _ hr, hargs.read_eq _ ha]
  | .create ctor args, h => by
      rw [ExprForm.isExact] at h
      have hargs := Expr.encodes_list (Expr.encodes_of_mem h)
      rw [ExprForm.toJson]
      refine ExprForm.encodes_record (by decide) ⟨ctor.encodes.plain, hargs.plain⟩ ?_
      rintro depth ⟨-, ha⟩
      simp [ExprForm.ofRecord?, hargs.read_eq _ ha]
  | .unary op operand, h => by
      rw [ExprForm.isExact] at h
      have hoperand := Expr.encodes h
      rw [ExprForm.toJson]
      refine ExprForm.encodes_record (by decide) ⟨op.encodes.plain, hoperand.plain⟩ ?_
      rintro depth ⟨ho, he⟩
      simp [ExprForm.ofRecord?, op.encodes.read_eq _ ho, hoperand.read_eq _ he]
  | .binary op left right, h => by
      rw [ExprForm.isExact, Bool.and_eq_true] at h
      have hleft := Expr.encodes h.1
      have hright := Expr.encodes h.2
      rw [ExprForm.toJson]
      refine ExprForm.encodes_record (by decide) ⟨op.encodes.plain, hleft.plain, hright.plain⟩ ?_
      rintro depth ⟨ho, hl, hr⟩
      simp [ExprForm.ofRecord?, op.encodes.read_eq _ ho, hleft.read_eq _ hl, hright.read_eq _ hr]
  | .conditional condition thenArm elseArm, h => by
      rw [ExprForm.isExact, Bool.and_eq_true, Bool.and_eq_true] at h
      have hcondition := Expr.encodes h.1.1
      have hthen := Expr.encodes h.1.2
      have helse := Expr.encodes h.2
      rw [ExprForm.toJson]
      refine ExprForm.encodes_record (by decide) ⟨hcondition.plain, hthen.plain, helse.plain⟩ ?_
      rintro depth ⟨hc, ht, he⟩
      simp [ExprForm.ofRecord?, hcondition.read_eq _ hc, hthen.read_eq _ ht, helse.read_eq _ he]
  | .assign target value, h => by
      rw [ExprForm.isExact, Bool.and_eq_true] at h
      have htarget := Expr.encodes h.1
      have hvalue := Expr.encodes h.2
      rw [ExprForm.toJson]
      refine ExprForm.encodes_record (by decide) ⟨htarget.plain, hvalue.plain⟩ ?_
      rintro depth ⟨ht, hv⟩
      simp [ExprForm.ofRecord?, htarget.read_eq _ ht, hvalue.read_eq _ hv]
  | .update op target value, h => by
      rw [ExprForm.isExact, Bool.and_eq_true] at h
      have htarget := Expr.encodes h.1
      have hvalue := Expr.encodes h.2
      rw [ExprForm.toJson]
      refine ExprForm.encodes_record (by decide) ⟨op.encodes.plain, htarget.plain, hvalue.plain⟩ ?_
      rintro depth ⟨ho, ht, hv⟩
      simp [ExprForm.ofRecord?, op.encodes.read_eq _ ho, htarget.read_eq _ ht, hvalue.read_eq _ hv]
  | .element array index, h => by
      rw [ExprForm.isExact, Bool.and_eq_true] at h
      have harray := Expr.encodes h.1
      have hindex := Expr.encodes h.2
      rw [ExprForm.toJson]
      refine ExprForm.encodes_record (by decide) ⟨harray.plain, hindex.plain⟩ ?_
      rintro depth ⟨ha, hi⟩
      simp [ExprForm.ofRecord?, harray.read_eq _ ha, hindex.read_eq _ hi]
  | .newArray dimensions initializers, h => by
      rw [ExprForm.isExact, Bool.and_eq_true] at h
      have hdimensions := Expr.encodes_list (Expr.encodes_of_mem h.1)
      have hinitializers := Expr.encodes_list (Expr.encodes_of_mem h.2)
      rw [ExprForm.toJson]
      refine ExprForm.encodes_record (by decide) ⟨hdimensions.plain, hinitializers.plain⟩ ?_
      rintro depth ⟨hd, hi⟩
      simp [ExprForm.ofRecord?, hdimensions.read_eq _ hd, hinitializers.read_eq _ hi]
  | .cast target operand, h => by
      rw [ExprForm.isExact] at h
      have hoperand := Expr.encodes h
      rw [ExprForm.toJson]
      refine ExprForm.encodes_record (by decide) ⟨target.encodes.plain, hoperand.plain⟩ ?_
      rintro depth ⟨ht, ho⟩
      simp [ExprForm.ofRecord?, target.encodes.read_eq _ ht, hoperand.read_eq _ ho]
  | .instanceOf operand target, h => by
      rw [ExprForm.isExact] at h
      have hoperand := Expr.encodes h
      rw [ExprForm.toJson]
      refine ExprForm.encodes_record (by decide) ⟨hoperand.plain, target.encodes.plain⟩ ?_
      rintro depth ⟨ho, ht⟩
      simp [ExprForm.ofRecord?, hoperand.read_eq _ ho, target.encodes.read_eq _ ht]
  | .paren inner, h => by
      rw [ExprForm.isExact] at h
      rw [ExprForm.toJson]
      exact (Expr.encodes h).variant fun _ h => by simp [Json.variant, ExprForm.ofJson?, h]
  | .self, _ => by
      rw [ExprForm.toJson]
      exact .text fun _ => by simp [Json.text, ExprForm.ofJson?, ExprForm.ofName?]
  | .super, _ => by
      rw [ExprForm.toJson]
      exact .text fun _ => by simp [Json.text, ExprForm.ofJson?, ExprForm.ofName?]
  | .lambda, _ => by
      rw [ExprForm.toJson]
      exact .text fun _ => by simp [Json.text, ExprForm.ofJson?, ExprForm.ofName?]
  | .methodRef, _ => by
      rw [ExprForm.toJson]
      exact .text fun _ => by simp [Json.text, ExprForm.ofJson?, ExprForm.ofName?]
  | .classLiteral ty, _ => by
      rw [ExprForm.toJson]
      exact ty.encodes.variant fun _ h => by simp [Json.variant, ExprForm.ofJson?, h]

theorem Expr.encodes_of_mem_option : ∀ {o : Option Expr}, Expr.isExactOption o = true →
    ∀ e ∈ o, Encodes Expr.ofJson? e.toJson e
  | none, _, _, he => by cases he
  | some e, h, _, he => by
      cases he
      exact Expr.encodes (by simpa [Expr.isExactOption] using h)

theorem Expr.encodes_of_mem : ∀ {es : List Expr}, Expr.areExact es = true →
    ∀ e ∈ es, Encodes Expr.ofJson? e.toJson e
  | [], _, _, he => by cases he
  | e :: es, h, f, hf => by
      rw [Expr.areExact, Bool.and_eq_true] at h
      cases hf with
      | head => exact Expr.encodes h.1
      | tail _ hmem => exact Expr.encodes_of_mem h.2 f hmem

end

end Disclosure
