import Disclosure.Report

/-!
# Parentheses change nothing

`WrapsTo` relates an expression, a statement or a procedure to what it becomes when any number of
the expressions in it, at any depth, are put in parentheses, once or more often.

Such expressions have the same type, refer to the same declaration and are lowered by the same
steps.  So the graph of a procedure and the report on it do not depend on its parentheses.
-/

namespace Disclosure

mutual

/-- The second expression is the first one with parentheses put around parts of it. -/
inductive Expr.WrapsTo : Expr → Expr → Prop where
  | paren {e e' : Expr} (h : e.WrapsTo e') : e.WrapsTo (.paren e')
  | mk {form form' : ExprForm} (ty : Ty) (h : form.WrapsTo form') :
      Expr.WrapsTo (.mk form ty) (.mk form' ty)

inductive ExprForm.WrapsTo : ExprForm → ExprForm → Prop where
  | refl (form : ExprForm) : form.WrapsTo form
  | field {receiver receiver' : Option Expr} (id : DeclId)
      (h : Expr.WrapsToOption receiver receiver') :
      ExprForm.WrapsTo (.field receiver id) (.field receiver' id)
  | call {receiver receiver' : Option Expr} {args args' : List Expr} (method : DeclId)
      (hreceiver : Expr.WrapsToOption receiver receiver') (hargs : Expr.WrapsToAll args args') :
      ExprForm.WrapsTo (.call receiver method args) (.call receiver' method args')
  | create {args args' : List Expr} (ctor : DeclId) (h : Expr.WrapsToAll args args') :
      ExprForm.WrapsTo (.create ctor args) (.create ctor args')
  | unary {operand operand' : Expr} (op : UnaryOp) (h : operand.WrapsTo operand') :
      ExprForm.WrapsTo (.unary op operand) (.unary op operand')
  | binary {left left' right right' : Expr} (op : BinaryOp) (hleft : left.WrapsTo left')
      (hright : right.WrapsTo right') :
      ExprForm.WrapsTo (.binary op left right) (.binary op left' right')
  | conditional {c c' t t' e e' : Expr} (hc : c.WrapsTo c') (ht : t.WrapsTo t')
      (he : e.WrapsTo e') : ExprForm.WrapsTo (.conditional c t e) (.conditional c' t' e')
  | assign {target target' value value' : Expr} (htarget : target.WrapsTo target')
      (hvalue : value.WrapsTo value') :
      ExprForm.WrapsTo (.assign target value) (.assign target' value')
  | update {target target' value value' : Expr} (op : BinaryOp)
      (htarget : target.WrapsTo target') (hvalue : value.WrapsTo value') :
      ExprForm.WrapsTo (.update op target value) (.update op target' value')
  | element {array array' index index' : Expr} (harray : array.WrapsTo array')
      (hindex : index.WrapsTo index') :
      ExprForm.WrapsTo (.element array index) (.element array' index')
  | newArray {dimensions dimensions' initializers initializers' : List Expr}
      (hdimensions : Expr.WrapsToAll dimensions dimensions')
      (hinitializers : Expr.WrapsToAll initializers initializers') :
      ExprForm.WrapsTo (.newArray dimensions initializers) (.newArray dimensions' initializers')
  | cast {operand operand' : Expr} (target : Ty) (h : operand.WrapsTo operand') :
      ExprForm.WrapsTo (.cast target operand) (.cast target operand')
  | instanceOf {operand operand' : Expr} (target : Ty) (h : operand.WrapsTo operand') :
      ExprForm.WrapsTo (.instanceOf operand target) (.instanceOf operand' target)
  | paren {inner inner' : Expr} (h : inner.WrapsTo inner') :
      ExprForm.WrapsTo (.paren inner) (.paren inner')

inductive Expr.WrapsToOption : Option Expr → Option Expr → Prop where
  | none : Expr.WrapsToOption none none
  | some {e e' : Expr} (h : e.WrapsTo e') : Expr.WrapsToOption (some e) (some e')

inductive Expr.WrapsToAll : List Expr → List Expr → Prop where
  | nil : Expr.WrapsToAll [] []
  | cons {e e' : Expr} {rest rest' : List Expr} (h : e.WrapsTo e')
      (hrest : Expr.WrapsToAll rest rest') : Expr.WrapsToAll (e :: rest) (e' :: rest')

end

mutual

inductive Stmt.WrapsTo : Stmt → Stmt → Prop where
  | refl (s : Stmt) : s.WrapsTo s
  | declare {init init' : Option Expr} (var : DeclId) (h : Expr.WrapsToOption init init') :
      Stmt.WrapsTo (.declare var init) (.declare var init')
  | eval {e e' : Expr} (h : e.WrapsTo e') : Stmt.WrapsTo (.eval e) (.eval e')
  | branch {condition condition' : Expr} {thenBody thenBody' : List Stmt}
      {elseBody elseBody' : Option (List Stmt)} (hcondition : condition.WrapsTo condition')
      (hthen : Stmt.WrapsToIn thenBody thenBody')
      (helse : Stmt.WrapsToInOption elseBody elseBody') :
      Stmt.WrapsTo (.branch condition thenBody elseBody) (.branch condition' thenBody' elseBody')
  | loop {condition condition' : Expr} {body body' : List Stmt}
      (hcondition : condition.WrapsTo condition') (hbody : Stmt.WrapsToIn body body') :
      Stmt.WrapsTo (.loop condition body) (.loop condition' body')
  | select {selector selector' : Expr} {cases cases' : List Case}
      {default default' : Option (List Stmt)} (hselector : selector.WrapsTo selector')
      (hcases : Case.WrapsToIn cases cases') (hdefault : Stmt.WrapsToInOption default default') :
      Stmt.WrapsTo (.select selector cases default) (.select selector' cases' default')
  | leave {value value' : Option Expr} (h : Expr.WrapsToOption value value') :
      Stmt.WrapsTo (.leave value) (.leave value')
  | raise {value value' : Expr} (h : value.WrapsTo value') :
      Stmt.WrapsTo (.raise value) (.raise value')
  | check {condition condition' : Expr} {detail detail' : Option Expr}
      (hcondition : condition.WrapsTo condition') (hdetail : Expr.WrapsToOption detail detail') :
      Stmt.WrapsTo (.check condition detail) (.check condition' detail')
  | locked {lock lock' : Expr} {body body' : List Stmt} (hlock : lock.WrapsTo lock')
      (hbody : Stmt.WrapsToIn body body') : Stmt.WrapsTo (.locked lock body) (.locked lock' body')
  | block {body body' : List Stmt} (h : Stmt.WrapsToIn body body') :
      Stmt.WrapsTo (.block body) (.block body')

inductive Stmt.WrapsToIn : List Stmt → List Stmt → Prop where
  | nil : Stmt.WrapsToIn [] []
  | cons {s s' : Stmt} {rest rest' : List Stmt} (h : s.WrapsTo s')
      (hrest : Stmt.WrapsToIn rest rest') : Stmt.WrapsToIn (s :: rest) (s' :: rest')

inductive Stmt.WrapsToInOption : Option (List Stmt) → Option (List Stmt) → Prop where
  | none : Stmt.WrapsToInOption none none
  | some {body body' : List Stmt} (h : Stmt.WrapsToIn body body') :
      Stmt.WrapsToInOption (some body) (some body')

inductive Case.WrapsToIn : List Case → List Case → Prop where
  | nil : Case.WrapsToIn [] []
  | cons {label label' : Expr} {body body' : List Stmt} {rest rest' : List Case}
      (hlabel : label.WrapsTo label') (hbody : Stmt.WrapsToIn body body')
      (hrest : Case.WrapsToIn rest rest') :
      Case.WrapsToIn (.mk label body :: rest) (.mk label' body' :: rest')

end

structure Procedure.WrapsTo (proc proc' : Procedure) : Prop where
  method_eq : proc'.method = proc.method
  params_eq : proc'.params = proc.params
  body : Stmt.WrapsToIn proc.body proc'.body

/-! ## Classes of expressions -/

theorem Expr.WrapsTo.ty_eq : ∀ {e e' : Expr}, e.WrapsTo e' → e'.ty = e.ty
  | _, _, .paren h => h.ty_eq
  | _, _, .mk _ _ => rfl

mutual

/-- Without the parentheses around them, both expressions have one type and refer to one
declaration, also where a pair of parentheses has a type of its own. -/
theorem Expr.WrapsTo.bare_eq : ∀ {e e' : Expr}, e.WrapsTo e' →
    e'.bare.ty = e.bare.ty ∧ e'.referent? = e.referent?
  | _, _, .paren h => by
      rw [Expr.paren, Expr.referent?, Expr.bare_mk_paren]
      exact h.bare_eq
  | _, _, .mk ty h => h.bare_eq ty

theorem ExprForm.WrapsTo.bare_eq (ty : Ty) : ∀ {form form' : ExprForm}, form.WrapsTo form' →
    (Expr.mk form' ty).bare.ty = (Expr.mk form ty).bare.ty ∧
      (Expr.mk form' ty).referent? = (Expr.mk form ty).referent?
  | _, _, .paren h => by
      rw [Expr.referent?, Expr.referent?, Expr.bare_mk_paren, Expr.bare_mk_paren]
      exact h.bare_eq
  | _, _, .refl _ => ⟨rfl, rfl⟩
  | _, _, .field _ _ => ⟨rfl, rfl⟩
  | _, _, .call _ _ _ => ⟨rfl, rfl⟩
  | _, _, .create _ _ => ⟨rfl, rfl⟩
  | _, _, .unary _ _ => ⟨rfl, rfl⟩
  | _, _, .binary _ _ _ => ⟨rfl, rfl⟩
  | _, _, .conditional _ _ _ => ⟨rfl, rfl⟩
  | _, _, .assign _ _ => ⟨rfl, rfl⟩
  | _, _, .update _ _ _ => ⟨rfl, rfl⟩
  | _, _, .element _ _ => ⟨rfl, rfl⟩
  | _, _, .newArray _ _ => ⟨rfl, rfl⟩
  | _, _, .cast _ _ => ⟨rfl, rfl⟩
  | _, _, .instanceOf _ _ => ⟨rfl, rfl⟩

end

theorem Expr.WrapsTo.classifyExpr_eq (sc : Scope) {e e' : Expr} (h : e.WrapsTo e') :
    sc.classifyExpr e' = sc.classifyExpr e := by
  rw [Scope.classifyExpr, Scope.classifyExpr, h.bare_eq.1, h.bare_eq.2]

/-! ## Graphs and reports -/

open Lowering

mutual

theorem Expr.WrapsTo.lower_eq (p : Program) :
    ∀ {e e' : Expr}, e.WrapsTo e' → e'.lower p = e.lower p
  | _, _, .paren h => by
      rw [Expr.paren, Expr.lower, ExprForm.lower]
      exact h.lower_eq p
  | _, _, .mk ty h => by
      rw [Expr.lower, Expr.lower]
      exact h.lower_eq p ty

theorem ExprForm.WrapsTo.lower_eq (p : Program) (ty : Ty) :
    ∀ {form form' : ExprForm}, form.WrapsTo form' → form'.lower p ty = form.lower p ty
  | _, _, .refl _ => rfl
  | _, _, .field _ h => by simp only [ExprForm.lower, h.lower_eq p]
  | _, _, .call _ hreceiver hargs => by
      simp only [ExprForm.lower, hreceiver.lower_eq p, hargs.lower_eq p]
  | _, _, .create _ h => by simp only [ExprForm.lower, h.lower_eq p]
  | _, _, .unary _ h => by simp only [ExprForm.lower, h.lower_eq p]
  | _, _, .binary _ hleft hright => by
      simp only [ExprForm.lower, hleft.lower_eq p, hright.lower_eq p, hleft.ty_eq, hright.ty_eq]
  | _, _, .conditional hc ht he => by
      simp only [ExprForm.lower, hc.lower_eq p, ht.lower_eq p, he.lower_eq p]
  | _, _, .assign htarget hvalue => by
      simp only [ExprForm.lower, htarget.lower_eq p, hvalue.lower_eq p]
  | _, _, .update _ htarget hvalue => by
      simp only [ExprForm.lower, htarget.lower_eq p, hvalue.lower_eq p, htarget.ty_eq,
        hvalue.ty_eq]
  | _, _, .element harray hindex => by
      simp only [ExprForm.lower, harray.lower_eq p, hindex.lower_eq p]
  | _, _, .newArray hdimensions hinitializers => by
      simp only [ExprForm.lower, hdimensions.lower_eq p, hinitializers.lower_eq p]
  | _, _, .cast _ h => by simp only [ExprForm.lower, h.lower_eq p, h.ty_eq]
  | _, _, .instanceOf _ h => by simp only [ExprForm.lower, h.lower_eq p]
  | _, _, .paren h => by simp only [ExprForm.lower, h.lower_eq p]

theorem Expr.WrapsToOption.lower_eq (p : Program) {needed : Bool} :
    ∀ {e e' : Option Expr}, Expr.WrapsToOption e e' →
      Expr.lowerReceiver p needed e' = Expr.lowerReceiver p needed e
  | _, _, .none => rfl
  | _, _, .some h => by simp only [Expr.lowerReceiver, h.lower_eq p]

theorem Expr.WrapsToAll.lower_eq (p : Program) :
    ∀ {es es' : List Expr}, Expr.WrapsToAll es es' → Expr.lowerAll p es' = Expr.lowerAll p es
  | _, _, .nil => rfl
  | _, _, .cons h hrest => by simp only [Expr.lowerAll, h.lower_eq p, hrest.lower_eq p]

end

theorem Expr.WrapsToOption.lowerOption_eq (p : Program) {e e' : Option Expr}
    (h : Expr.WrapsToOption e e') : Expr.lowerOption p e' = Expr.lowerOption p e := by
  cases h with
  | none => rfl
  | some h => simp only [Expr.lowerOption, h.lower_eq p]

theorem Case.WrapsToIn.length_eq : ∀ {cases cases' : List Case}, Case.WrapsToIn cases cases' →
    cases'.length = cases.length
  | _, _, .nil => rfl
  | _, _, .cons _ _ hrest => congrArg (· + 1) hrest.length_eq

theorem Case.WrapsToIn.lowerTests_eq (p : Program) (selector : NodeId) :
    ∀ {cases cases' : List Case}, Case.WrapsToIn cases cases' → ∀ bodies,
      Case.lowerTests p selector cases' bodies = Case.lowerTests p selector cases bodies
  | _, _, .nil, _ => rfl
  | _, _, .cons _ _ _, [] => rfl
  | _, _, .cons hlabel _ hrest, _ :: _ => by
      simp only [Case.lowerTests, Case.label_mk, hlabel.lower_eq p,
        hrest.lowerTests_eq p selector]

theorem Stmt.WrapsToInOption.length_toList_eq {body body' : Option (List Stmt)}
    (h : Stmt.WrapsToInOption body body') : body'.toList.length = body.toList.length := by
  cases h <;> rfl

mutual

theorem Stmt.WrapsTo.lower_eq (p : Program) :
    ∀ {s s' : Stmt}, s.WrapsTo s' → s'.lower p = s.lower p
  | _, _, .refl _ => rfl
  | _, _, .declare _ .none => rfl
  | _, _, .declare _ (.some h) => by simp only [Stmt.lower, h.lower_eq p]
  | _, _, .eval h => by simp only [Stmt.lower, h.lower_eq p]
  | _, _, .branch hcondition hthen helse => by
      simp only [Stmt.lower, hcondition.lower_eq p, hthen.lower_eq p, helse.lower_eq p]
  | _, _, .loop hcondition hbody => by
      simp only [Stmt.lower, hcondition.lower_eq p, hbody.lower_eq p]
  | _, _, .select hselector hcases hdefault => by
      simp only [Stmt.lower, hselector.lower_eq p, hcases.length_eq, hdefault.length_toList_eq,
        hcases.lowerTests_eq p, hcases.lower_eq p, hdefault.lowerDefault_eq p]
  | _, _, .leave h => by simp only [Stmt.lower, h.lowerOption_eq p]
  | _, _, .raise h => by simp only [Stmt.lower, h.lower_eq p]
  | _, _, .check hcondition hdetail => by
      simp only [Stmt.lower, hcondition.lower_eq p, hdetail.lowerOption_eq p]
  | _, _, .locked hlock hbody => by
      simp only [Stmt.lower, hlock.lower_eq p, hbody.lower_eq p]
  | _, _, .block h => by simp only [Stmt.lower, h.lower_eq p]

theorem Stmt.WrapsToIn.lower_eq (p : Program) :
    ∀ {body body' : List Stmt}, Stmt.WrapsToIn body body' →
      Stmt.lowerBody p body' = Stmt.lowerBody p body
  | _, _, .nil => rfl
  | _, _, .cons h hrest => by simp only [Stmt.lowerBody, h.lower_eq p, hrest.lower_eq p]

theorem Stmt.WrapsToInOption.lower_eq (p : Program) :
    ∀ {body body' : Option (List Stmt)}, Stmt.WrapsToInOption body body' →
      Stmt.lowerOption p body' = Stmt.lowerOption p body
  | _, _, .none => rfl
  | _, _, .some h => by simp only [Stmt.lowerOption, h.lower_eq p]

theorem Stmt.WrapsToInOption.lowerDefault_eq (p : Program) {done : BlockId} :
    ∀ {body body' : Option (List Stmt)}, Stmt.WrapsToInOption body body' →
      ∀ blocks, Stmt.lowerDefault p done body' blocks = Stmt.lowerDefault p done body blocks
  | _, _, .none, _ => rfl
  | _, _, .some _, [] => by simp only [Stmt.lowerDefault]
  | _, _, .some h, _ :: _ => by simp only [Stmt.lowerDefault, h.lower_eq p]

theorem Case.WrapsToIn.lower_eq (p : Program) {done : BlockId} :
    ∀ {cases cases' : List Case}, Case.WrapsToIn cases cases' →
      ∀ blocks, Case.lowerBodies p done cases' blocks = Case.lowerBodies p done cases blocks
  | _, _, .nil, _ => rfl
  | _, _, .cons _ _ _, [] => by simp only [Case.lowerBodies]
  | _, _, .cons _ hbody hrest, _ :: _ => by
      simp only [Case.lowerBodies, hbody.lower_eq p, hrest.lower_eq p]

end

theorem Procedure.WrapsTo.lower_eq (p : Program) {proc proc' : Procedure} (h : proc.WrapsTo proc') :
    proc'.lower p = proc.lower p := by
  rw [Procedure.lower, Procedure.lower, h.method_eq, h.params_eq, h.body.lower_eq p]

/-- The graph of a procedure, the report on it and the class of an expression are the same with more
parentheses. -/
theorem Policy.check_wrapsTo (pol : Policy) (p : Program) :
    (∀ proc proc' : Procedure, proc.WrapsTo proc' →
      proc'.lower p = proc.lower p ∧ pol.check p proc' = pol.check p proc) ∧
    ∀ e e' : Expr, e.WrapsTo e' →
      (pol.scope p).classifyExpr e' = (pol.scope p).classifyExpr e := by
  refine ⟨fun proc proc' h => ⟨h.lower_eq p, ?_⟩, fun e e' h => h.classifyExpr_eq _⟩
  rw [check, check, h.lower_eq p]

/-- `var t = x + i; x.f += (long) i; return x.f;` becomes
`var t = ((x) + ((i))); (((x).f)) += ((long) (i)); return ((x).f);`.  The forbidden text `x` is
assigned to the safe variable `t` in both. -/
theorem Policy.check_wrapsTo_texts :
    let type : Decl := ⟨⟨0⟩, "T", .type, [], []⟩
    let text : Ty := .declared type.id
    let x : Decl := ⟨⟨1⟩, "x", .localVar text false, [Marks.standard.forbidden], []⟩
    let i : Decl := ⟨⟨2⟩, "i", .localVar (.primitive .int) false, [], []⟩
    let t : Decl := ⟨⟨3⟩, "t", .localVar text false, [Marks.standard.safe], []⟩
    let f : Decl := ⟨⟨4⟩, "f", .field text false, [], []⟩
    let p : Program := ⟨#[type, x, i, t, f]⟩
    let pol : Policy := .standard
    let ex : Expr := .var x.id text
    let ei : Expr := .var i.id (.primitive .int)
    let sum (a b : Expr) : Expr := .binary .add a b text
    let update (a b : Expr) : Expr := .mk (.update .add a b) text
    let field (a : Expr) : Expr := .field (some a) f.id text
    let cast (a : Expr) : Expr := .mk (.cast (.primitive .long) a) (.primitive .long)
    let proc : Procedure := ⟨⟨5⟩, [x.id], [.declare t.id (some (sum ex ei)),
      .eval (update (field ex) (cast ei)), .leave (some (field ex))]⟩
    let proc' : Procedure := ⟨⟨5⟩, [x.id],
      [.declare t.id (some (.paren (sum (.paren ex) (.paren (.paren ei))))),
        .eval (update (.paren (.paren (field (.paren ex)))) (.paren (cast (.paren ei)))),
        .leave (some (.paren (field (.paren ex))))]⟩
    proc.WrapsTo proc' ∧ proc'.lower p = proc.lower p ∧ (proc'.lower p).nextNode = 17 ∧
      pol.check p proc' = pol.check p proc ∧ (pol.check p proc').tally = ⟨0, 0, 1⟩ ∧
      (pol.scope p).classifyExpr (.paren ex) = (pol.scope p).classifyExpr ex := by
  intro type text x i t f p pol ex ei sum update field cast proc proc'
  have hx : ex.WrapsTo (.paren ex) := .paren (.mk _ (.refl _))
  have hi : ei.WrapsTo (.paren ei) := .paren (.mk _ (.refl _))
  have hfield : (field ex).WrapsTo (field (.paren ex)) := .mk _ (.field _ (.some hx))
  have hsum : (sum ex ei).WrapsTo (sum (.paren ex) (.paren (.paren ei))) :=
    .mk _ (.binary _ hx (.paren hi))
  have hcast : (cast ei).WrapsTo (cast (.paren ei)) := .mk _ (.cast _ hi)
  have hproc : proc.WrapsTo proc' := ⟨rfl, rfl, .cons (.declare _ (.some (.paren hsum)))
    (.cons (.eval (.mk _ (.update _ (.paren (.paren hfield)) (.paren hcast))))
      (.cons (.leave (.some (.paren hfield))) .nil))⟩
  obtain ⟨hlower, hcheck⟩ := (Policy.check_wrapsTo pol p).1 proc proc' hproc
  exact ⟨hproc, hlower, by decide +kernel, hcheck, by decide +kernel,
    (Policy.check_wrapsTo pol p).2 ex _ hx⟩

end Disclosure
