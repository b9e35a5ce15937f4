import Disclosure.Proofs.Program.Inheritance
import Disclosure.Report

/-!
# Symbol tables

What the analysis asks about declarations may be answered by any host.  Its identifiers may have
gaps, and it may answer what a declaration overrides and which parameters it has apart from the
declaration itself.  `SymbolTable` is three such answers.

The analysis takes a program, which lists its declarations, and nothing is lost by that.  Every
table is represented by a program that answers as the table does, with declarations that say nothing
in the gaps.  All programs that represent one table give the same classes, graphs and reports.
-/

namespace Disclosure

def Role.withParams (params : List DeclId) : Role → Role
  | .method _ returnType isStatic isConstructor => .method params returnType isStatic isConstructor
  | role => role

def Decl.withLists (s : Decl) (params overrides : List DeclId) : Decl :=
  { s with role := s.role.withParams params, overrides }

/-- The answers of a host. -/
structure SymbolTable where
  decl? : DeclId → Option Decl
  overridesOf : DeclId → List DeclId
  paramsOf : DeclId → List DeclId
  /-- Nothing but a method has parameters. -/
  exists_method : ∀ id, paramsOf id ≠ [] → ∃ s params returnType isStatic isConstructor,
    decl? id = some s ∧ s.role = .method params returnType isStatic isConstructor

namespace SymbolTable

/-- A declaration of the table with the parameters and overrides that the table answers. -/
def listed? (t : SymbolTable) (id : DeclId) : Option Decl :=
  (t.decl? id).map fun s => s.withLists (t.paramsOf id) (t.overridesOf id)

end SymbolTable

/-- A declaration from which nothing follows. -/
structure Decl.IsSilent (s : Decl) : Prop where
  role_eq : s.role = .type
  annotations_eq : s.annotations = []
  overrides_eq : s.overrides = []

/-- Both are the same declaration, or neither says anything. -/
def Decl.Agree (a b : Option Decl) : Prop :=
  a = b ∨ (∀ s ∈ a, s.IsSilent) ∧ ∀ s ∈ b, s.IsSilent

namespace Decl.Agree

variable {a b c : Option Decl}

theorem symm (h : Agree a b) : Agree b a := by
  cases h with
  | inl heq => exact Or.inl heq.symm
  | inr hsilent => exact Or.inr hsilent.symm

theorem trans (hab : Agree a b) (hbc : Agree b c) : Agree a c := by
  rcases hab with rfl | hab
  · exact hbc
  · rcases hbc with rfl | hbc
    · exact Or.inr hab
    · exact Or.inr ⟨hab.1, hbc.2⟩

/-- A question to which silence is no other answer than absence gets the same answer. -/
theorem elim_eq {α : Type} {ask : Decl → α} {default : α} (h : Agree a b)
    (hask : ∀ s : Decl, s.IsSilent → ask s = default) :
    a.elim default ask = b.elim default ask := by
  have hsilent : ∀ d : Option Decl, (∀ s ∈ d, s.IsSilent) → d.elim default ask = default := by
    intro d hd
    cases d with
    | none => rfl
    | some s => exact hask s (hd s rfl)
  rcases h with rfl | ⟨ha, hb⟩
  · rfl
  · rw [hsilent a ha, hsilent b hb]

end Decl.Agree

namespace Program

/-- The program declares what the table declares; other declarations of it say nothing. -/
def Represents (p : Program) (t : SymbolTable) : Prop :=
  ∀ id, Decl.Agree (p.decl? id) (t.listed? id)

def Agrees (p q : Program) : Prop := ∀ id, Decl.Agree (p.decl? id) (q.decl? id)

theorem Represents.agrees {p q : Program} {t : SymbolTable} (hp : p.Represents t)
    (hq : q.Represents t) : p.Agrees q :=
  fun id => (hp id).trans (hq id).symm

end Program

namespace SymbolTable

def program (t : SymbolTable) : Program :=
  ⟨Array.ofFn fun i : Fin UInt32.size =>
    let id : DeclId := ⟨UInt32.ofFin i⟩
    -- under its number, as a declaration that is missing is shown
    (t.listed? id).getD ⟨id, id.text, .type, [], []⟩⟩

theorem decl?_program (t : SymbolTable) (id : DeclId) :
    t.program.decl? id = some ((t.listed? id).getD ⟨id, id.text, .type, [], []⟩) := by
  rw [Program.decl?, program, Array.getElem?_ofFn, dif_pos id.index.toNat_lt]
  rfl

theorem represents_program (t : SymbolTable) : t.program.Represents t := by
  intro id
  rw [decl?_program]
  cases t.listed? id with
  | some s => exact Or.inl rfl
  | none =>
      refine Or.inr ⟨?_, by simp⟩
      rintro _ ⟨⟩
      exact ⟨rfl, rfl, rfl⟩

theorem nameOf_program (t : SymbolTable) (id : DeclId) :
    t.program.nameOf id = (t.decl? id).elim id.text Decl.name := by
  rw [Program.nameOf, decl?_program, listed?]
  cases t.decl? id <;> rfl

end SymbolTable

namespace Program

def symbolTable (p : Program) : SymbolTable where
  decl? := p.decl?
  overridesOf := p.overridesOf
  paramsOf := p.paramsOf
  exists_method id hparams := by
    obtain ⟨param, hparam⟩ := List.exists_mem_of_ne_nil _ hparams
    obtain ⟨i, hi⟩ := List.mem_iff_getElem?.1 hparam
    obtain ⟨s, params, returnType, isStatic, isConstructor, hs, hrole, _⟩ :=
      getElem?_paramsOf_eq_some_iff.1 hi
    exact ⟨s, params, returnType, isStatic, isConstructor, hs, hrole⟩

theorem represents_symbolTable (p : Program) : p.Represents p.symbolTable := by
  intro id
  refine Or.inl ?_
  rw [SymbolTable.listed?]
  simp only [symbolTable, paramsOf, overridesOf]
  cases p.decl? id with
  | none => rfl
  | some s =>
      obtain ⟨sid, name, role, annotations, overrides⟩ := s
      cases role <;> rfl

end Program

/-! ## Answers -/

namespace Program

theorem paramsOf_eq_elim (p : Program) (id : DeclId) :
    p.paramsOf id = (p.decl? id).elim [] Decl.params := by
  unfold paramsOf
  cases p.decl? id <;> rfl

theorem overridesOf_eq_elim (p : Program) (id : DeclId) :
    p.overridesOf id = (p.decl? id).elim [] Decl.overrides := by
  unfold overridesOf
  cases p.decl? id <;> rfl

theorem isStaticField_eq_elim (p : Program) (id : DeclId) :
    p.isStaticField id = (p.decl? id).elim false Decl.isStaticField := by
  unfold isStaticField
  cases p.decl? id <;> rfl

theorem isConstant_eq_elim (p : Program) (id : DeclId) :
    p.isConstant id = (p.decl? id).elim false Decl.isConstant := by
  unfold isConstant
  cases p.decl? id <;> rfl

theorem takesReceiver_eq_elim (p : Program) (id : DeclId) :
    p.takesReceiver id = (p.decl? id).elim false Decl.takesReceiver := by
  unfold takesReceiver
  cases p.decl? id <;> rfl

end Program

theorem Decl.IsSilent.params_eq {s : Decl} (hs : s.IsSilent) : s.params = [] := by
  rw [params, hs.role_eq]

namespace Program.Represents

variable {p : Program} {t : SymbolTable} (h : p.Represents t) (id : DeclId)
include h

theorem paramsOf_eq : p.paramsOf id = t.paramsOf id := by
  rw [paramsOf_eq_elim, (h id).elim_eq fun _ hs => hs.params_eq, SymbolTable.listed?]
  by_cases hnil : t.paramsOf id = []
  · rw [hnil]
    cases t.decl? id with
    | none => rfl
    | some s => cases hrole : s.role <;> simp [Decl.withLists, Decl.params, Role.withParams, hrole]
  · obtain ⟨s, params, returnType, isStatic, isConstructor, hs, hrole⟩ := t.exists_method id hnil
    simp [hs, Decl.withLists, Decl.params, Role.withParams, hrole]

theorem overridesOf_eq {s : Decl} (hs : t.decl? id = some s) :
    p.overridesOf id = t.overridesOf id := by
  rw [overridesOf_eq_elim, (h id).elim_eq fun _ hs => hs.overrides_eq, SymbolTable.listed?, hs]
  rfl

/-- The role, without its parameters, which the table may answer otherwise. -/
theorem role_eq : (p.decl? id).elim .type (fun s => s.role.withParams []) =
    (t.decl? id).elim .type fun s => s.role.withParams [] := by
  rw [(h id).elim_eq fun s hs => by rw [hs.role_eq]; rfl, SymbolTable.listed?]
  cases t.decl? id with
  | none => rfl
  | some s => cases hrole : s.role <;> simp [Decl.withLists, Role.withParams, hrole]

theorem annotations_eq :
    (p.decl? id).elim [] Decl.annotations = (t.decl? id).elim [] Decl.annotations := by
  rw [(h id).elim_eq fun _ hs => hs.annotations_eq, SymbolTable.listed?]
  cases t.decl? id <;> rfl

end Program.Represents

/-! ## What follows from silence -/

theorem Program.overriddenParams_of_silent {p : Program} {owner : DeclId}
    (h : ∀ s ∈ p.decl? owner, s.IsSilent) (param : DeclId) :
    p.overriddenParams param owner = [] := by
  unfold overriddenParams
  cases hs : p.decl? owner with
  | none => rfl
  | some s => simp [Decl.isVirtual, (h s hs).role_eq]

theorem Program.sources_of_silent {p : Program} {id : DeclId} (h : ∀ s ∈ p.decl? id, s.IsSilent) :
    p.sources id = [] := by
  unfold sources
  cases hs : p.decl? id with
  | none => rfl
  | some s => simp only [(h s hs).role_eq]

theorem Scope.classifyWithin_of_silent {sc : Scope} {id : DeclId}
    (h : ∀ s ∈ sc.program.decl? id, s.IsSilent) (depth : Nat) (path : List DeclId) :
    sc.classifyWithin depth path id = .unknown := by
  cases hs : sc.program.decl? id with
  | none => exact classifyWithin_of_absent hs
  | some s =>
      have hbare : sc.marks.declaredOn s = none := by
        simp [Marks.declaredOn, Decl.isMarked, (h s hs).annotations_eq]
      cases depth with
      | zero => rfl
      | succ depth => simp [classifyWithin, hs, hbare, Program.sources_of_silent h]

/-! ## Programs that agree -/

namespace Program.Agrees

variable {p q : Program} (h : p.Agrees q)
include h

theorem query_eq {α : Type} {query : Program → DeclId → α} {ask : Decl → α} {default : α}
    (hquery : ∀ p id, query p id = (p.decl? id).elim default ask)
    (hsilent : ∀ s : Decl, s.IsSilent → ask s = default) : query p = query q := by
  funext id
  rw [hquery, hquery, (h id).elim_eq hsilent]

theorem paramsOf_eq : p.paramsOf = q.paramsOf :=
  h.query_eq paramsOf_eq_elim fun _ hs => hs.params_eq

theorem overridesOf_eq : p.overridesOf = q.overridesOf :=
  h.query_eq overridesOf_eq_elim fun _ hs => hs.overrides_eq

theorem isStaticField_eq : p.isStaticField = q.isStaticField :=
  h.query_eq isStaticField_eq_elim fun s hs => by rw [Decl.isStaticField, hs.role_eq]

theorem isConstant_eq : p.isConstant = q.isConstant :=
  h.query_eq isConstant_eq_elim fun s hs => by rw [Decl.isConstant, hs.role_eq]

theorem takesReceiver_eq : p.takesReceiver = q.takesReceiver :=
  h.query_eq takesReceiver_eq_elim fun s hs => by rw [Decl.takesReceiver, hs.role_eq]

theorem ty?_eq (id : DeclId) : (p.decl? id).bind Decl.ty? = (q.decl? id).bind Decl.ty? := by
  have hty : ∀ d : Option Decl, d.bind Decl.ty? = d.elim none Decl.ty? := by
    intro d
    cases d <;> rfl
  rw [hty, hty, (h id).elim_eq fun s hs => by rw [Decl.ty?, hs.role_eq]]

theorem overriddenParams_eq : p.overriddenParams = q.overriddenParams := by
  funext param owner
  rcases h owner with heq | ⟨hp, hq⟩
  · rw [overriddenParams, overriddenParams, heq, h.paramsOf_eq, h.overridesOf_eq]
  · rw [overriddenParams_of_silent hp, overriddenParams_of_silent hq]

theorem sources_eq : p.sources = q.sources := by
  funext id
  rcases h id with heq | ⟨hp, hq⟩
  · rw [sources, sources, heq, h.overriddenParams_eq]
  · rw [sources_of_silent hp, sources_of_silent hq]

theorem classifyWithin_eq (m : Marks) (depth : Nat) (path : List DeclId) (id : DeclId) :
    Scope.classifyWithin ⟨p, m⟩ depth path id = Scope.classifyWithin ⟨q, m⟩ depth path id := by
  induction depth generalizing path id with
  | zero => rfl
  | succ depth ih =>
      rcases h id with heq | ⟨hp, hq⟩
      · simp only [Scope.classifyWithin, heq, h.sources_eq, ih]
      · rw [Scope.classifyWithin_of_silent hp, Scope.classifyWithin_of_silent hq]

/-- The programs may differ in length, but neither depth is used up. -/
theorem classify_eq (m : Marks) (id : DeclId) :
    Scope.classify ⟨p, m⟩ id = Scope.classify ⟨q, m⟩ id := by
  have hp : p.size < max p.size q.size + 1 := by omega
  have hq : q.size < max p.size q.size + 1 := by omega
  rw [← Scope.classifyWithin_eq_classify id hp, ← Scope.classifyWithin_eq_classify id hq]
  exact h.classifyWithin_eq m _ _ _

end Program.Agrees

/-! ## Graphs and reports -/

namespace Program.Agrees

variable {p q : Program}

mutual

theorem lowerExpr_eq (h : p.Agrees q) : ∀ e : Expr, e.lower p = e.lower q
  | .mk form ty => by
      rw [Expr.lower, Expr.lower]
      exact h.lowerForm_eq ty form

-- only an access to a field and a call ask about declarations
theorem lowerForm_eq (h : p.Agrees q) (ty : Ty) :
    ∀ form : ExprForm, form.lower p ty = form.lower q ty
  | .field receiver _ => by
      simp only [ExprForm.lower, h.isStaticField_eq, h.lowerReceiver_eq receiver]
  | .call receiver _ args => by
      simp only [ExprForm.lower, h.takesReceiver_eq, h.lowerReceiver_eq receiver,
        h.lowerAll_eq args]
  | .create _ args => by simp only [ExprForm.lower, h.lowerAll_eq args]
  | .unary _ operand => by simp only [ExprForm.lower, h.lowerExpr_eq operand]
  | .binary _ left right => by
      simp only [ExprForm.lower, h.lowerExpr_eq left, h.lowerExpr_eq right]
  | .conditional condition thenArm elseArm => by
      simp only [ExprForm.lower, h.lowerExpr_eq condition, h.lowerExpr_eq thenArm,
        h.lowerExpr_eq elseArm]
  | .assign target value => by
      simp only [ExprForm.lower, h.lowerExpr_eq target, h.lowerExpr_eq value]
  | .update _ target value => by
      simp only [ExprForm.lower, h.lowerExpr_eq target, h.lowerExpr_eq value]
  | .element array index => by
      simp only [ExprForm.lower, h.lowerExpr_eq array, h.lowerExpr_eq index]
  | .newArray dimensions initializers => by
      simp only [ExprForm.lower, h.lowerAll_eq dimensions, h.lowerAll_eq initializers]
  | .cast _ operand => by simp only [ExprForm.lower, h.lowerExpr_eq operand]
  | .instanceOf operand _ => by simp only [ExprForm.lower, h.lowerExpr_eq operand]
  | .paren inner => by simp only [ExprForm.lower, h.lowerExpr_eq inner]
  | .literal _ | .var _ | .self | .super | .lambda | .methodRef | .classLiteral _ => by
      simp only [ExprForm.lower]

theorem lowerReceiver_eq (h : p.Agrees q) {needed : Bool} :
    ∀ e : Option Expr, Expr.lowerReceiver p needed e = Expr.lowerReceiver q needed e
  | none => by simp only [Expr.lowerReceiver]
  | some e => by simp only [Expr.lowerReceiver, h.lowerExpr_eq e]

theorem lowerAll_eq (h : p.Agrees q) : ∀ es : List Expr, Expr.lowerAll p es = Expr.lowerAll q es
  | [] => by simp only [Expr.lowerAll]
  | e :: rest => by simp only [Expr.lowerAll, h.lowerExpr_eq e, h.lowerAll_eq rest]

end

theorem lowerOption_eq (h : p.Agrees q) (e : Option Expr) :
    Expr.lowerOption p e = Expr.lowerOption q e := by
  cases e with
  | none => rfl
  | some e => simp only [Expr.lowerOption, h.lowerExpr_eq e]

theorem lowerTests_eq (h : p.Agrees q) (selector : NodeId) : ∀ (cases : List Case)
    (bodies : List BlockId), Case.lowerTests p selector cases bodies =
      Case.lowerTests q selector cases bodies
  | [], _ => rfl
  | _ :: _, [] => rfl
  | c :: rest, _ :: bodies => by
      simp only [Case.lowerTests, h.lowerExpr_eq c.label, h.lowerTests_eq selector rest bodies]

mutual

theorem lowerStmt_eq (h : p.Agrees q) : ∀ s : Stmt, s.lower p = s.lower q
  | .declare _ none => by simp only [Stmt.lower]
  | .declare _ (some e) => by simp only [Stmt.lower, h.lowerExpr_eq e]
  | .eval e => by simp only [Stmt.lower, h.lowerExpr_eq e]
  | .branch condition thenBody elseBody => by
      simp only [Stmt.lower, h.lowerExpr_eq condition, h.lowerBody_eq thenBody,
        h.lowerElse_eq elseBody]
  | .loop condition body => by
      simp only [Stmt.lower, h.lowerExpr_eq condition, h.lowerBody_eq body]
  | .select selector cases default => by
      simp only [Stmt.lower, h.lowerExpr_eq selector, h.lowerTests_eq, h.lowerBodies_eq cases,
        h.lowerDefault_eq default]
  | .leave value => by simp only [Stmt.lower, h.lowerOption_eq value]
  | .raise value => by simp only [Stmt.lower, h.lowerExpr_eq value]
  | .check condition detail => by
      simp only [Stmt.lower, h.lowerExpr_eq condition, h.lowerOption_eq detail]
  | .locked lock body => by simp only [Stmt.lower, h.lowerExpr_eq lock, h.lowerBody_eq body]
  | .block body => by simp only [Stmt.lower, h.lowerBody_eq body]
  | .exitLoop | .nextRound => by simp only [Stmt.lower]

theorem lowerBody_eq (h : p.Agrees q) :
    ∀ body : List Stmt, Stmt.lowerBody p body = Stmt.lowerBody q body
  | [] => by simp only [Stmt.lowerBody]
  | s :: rest => by simp only [Stmt.lowerBody, h.lowerStmt_eq s, h.lowerBody_eq rest]

theorem lowerElse_eq (h : p.Agrees q) :
    ∀ body : Option (List Stmt), Stmt.lowerOption p body = Stmt.lowerOption q body
  | none => by simp only [Stmt.lowerOption]
  | some body => by simp only [Stmt.lowerOption, h.lowerBody_eq body]

theorem lowerBodies_eq (h : p.Agrees q) {done : BlockId} : ∀ (cases : List Case)
    (blocks : List BlockId), Case.lowerBodies p done cases blocks =
      Case.lowerBodies q done cases blocks
  | [], _ => by simp only [Case.lowerBodies]
  | _ :: _, [] => by simp only [Case.lowerBodies]
  | .mk _ body :: rest, _ :: blocks => by
      simp only [Case.lowerBodies, h.lowerBody_eq body, h.lowerBodies_eq rest blocks]

theorem lowerDefault_eq (h : p.Agrees q) {done : BlockId} : ∀ (body : Option (List Stmt))
    (blocks : List BlockId), Stmt.lowerDefault p done body blocks =
      Stmt.lowerDefault q done body blocks
  | none, _ => by simp only [Stmt.lowerDefault]
  | some _, [] => by simp only [Stmt.lowerDefault]
  | some body, _ :: _ => by simp only [Stmt.lowerDefault, h.lowerBody_eq body]

end

theorem lower_eq (h : p.Agrees q) (proc : Procedure) : proc.lower p = proc.lower q := by
  rw [Procedure.lower, Procedure.lower, h.lowerBody_eq]

theorem classifyTy_eq (h : p.Agrees q) (m : Marks) (ty : Ty) :
    Scope.classifyTy ⟨p, m⟩ ty = Scope.classifyTy ⟨q, m⟩ ty := by
  simp only [Scope.classifyTy, h.classify_eq m]

theorem classifyTyOf_eq (h : p.Agrees q) (m : Marks) (id : DeclId) :
    Scope.classifyTyOf ⟨p, m⟩ id = Scope.classifyTyOf ⟨q, m⟩ id := by
  simp only [Scope.classifyTyOf, h.ty?_eq, h.classifyTy_eq m]

theorem evaluate_eq (h : p.Agrees q) (m : Marks) :
    Scope.evaluate ⟨p, m⟩ = Scope.evaluate ⟨q, m⟩ := by
  funext memory values op
  unfold Scope.evaluate
  simp only [Scope.classifyContent, h.isConstant_eq, h.classify_eq m, h.classifyTy_eq m,
    h.classifyTyOf_eq m]

theorem visitNode_eq (h : p.Agrees q) (m : Marks) (g : Graph) :
    Scope.visitNode ⟨p, m⟩ g = Scope.visitNode ⟨q, m⟩ g := by
  funext pt node
  rw [Scope.visitNode, Scope.visitNode, h.evaluate_eq m]

theorem dataflow_eq (h : p.Agrees q) (m : Marks) (g : Graph) :
    Scope.dataflow ⟨p, m⟩ g = Scope.dataflow ⟨q, m⟩ g := by
  simp only [Scope.dataflow, Scope.entryMemory, Scope.visitBlock, h.classify_eq m,
    h.visitNode_eq m g]

theorem analyze_eq (h : p.Agrees q) (pol : Policy) (g : Graph) :
    pol.analyze p g = pol.analyze q g := by
  have hreplay : Scope.replayNode ⟨p, pol.marks⟩ g = Scope.replayNode ⟨q, pol.marks⟩ g := by
    funext r node
    rw [Scope.replayNode, Scope.replayNode, h.visitNode_eq]
  have hblock : Scope.replayBlock ⟨p, pol.marks⟩ g = Scope.replayBlock ⟨q, pol.marks⟩ g := by
    funext entries r b
    rw [Scope.replayBlock, Scope.replayBlock, hreplay]
  simp only [Policy.analyze, Policy.scope, Scope.analyze, h.dataflow_eq, hblock]

/-- A declaration that says nothing admits every value, so its name is never shown. -/
theorem violation?_eq (h : p.Agrees q) (m : Marks) (o : Outcome) (f : Flow) :
    Scope.violation? ⟨p, m⟩ o f = Scope.violation? ⟨q, m⟩ o f := by
  rcases h f.target with heq | ⟨hp, hq⟩
  · simp only [Scope.violation?, h.classify_eq m, nameOf, heq]
  · have hunknown : Scope.classify ⟨q, m⟩ f.target = .unknown :=
      Scope.classifyWithin_of_silent hq _ _
    simp only [Scope.violation?, h.classify_eq m, hunknown, Sensitivity.admits, if_true]

theorem checkGraph_eq (h : p.Agrees q) (pol : Policy) (g : Graph) :
    pol.checkGraph p g = pol.checkGraph q g := by
  have hflows : g.flowsOf p = g.flowsOf q := by
    funext node
    simp only [Graph.flowsOf, argumentFlows, h.paramsOf_eq]
  have hviolation : Scope.violation? ⟨p, pol.marks⟩ = Scope.violation? ⟨q, pol.marks⟩ :=
    funext fun o => funext fun f => h.violation?_eq pol.marks o f
  simp only [Policy.checkGraph, Policy.scope, Scope.violations, h.analyze_eq, hflows, hviolation]

end Program.Agrees

/-- The classes, graphs and reports of a table do not depend on the program that represents it. -/
theorem Program.Represents.check_eq {p q : Program} {t : SymbolTable} (hp : p.Represents t)
    (hq : q.Represents t) (pol : Policy) (proc : Procedure) :
    (∀ id, (pol.scope p).classify id = (pol.scope q).classify id) ∧
      proc.lower p = proc.lower q ∧
      pol.analyzeProcedure p proc = pol.analyzeProcedure q proc ∧
      pol.check p proc = pol.check q proc := by
  have h : p.Agrees q := hp.agrees hq
  refine ⟨fun id => h.classify_eq pol.marks id, h.lower_eq proc, ?_, ?_⟩
  · rw [Policy.analyzeProcedure, Policy.analyzeProcedure, h.lower_eq, h.analyze_eq]
  · rw [Policy.check, Policy.check, h.lower_eq, h.checkGraph_eq]

end Disclosure
