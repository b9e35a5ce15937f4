import Disclosure.Proofs.Lowering.Evaluation
import Disclosure.Proofs.Lowering.Spread
import Disclosure.Proofs.Program.Parts

/-!
# Which expressions are lowered from which drafts

The lowering of a procedure lowers the expressions in it one by one, each from the draft that there
is when its turn comes.  `Procedure.calls` lists these expressions with these drafts, so that one
can speak of the node that an expression of a procedure is lowered to.

The nodes that such a call has added stay where they are while the construction goes on.
-/

namespace Disclosure

namespace Lowering

/-- An expression and the draft from which it is lowered. -/
structure Call where
  expr : Expr
  draft : Draft

namespace Call

def node (p : Program) (c : Call) : NodeId := (c.expr.lower p c.draft).1

def result (p : Program) (c : Call) : Draft := (c.expr.lower p c.draft).2

end Call

end Lowering

open Lowering

mutual

/-- The calls that lower an expression from a draft, the one for the whole expression first. -/
def Expr.calls (p : Program) : Expr → Draft → List Call
  | .mk form ty, d => ⟨.mk form ty, d⟩ :: form.calls p ty d

def ExprForm.calls (p : Program) (ty : Ty) : ExprForm → Draft → List Call
  | .field receiver _, d => Expr.callsOption p receiver d
  | .call receiver method args, d =>
      let (r, d₁) := Expr.lowerReceiver p (p.takesReceiver method) receiver d
      Expr.callsOption p receiver d ++ Expr.callsAll p args (emit (.methodAccess r method) d₁).2
  | .create _ args, d => Expr.callsAll p args d
  | .unary _ operand, d => operand.calls p d
  | .binary op left right, d =>
      let (l, d₁) := left.lower p d
      left.calls p d ++
        right.calls p (if op.isConcat ty then (asText (decide (left.ty = ty)) l d₁).2 else d₁)
  | .conditional condition thenArm elseArm, d =>
      let (c, d₁) := condition.lower p d
      let ((thenBlock, elseBlock, merge), d₂) := branchOn c d₁
      let d₃ := { d₂ with current := thenBlock }
      let d₄ := (jumpIfOpen merge (thenArm.lower p d₃).2).2
      condition.calls p d ++
        (thenArm.calls p d₃ ++ elseArm.calls p { d₄ with current := elseBlock })
  | .assign target value, d => target.calls p d ++ value.calls p (target.lower p d).2
  | .update _ target value, d => target.calls p d ++ value.calls p (target.lower p d).2
  | .element array index, d => array.calls p d ++ index.calls p (array.lower p d).2
  | .newArray dimensions initializers, d =>
      Expr.callsAll p dimensions d ++
        Expr.callsAll p initializers (Expr.lowerAll p dimensions d).2
  | .cast _ operand, d => operand.calls p d
  | .instanceOf operand _, d => operand.calls p d
  | .paren inner, d => inner.calls p d
  | .literal _, _ => []
  | .var _, _ => []
  | .self, _ => []
  | .super, _ => []
  | .lambda, _ => []
  | .methodRef, _ => []
  | .classLiteral _, _ => []

def Expr.callsOption (p : Program) : Option Expr → Draft → List Call
  | some e, d => e.calls p d
  | none, _ => []

def Expr.callsAll (p : Program) : List Expr → Draft → List Call
  | [], _ => []
  | e :: rest, d => e.calls p d ++ Expr.callsAll p rest (e.lower p d).2

end

def Case.callsInTests (p : Program) (selector : NodeId) :
    List Case → List BlockId → Draft → List Call
  | c :: rest, b :: bodies, d =>
      let (label, d₁) := c.label.lower p d
      let (test, d₂) := emit (.caseTest selector label) d₁
      let (next, d₃) := newBlock d₂
      let d₄ := (endCurrent (.branch test b next) [b, next] d₃).2
      c.label.calls p d ++ callsInTests p selector rest bodies { d₄ with current := next }
  | _, _, _ => []

mutual

def Stmt.calls (p : Program) : Stmt → Draft → List Call
  | .declare var init, d => Expr.callsOption p init (emit (.declaration var) d).2
  | .eval e, d => e.calls p d
  | .branch condition thenBody elseBody, d =>
      let (c, d₁) := condition.lower p d
      let ((thenBlock, elseBlock, merge), d₂) := branchOn c d₁
      let d₃ := { d₂ with current := thenBlock }
      let d₄ := (jumpIfOpen merge (Stmt.lowerBody p thenBody d₃).2).2
      condition.calls p d ++ (Stmt.callsIn p thenBody d₃ ++
        Stmt.callsInOption p elseBody { d₄ with current := elseBlock })
  | .loop condition body, d =>
      let (head, d₁) := newBlock d
      let (bodyBlock, d₂) := newBlock d₁
      let (done, d₃) := newBlock d₂
      let d₄ := { (jumpIfOpen head d₃).2 with current := head }
      let (c, d₅) := condition.lower p d₄
      let d₆ := (endBlock head (.loop c bodyBlock done) [bodyBlock, done] d₅).2
      condition.calls p d₄ ++
        Stmt.callsIn p body { d₆.enter ⟨head, done⟩ with current := bodyBlock }
  | .select selector cases default, d =>
      let (s, d₁) := selector.lower p d
      let (done, d₂) := newBlock d₁
      let (bodies, d₃) := newBlocks cases.length d₂
      let (defaults, d₄) := newBlocks default.toList.length d₃
      let d₅ := (jumpIfOpen (defaults.headD done) (Case.lowerTests p s cases bodies d₄).2).2
      let (next, d₆) := enclosingNext done d₅
      let d₇ := d₆.enter ⟨next, done⟩
      let d₈ := (Case.lowerBodies p done cases (bodies ++ defaults) d₇).2
      selector.calls p d ++ (Case.callsInTests p s cases bodies d₄ ++
        (Case.callsInBodies p done cases (bodies ++ defaults) d₇ ++
          Stmt.callsInDefault p default defaults d₈))
  | .leave value, d => Expr.callsOption p value d
  | .raise value, d => value.calls p d
  | .check condition detail, d =>
      condition.calls p d ++ Expr.callsOption p detail (condition.lower p d).2
  | .locked lock body, d =>
      let (l, d₁) := lock.lower p d
      lock.calls p d ++ Stmt.callsIn p body (emit (.locking l) d₁).2
  | .block body, d => Stmt.callsIn p body d
  | .exitLoop, _ => []
  | .nextRound, _ => []

def Stmt.callsIn (p : Program) : List Stmt → Draft → List Call
  | [], _ => []
  | s :: rest, d => s.calls p d ++ Stmt.callsIn p rest (s.lower p d).2

def Stmt.callsInOption (p : Program) : Option (List Stmt) → Draft → List Call
  | none, _ => []
  | some body, d => Stmt.callsIn p body d

def Case.callsInBodies (p : Program) (done : BlockId) :
    List Case → List BlockId → Draft → List Call
  | .mk _ body :: rest, b :: blocks, d =>
      let d₁ := { d with current := b }
      let d₂ := (jumpIfOpen (blocks.headD done) (Stmt.lowerBody p body d₁).2).2
      Stmt.callsIn p body d₁ ++ Case.callsInBodies p done rest blocks d₂
  | _, _, _ => []

def Stmt.callsInDefault (p : Program) :
    Option (List Stmt) → List BlockId → Draft → List Call
  | some body, b :: _, d => Stmt.callsIn p body { d with current := b }
  | _, _, _ => []

end

def Procedure.calls (p : Program) (proc : Procedure) : List Call :=
  Stmt.callsIn p proc.body proc.startDraft

/-! ## The calls are part of the construction -/

namespace Graph

theorem IsPart.refl (g : Graph) : g.IsPart g := fun _ _ hn => hn

theorem IsPart.trans {g g' g'' : Graph} (h : g.IsPart g') (h' : g'.IsPart g'') : g.IsPart g'' :=
  fun n node hn => h' n node (h n node hn)

theorem isPart_of_nodes_eq {g g' : Graph} (h : g'.nodes = g.nodes) : g.IsPart g' := by
  intro n node hn
  rwa [node?, h]

theorem isPart_addNode (g : Graph) (b : BlockId) (op : Operation) : g.IsPart (g.addNode b op) :=
  ((IsPart.refl _).of_addNode).1

end Graph

namespace Lowering

/-- From `d` the step makes the calls `cs`, which lower the expressions `es`: the nodes that there
were before the step, and those that there were after each of the calls, are there after the
step. -/
structure Tracks {α : Type} (p : Program) (d : Draft) (x : Lowering α) (cs : List Call)
    (es : List Expr) : Prop where
  isPart : d.graph.IsPart (x d).2.graph
  result_isPart : ∀ c ∈ cs, (c.result p).graph.IsPart (x d).2.graph
  map_expr : cs.map Call.expr = es

section Tracking

variable {α β : Type} {p : Program} {d : Draft} {x : Lowering α} {f : α → Lowering β}
  {cs cs' : List Call} {es es' : List Expr}

theorem Tracks.bind (hx : Tracks p d x cs es) (hf : Tracks p (x d).2 (f (x d).1) cs' es') :
    Tracks p d (x >>= f) (cs ++ cs') (es ++ es') where
  isPart := hx.isPart.trans hf.isPart
  result_isPart c hc := by
    rcases List.mem_append.1 hc with hc | hc
    · exact (hx.result_isPart c hc).trans hf.isPart
    · exact hf.result_isPart c hc
  map_expr := by rw [List.map_append, hx.map_expr, hf.map_expr]

theorem Tracks.skip (hx : Tracks p d x [] []) (hf : Tracks p (x d).2 (f (x d).1) cs es) :
    Tracks p d (x >>= f) cs es :=
  hx.bind hf

theorem Tracks.close (hx : Tracks p d x cs es) (hf : Tracks p (x d).2 (f (x d).1) [] []) :
    Tracks p d (x >>= f) cs es := by
  simpa only [List.append_nil] using hx.bind hf

theorem Tracks.of_graph_eq (hx : Tracks p d x cs es) {d' : Draft} {y : Lowering β}
    (hd : d'.graph = d.graph) (hy : (y d').2.graph = (x d).2.graph) : Tracks p d' y cs es :=
  ⟨hd ▸ hy ▸ hx.isPart, fun c hc => hy ▸ hx.result_isPart c hc, hx.map_expr⟩

theorem tracks_of_nodes_eq (h : (x d).2.graph.nodes = d.graph.nodes) : Tracks p d x [] [] :=
  ⟨Graph.isPart_of_nodes_eq h, fun _ hc => (by cases hc), rfl⟩

theorem tracks_pure (a : α) : Tracks p d (pure a) [] [] := tracks_of_nodes_eq rfl

theorem tracks_emit (op : Operation) : Tracks p d (emit op) [] [] :=
  ⟨d.graph.isPart_addNode _ op, fun _ hc => (by cases hc), rfl⟩

theorem tracks_asText (isText : Bool) (n : NodeId) : Tracks p d (asText isText n) [] [] := by
  cases isText with
  | true => exact tracks_pure n
  | false => exact tracks_emit _

theorem tracks_newBlock : Tracks p d newBlock [] [] := tracks_of_nodes_eq rfl

theorem tracks_newBlocks (n : Nat) : Tracks p d (newBlocks n) [] [] := by
  induction n generalizing d with
  | zero => exact tracks_pure []
  | succ n ih => exact tracks_newBlock.skip (ih.close (tracks_pure _))

theorem tracks_moveTo (b : BlockId) : Tracks p d (moveTo b) [] [] := tracks_of_nodes_eq rfl

theorem tracks_moveToNew : Tracks p d moveToNew [] [] := tracks_newBlock.skip (tracks_moveTo _)

theorem tracks_endBlock (b : BlockId) (t : Terminator) (targets : List BlockId) :
    Tracks p d (endBlock b t targets) [] [] := by
  refine tracks_of_nodes_eq ?_
  rw [endBlock, Graph.foldl_addEdge_eq]
  rfl

theorem tracks_endCurrent (t : Terminator) (targets : List BlockId) :
    Tracks p d (endCurrent t targets) [] [] :=
  (tracks_endBlock d.current t targets).of_graph_eq rfl rfl

theorem tracks_jumpIfOpen (target : BlockId) : Tracks p d (jumpIfOpen target) [] [] := by
  refine ⟨?_, fun _ hc => (by cases hc), rfl⟩
  rw [jumpIfOpen]
  split
  · exact (tracks_endCurrent (p := p) (.goto target) [target]).isPart
  · exact .refl _

theorem tracks_jumpOut (target : JumpTargets → BlockId) : Tracks p d (jumpOut target) [] [] := by
  cases hloops : d.loops with
  | nil => exact tracks_moveToNew.of_graph_eq rfl (by rw [jumpOut, hloops])
  | cons t rest =>
      have hjump : Tracks p d (do endCurrent (.goto (target t)) [target t]; moveToNew) [] [] :=
        (tracks_endCurrent _ _).skip tracks_moveToNew
      exact hjump.of_graph_eq rfl (by rw [jumpOut, hloops])

theorem tracks_branchOn (c : NodeId) : Tracks p d (branchOn c) [] [] :=
  tracks_newBlock.skip (tracks_newBlock.skip (tracks_newBlock.skip
    ((tracks_endCurrent _ _).skip (tracks_pure _))))

theorem tracks_enclosingNext (done : BlockId) : Tracks p d (enclosingNext done) [] [] := by
  refine tracks_of_nodes_eq ?_
  rw [enclosingNext]
  split <;> rfl

theorem Tracks.insideLoop {t : JumpTargets} {body : Lowering Unit}
    (h : Tracks p (d.enter t) body cs es) : Tracks p d (insideLoop t body) cs es :=
  h.of_graph_eq rfl rfl

theorem tracks_finish : Tracks p d finish [] [] := by
  refine ⟨?_, fun _ hc => (by cases hc), rfl⟩
  rw [finish]
  split
  · split
    · exact (tracks_endCurrent (p := p) (.leave none) [d.graph.exit]).isPart
    · exact .refl _
  · exact .refl _

end Tracking

end Lowering

mutual

theorem Expr.lower_tracks (p : Program) (e : Expr) (d : Draft) :
    Tracks p d (e.lower p) (e.calls p d) e.parts := by
  match e with
  | .mk form ty =>
      have hparts := ExprForm.lower_tracks p ty form d
      rw [Expr.calls, Expr.parts]
      refine ⟨hparts.isPart, fun c hc => ?_, congrArg _ hparts.map_expr⟩
      rcases List.mem_cons.1 hc with rfl | hc
      · exact .refl _
      · exact hparts.result_isPart c hc

theorem ExprForm.lower_tracks (p : Program) (ty : Ty) (form : ExprForm) (d : Draft) :
    Tracks p d (form.lower p ty) (form.calls p ty d) form.parts := by
  match form with
  | .literal _ | .var _ | .self | .super | .lambda | .methodRef | .classLiteral _ =>
      simp only [ExprForm.lower, ExprForm.calls, ExprForm.parts]
      exact tracks_emit _
  | .field receiver id =>
      simp only [ExprForm.lower, ExprForm.calls, ExprForm.parts]
      exact (Expr.lowerReceiver_tracks p _ receiver d).close (tracks_emit _)
  | .call receiver method args =>
      simp only [ExprForm.lower, ExprForm.calls, ExprForm.parts]
      refine (Expr.lowerReceiver_tracks p _ receiver d).bind ?_
      exact (tracks_emit _).skip ((Expr.lowerAll_tracks p args _).close (tracks_emit _))
  | .create ctor args =>
      simp only [ExprForm.lower, ExprForm.calls, ExprForm.parts]
      exact (Expr.lowerAll_tracks p args d).close (tracks_emit _)
  | .unary _ operand | .instanceOf operand _ =>
      simp only [ExprForm.lower, ExprForm.calls, ExprForm.parts]
      exact (Expr.lower_tracks p operand d).close (tracks_emit _)
  | .binary op left right =>
      simp only [ExprForm.lower, ExprForm.calls, ExprForm.parts]
      split
      · refine (Expr.lower_tracks p left d).bind ?_
        refine (tracks_asText _ _).skip ?_
        refine (Expr.lower_tracks p right _).close ?_
        exact (tracks_asText _ _).skip (tracks_emit _)
      · refine (Expr.lower_tracks p left d).bind ?_
        exact (Expr.lower_tracks p right _).close (tracks_emit _)
  | .conditional condition thenArm elseArm =>
      simp only [ExprForm.lower, ExprForm.calls, ExprForm.parts]
      refine (Expr.lower_tracks p condition d).bind ?_
      refine (tracks_branchOn _).skip ?_
      refine (tracks_moveTo _).skip ?_
      refine (Expr.lower_tracks p thenArm _).bind ?_
      refine (tracks_jumpIfOpen _).skip ?_
      refine (tracks_moveTo _).skip ?_
      refine (Expr.lower_tracks p elseArm _).close ?_
      refine (tracks_jumpIfOpen _).skip ?_
      exact (tracks_moveTo _).skip (tracks_emit _)
  | .assign left right | .element left right =>
      simp only [ExprForm.lower, ExprForm.calls, ExprForm.parts]
      refine (Expr.lower_tracks p left d).bind ?_
      exact (Expr.lower_tracks p right _).close (tracks_emit _)
  | .update op target value =>
      simp only [ExprForm.lower, ExprForm.calls, ExprForm.parts]
      refine (Expr.lower_tracks p target d).bind ?_
      refine (Expr.lower_tracks p value _).close ?_
      split
      · refine (tracks_asText _ _).skip ?_
        exact (tracks_emit _).skip (tracks_emit _)
      · exact (tracks_emit _).skip (tracks_emit _)
  | .newArray dimensions initializers =>
      simp only [ExprForm.lower, ExprForm.calls, ExprForm.parts]
      refine (Expr.lowerAll_tracks p dimensions d).bind ?_
      exact (Expr.lowerAll_tracks p initializers _).close (tracks_emit _)
  | .cast target operand =>
      simp only [ExprForm.lower, ExprForm.calls, ExprForm.parts]
      refine (Expr.lower_tracks p operand d).close ?_
      split
      · exact tracks_emit _
      · exact tracks_emit _
  | .paren inner =>
      simp only [ExprForm.lower, ExprForm.calls, ExprForm.parts]
      exact Expr.lower_tracks p inner d

theorem Expr.lowerReceiver_tracks (p : Program) (needed : Bool) (receiver : Option Expr)
    (d : Draft) :
    Tracks p d (Expr.lowerReceiver p needed receiver) (Expr.callsOption p receiver d)
      (Expr.partsOption receiver) := by
  match receiver with
  | some e =>
      simp only [Expr.lowerReceiver, Expr.callsOption, Expr.partsOption]
      exact (Expr.lower_tracks p e d).close (tracks_pure _)
  | none =>
      simp only [Expr.lowerReceiver, Expr.callsOption, Expr.partsOption]
      cases needed with
      | true => exact (tracks_emit _).skip (tracks_pure _)
      | false => exact tracks_pure none

theorem Expr.lowerAll_tracks (p : Program) (es : List Expr) (d : Draft) :
    Tracks p d (Expr.lowerAll p es) (Expr.callsAll p es d) (Expr.partsAll es) := by
  match es with
  | [] =>
      simp only [Expr.lowerAll, Expr.callsAll, Expr.partsAll]
      exact tracks_pure []
  | e :: rest =>
      simp only [Expr.lowerAll, Expr.callsAll, Expr.partsAll]
      refine (Expr.lower_tracks p e d).bind ?_
      exact (Expr.lowerAll_tracks p rest _).close (tracks_pure _)

end

theorem Expr.lowerOption_tracks (p : Program) (e : Option Expr) (d : Draft) :
    Tracks p d (Expr.lowerOption p e) (Expr.callsOption p e d) (Expr.partsOption e) := by
  cases e with
  | none => exact tracks_pure none
  | some e => exact (Expr.lower_tracks p e d).close (tracks_pure _)

theorem Lowering.length_newBlocks (n : Nat) (d : Draft) : (newBlocks n d).1.length = n := by
  induction n generalizing d with
  | zero => rfl
  | succ n ih => exact congrArg (· + 1) (ih (newBlock d).2)

/-- Every label is tested, because there is a block for the body of every case. -/
theorem Case.lowerTests_tracks (p : Program) (selector : NodeId) (cases : List Case)
    {bodies : List BlockId} (hlength : cases.length ≤ bodies.length) (d : Draft) :
    Tracks p d (Case.lowerTests p selector cases bodies)
      (Case.callsInTests p selector cases bodies d) (Case.labelExprs cases) := by
  match cases, bodies with
  | [], _ => exact tracks_pure ()
  | c :: rest, b :: bodies =>
      refine (Expr.lower_tracks p c.label d).bind ?_
      refine (tracks_emit _).skip ?_
      refine tracks_newBlock.skip ?_
      refine (tracks_endCurrent _ _).skip ?_
      refine (tracks_moveTo _).skip ?_
      exact Case.lowerTests_tracks p selector rest (Nat.le_of_succ_le_succ hlength) _

mutual

theorem Stmt.lower_tracks (p : Program) (s : Stmt) (d : Draft) :
    Tracks p d (s.lower p) (s.calls p d) s.exprs := by
  match s with
  | .declare var none =>
      simp only [Stmt.lower, Stmt.calls, Stmt.exprs, Expr.callsOption, Expr.partsOption]
      exact (tracks_emit _).skip (tracks_pure ())
  | .declare var (some init) =>
      simp only [Stmt.lower, Stmt.calls, Stmt.exprs, Expr.callsOption, Expr.partsOption]
      refine (tracks_emit _).skip ?_
      refine (Expr.lower_tracks p init _).close ?_
      exact (tracks_emit _).skip ((tracks_emit _).skip (tracks_pure ()))
  | .eval e =>
      simp only [Stmt.lower, Stmt.calls, Stmt.exprs]
      exact (Expr.lower_tracks p e d).close (tracks_pure ())
  | .branch condition thenBody elseBody =>
      simp only [Stmt.lower, Stmt.calls, Stmt.exprs]
      refine (Expr.lower_tracks p condition d).bind ?_
      refine (tracks_branchOn _).skip ?_
      refine (tracks_moveTo _).skip ?_
      refine (Stmt.lowerBody_tracks p thenBody _).bind ?_
      refine (tracks_jumpIfOpen _).skip ?_
      refine (tracks_moveTo _).skip ?_
      refine (Stmt.lowerOption_tracks p elseBody _).close ?_
      exact (tracks_jumpIfOpen _).skip (tracks_moveTo _)
  | .loop condition body =>
      simp only [Stmt.lower, Stmt.calls, Stmt.exprs]
      refine tracks_newBlock.skip (tracks_newBlock.skip (tracks_newBlock.skip ?_))
      refine (tracks_jumpIfOpen _).skip ?_
      refine (tracks_moveTo _).skip ?_
      refine (Expr.lower_tracks p condition _).bind ?_
      refine (tracks_endBlock _ _ _).skip ?_
      refine Tracks.close ?_ ((tracks_jumpIfOpen _).skip (tracks_moveTo _))
      exact ((tracks_moveTo _).skip (Stmt.lowerBody_tracks p body _)).insideLoop
  | .select selector cases default =>
      have hbodies := length_newBlocks cases.length
      have hdefaults := length_newBlocks default.toList.length
      simp only [Stmt.lower, Stmt.calls, Stmt.exprs]
      refine (Expr.lower_tracks p selector d).bind ?_
      refine tracks_newBlock.skip ?_
      refine (tracks_newBlocks _).skip ((tracks_newBlocks _).skip ?_)
      refine (Case.lowerTests_tracks p _ cases (Nat.le_of_eq (hbodies _).symm) _).bind ?_
      refine (tracks_jumpIfOpen _).skip ((tracks_enclosingNext _).skip ?_)
      refine Tracks.close ?_ (tracks_moveTo _)
      refine (Tracks.bind (Case.lowerBodies_tracks p _ cases ?_ _) ?_).insideLoop
      · rw [List.length_append, hbodies]
        exact Nat.le_add_right _ _
      · exact Stmt.lowerDefault_tracks p _ default (Nat.le_of_eq (hdefaults _).symm) _
  | .leave value =>
      simp only [Stmt.lower, Stmt.calls, Stmt.exprs]
      refine (Expr.lowerOption_tracks p value d).close ?_
      refine (tracks_emit _).skip ?_
      -- the exit is read off the draft, so this is not yet `endCurrent` of given blocks
      refine Tracks.skip ?_ tracks_moveToNew
      exact (tracks_endCurrent _ _).of_graph_eq rfl rfl
  | .raise value =>
      simp only [Stmt.lower, Stmt.calls, Stmt.exprs]
      refine (Expr.lower_tracks p value d).close ?_
      refine (tracks_emit _).skip ?_
      exact (tracks_endCurrent _ _).skip tracks_moveToNew
  | .check condition detail =>
      simp only [Stmt.lower, Stmt.calls, Stmt.exprs]
      refine (Expr.lower_tracks p condition d).bind ?_
      refine (Expr.lowerOption_tracks p detail _).close ?_
      exact (tracks_emit _).skip (tracks_pure ())
  | .locked lock body =>
      simp only [Stmt.lower, Stmt.calls, Stmt.exprs]
      refine (Expr.lower_tracks p lock d).bind ?_
      exact (tracks_emit _).skip (Stmt.lowerBody_tracks p body _)
  | .block body =>
      simp only [Stmt.lower, Stmt.calls, Stmt.exprs]
      exact Stmt.lowerBody_tracks p body d
  | .exitLoop | .nextRound =>
      simp only [Stmt.lower, Stmt.calls, Stmt.exprs]
      exact tracks_jumpOut _

theorem Stmt.lowerBody_tracks (p : Program) (body : List Stmt) (d : Draft) :
    Tracks p d (Stmt.lowerBody p body) (Stmt.callsIn p body d) (Stmt.exprsIn body) := by
  match body with
  | [] =>
      simp only [Stmt.lowerBody, Stmt.callsIn, Stmt.exprsIn]
      exact tracks_pure ()
  | s :: rest =>
      simp only [Stmt.lowerBody, Stmt.callsIn, Stmt.exprsIn]
      exact (Stmt.lower_tracks p s d).bind (Stmt.lowerBody_tracks p rest _)

theorem Stmt.lowerOption_tracks (p : Program) (body : Option (List Stmt)) (d : Draft) :
    Tracks p d (Stmt.lowerOption p body) (Stmt.callsInOption p body d)
      (Stmt.exprsInOption body) := by
  match body with
  | none =>
      simp only [Stmt.lowerOption, Stmt.callsInOption, Stmt.exprsInOption]
      exact tracks_pure ()
  | some body =>
      simp only [Stmt.lowerOption, Stmt.callsInOption, Stmt.exprsInOption]
      exact Stmt.lowerBody_tracks p body d

theorem Case.lowerBodies_tracks (p : Program) (done : BlockId) (cases : List Case)
    {blocks : List BlockId} (hlength : cases.length ≤ blocks.length) (d : Draft) :
    Tracks p d (Case.lowerBodies p done cases blocks)
      (Case.callsInBodies p done cases blocks d) (Case.exprsIn cases) := by
  match cases, blocks with
  | [], _ =>
      simp only [Case.lowerBodies, Case.callsInBodies, Case.exprsIn]
      exact tracks_pure ()
  | .mk _ body :: rest, b :: blocks =>
      simp only [Case.lowerBodies, Case.callsInBodies, Case.exprsIn]
      refine (tracks_moveTo _).skip ?_
      refine (Stmt.lowerBody_tracks p body _).bind ?_
      refine (tracks_jumpIfOpen _).skip ?_
      exact Case.lowerBodies_tracks p done rest (Nat.le_of_succ_le_succ hlength) _

theorem Stmt.lowerDefault_tracks (p : Program) (done : BlockId) (default : Option (List Stmt))
    {blocks : List BlockId} (hlength : default.toList.length ≤ blocks.length) (d : Draft) :
    Tracks p d (Stmt.lowerDefault p done default blocks)
      (Stmt.callsInDefault p default blocks d) (Stmt.exprsInOption default) := by
  match default, blocks with
  | none, _ =>
      simp only [Stmt.lowerDefault, Stmt.callsInDefault, Stmt.exprsInOption]
      exact tracks_pure ()
  | some body, b :: _ =>
      simp only [Stmt.lowerDefault, Stmt.callsInDefault, Stmt.exprsInOption]
      refine (tracks_moveTo _).skip ?_
      exact (Stmt.lowerBody_tracks p body _).close (tracks_jumpIfOpen _)

end

/-- The calls for a procedure lower its expressions, and what they have added is in its graph. -/
theorem Procedure.lower_tracks (p : Program) (proc : Procedure) :
    Tracks p proc.startDraft (do Stmt.lowerBody p proc.body; finish) (proc.calls p) proc.exprs :=
  (Stmt.lowerBody_tracks p proc.body proc.startDraft).close tracks_finish

end Disclosure
