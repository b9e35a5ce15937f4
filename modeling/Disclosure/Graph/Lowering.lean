import Disclosure.Graph.Basic
import Disclosure.Program.Stmt

/-!
# From procedures to graphs

`Procedure.lower` gives the graph of a procedure.  Every expression becomes nodes, the operands
before the operation; statements become blocks and edges.  The construction goes through the
statements in order and keeps a draft: the graph so far, the block that takes the next node, and
the targets of the jumps out of the loops around it.

After a statement that control does not leave at its end, the draft goes on in a block without
predecessors.
-/

namespace Disclosure

/-- Where the jumps inside a loop or a choice go. -/
structure JumpTargets where
  next : BlockId
  done : BlockId
  deriving DecidableEq, Repr

/-- A graph under construction. -/
structure Draft where
  graph : Graph
  /-- The block that takes the next node. -/
  current : BlockId
  /-- The targets of jumps, those of the innermost loop first. -/
  loops : List JumpTargets

abbrev Lowering := StateM Draft

namespace Lowering

def newBlock : Lowering BlockId := fun d =>
  (d.graph.nextBlock, { d with graph := d.graph.addBlock })

def newBlocks : Nat → Lowering (List BlockId)
  | 0 => pure []
  | n + 1 => do
      let b ← newBlock
      let rest ← newBlocks n
      return b :: rest

def emit (op : Operation) : Lowering NodeId := fun d =>
  (d.graph.nextNode, { d with graph := d.graph.addNode d.current op })

def moveTo (b : BlockId) : Lowering Unit := fun d => ((), { d with current := b })

def moveToNew : Lowering Unit := do
  let b ← newBlock
  moveTo b

def endBlock (b : BlockId) (t : Terminator) (targets : List BlockId) : Lowering Unit := fun d =>
  ((), { d with
    graph := targets.foldl (fun g target => g.addEdge b target) (d.graph.terminate b t) })

def endCurrent (t : Terminator) (targets : List BlockId) : Lowering Unit := fun d =>
  endBlock d.current t targets d

/-- Ends the current block with a jump, unless it has ended already. -/
def jumpIfOpen (target : BlockId) : Lowering Unit := fun d =>
  match d.graph.block? d.current with
  | some ⟨_, _, none, _, _⟩ => endCurrent (.goto target) [target] d
  | _ => ((), d)

/-- Jumps to a target of the innermost loop, if there is one, and goes on in a new block. -/
def jumpOut (target : JumpTargets → BlockId) : Lowering Unit := fun d =>
  match d.loops with
  | [] => moveToNew d
  | t :: _ => (do endCurrent (.goto (target t)) [target t]; moveToNew) d

def insideLoop (t : JumpTargets) (body : Lowering Unit) : Lowering Unit := fun d =>
  let (_, d') := body { d with loops := t :: d.loops }
  ((), { d' with loops := d'.loops.tail })

/-- Ends the current block with a branch to two new blocks, and adds a third one for where they
meet. -/
def branchOn (condition : NodeId) : Lowering (BlockId × BlockId × BlockId) := do
  let thenBlock ← newBlock
  let elseBlock ← newBlock
  let merge ← newBlock
  endCurrent (.branch condition thenBlock elseBlock) [thenBlock, elseBlock]
  return (thenBlock, elseBlock, merge)

/-- The node of an operand of a concatenation: its text, if it is no text already. -/
def asText (isText : Bool) (n : NodeId) : Lowering NodeId :=
  if isText then pure n else emit (.display n)

end Lowering

open Lowering

/-- Whether an operator concatenates texts: a sum of a declared type is one. -/
def BinaryOp.isConcat (op : BinaryOp) (result : Ty) : Bool :=
  match op, result with
  | .add, .declared _ => true
  | _, _ => false

def Ty.numberCast? (source target : Ty) : Option (Primitive × Primitive) :=
  match source, target with
  | .primitive a, .primitive b => if a.isNumber && b.isNumber then some (a, b) else none
  | _, _ => none

mutual

/-- Adds the nodes of an expression and gives the node of its value. -/
def Expr.lower (p : Program) : Expr → Lowering NodeId
  | .mk form ty => form.lower p ty

def ExprForm.lower (p : Program) (ty : Ty) : ExprForm → Lowering NodeId
  | .literal value => emit (.literal value)
  | .var id => emit (.var id)
  | .field receiver id => do
      let r ← Expr.lowerReceiver p (!p.isStaticField id) receiver
      emit (.field r id (p.isStaticField id))
  | .call receiver method args => do
      let r ← Expr.lowerReceiver p (p.takesReceiver method) receiver
      let target ← emit (.methodAccess r method)
      let args ← Expr.lowerAll p args
      emit (.invocation target method args ty)
  | .create ctor args => do
      let args ← Expr.lowerAll p args
      emit (.creation ctor args ty)
  | .unary op operand => do
      let n ← operand.lower p
      emit (.unary op n)
  | .binary op left right =>
      if op.isConcat ty then do
        let l ← left.lower p
        let l ← asText (decide (left.ty = ty)) l
        let r ← right.lower p
        let r ← asText (decide (right.ty = ty)) r
        emit (.concat l r)
      else do
        let l ← left.lower p
        let r ← right.lower p
        emit (.binary op l r)
  | .conditional condition thenArm elseArm => do
      let c ← condition.lower p
      let (thenBlock, elseBlock, merge) ← branchOn c
      moveTo thenBlock
      let t ← thenArm.lower p
      jumpIfOpen merge
      moveTo elseBlock
      let e ← elseArm.lower p
      jumpIfOpen merge
      moveTo merge
      emit (.ternary c t e)
  | .assign target value => do
      let t ← target.lower p
      let v ← value.lower p
      emit (.assignment t v)
  | .update op target value => do
      let t ← target.lower p
      let v ← value.lower p
      if op.isConcat target.ty then do
        let v ← asText (decide (value.ty = target.ty)) v
        let sum ← emit (.concatUpdate t v)
        emit (.assignment t sum)
      else do
        let sum ← emit (.binary op t v)
        emit (.assignment t sum)
  | .element array index => do
      let a ← array.lower p
      let i ← index.lower p
      emit (.element a i)
  | .newArray dimensions initializers => do
      let ds ← Expr.lowerAll p dimensions
      let is ← Expr.lowerAll p initializers
      emit (.arrayCreation ds is)
  | .cast target operand => do
      let n ← operand.lower p
      match operand.ty.numberCast? target with
      | some (a, b) => emit (.convert n b (a.widensTo b))
      | none => emit (.cast n target)
  | .instanceOf operand target => do
      let n ← operand.lower p
      emit (.instanceOf n target)
  | .paren inner => inner.lower p
  | .self => emit .explicitSelf
  | .super => emit .super
  | .lambda => emit .lambda
  | .methodRef => emit .methodRef
  | .classLiteral ty => emit (.className ty)

/-- Adds the nodes of a receiver; a missing one is the current object where one is needed. -/
def Expr.lowerReceiver (p : Program) (needed : Bool) : Option Expr → Lowering (Option NodeId)
  | some e => do
      let n ← e.lower p
      return some n
  | none =>
      if needed then do
        let n ← emit .implicitSelf
        return some n
      else pure none

def Expr.lowerAll (p : Program) : List Expr → Lowering (List NodeId)
  | [] => pure []
  | e :: rest => do
      let n ← e.lower p
      let ns ← Expr.lowerAll p rest
      return n :: ns

end

def Expr.lowerOption (p : Program) : Option Expr → Lowering (Option NodeId)
  | some e => do
      let n ← e.lower p
      return some n
  | none => pure none

/-- Adds the tests of a choice: each goes to the block of its case or on to the next test. -/
def Case.lowerTests (p : Program) (selector : NodeId) :
    List Case → List BlockId → Lowering Unit
  | c :: rest, b :: bodies => do
      let label ← c.label.lower p
      let test ← emit (.caseTest selector label)
      let next ← newBlock
      endCurrent (.branch test b next) [b, next]
      moveTo next
      lowerTests p selector rest bodies
  | _, _ => pure ()

/-- Where the next round starts for a jump inside a choice: that of the loop around it. -/
def Lowering.enclosingNext (done : BlockId) : Lowering BlockId := fun d =>
  match d.loops with
  | [] => (done, d)
  | t :: _ => (t.next, d)

mutual

def Stmt.lower (p : Program) : Stmt → Lowering Unit
  | .declare var init => do
      let _ ← emit (.declaration var)
      match init with
      | none => pure ()
      | some e => do
          let v ← e.lower p
          let t ← emit (.var var)
          let _ ← emit (.assignment t v)
  | .eval e => do
      let _ ← e.lower p
  | .branch condition thenBody elseBody => do
      let c ← condition.lower p
      let (thenBlock, elseBlock, merge) ← branchOn c
      moveTo thenBlock
      Stmt.lowerBody p thenBody
      jumpIfOpen merge
      moveTo elseBlock
      Stmt.lowerOption p elseBody
      jumpIfOpen merge
      moveTo merge
  | .loop condition body => do
      let head ← newBlock
      let bodyBlock ← newBlock
      let done ← newBlock
      jumpIfOpen head
      moveTo head
      let c ← condition.lower p
      endBlock head (.loop c bodyBlock done) [bodyBlock, done]
      insideLoop ⟨head, done⟩ do
        moveTo bodyBlock
        Stmt.lowerBody p body
      jumpIfOpen head
      moveTo done
  | .select selector cases default => do
      let s ← selector.lower p
      let done ← newBlock
      let bodies ← newBlocks cases.length
      let defaults ← newBlocks default.toList.length
      Case.lowerTests p s cases bodies
      jumpIfOpen (defaults.headD done)
      let next ← enclosingNext done
      insideLoop ⟨next, done⟩ do
        Case.lowerBodies p done cases (bodies ++ defaults)
        Stmt.lowerDefault p done default defaults
      moveTo done
  | .leave value => do
      let v ← Expr.lowerOption p value
      let _ ← emit (.leave v)
      (fun d => endCurrent (.leave v) [d.graph.exit] d)
      moveToNew
  | .raise value => do
      let v ← value.lower p
      let _ ← emit (.raise v)
      endCurrent .stop []
      moveToNew
  | .check condition detail => do
      let c ← condition.lower p
      let d ← Expr.lowerOption p detail
      let _ ← emit (.assertion c d)
  | .locked lock body => do
      let l ← lock.lower p
      let _ ← emit (.locking l)
      Stmt.lowerBody p body
  | .block body => Stmt.lowerBody p body
  | .exitLoop => jumpOut JumpTargets.done
  | .nextRound => jumpOut JumpTargets.next

def Stmt.lowerBody (p : Program) : List Stmt → Lowering Unit
  | [] => pure ()
  | s :: rest => do
      s.lower p
      Stmt.lowerBody p rest

def Stmt.lowerOption (p : Program) : Option (List Stmt) → Lowering Unit
  | none => pure ()
  | some body => Stmt.lowerBody p body

/-- Adds the bodies of cases, each in its block, from which control goes on to the next block, and
from the last one to `done`. -/
def Case.lowerBodies (p : Program) (done : BlockId) :
    List Case → List BlockId → Lowering Unit
  | .mk _ body :: rest, b :: blocks => do
      moveTo b
      Stmt.lowerBody p body
      jumpIfOpen (blocks.headD done)
      Case.lowerBodies p done rest blocks
  | _, _ => pure ()

def Stmt.lowerDefault (p : Program) (done : BlockId) :
    Option (List Stmt) → List BlockId → Lowering Unit
  | some body, b :: _ => do
      moveTo b
      Stmt.lowerBody p body
      jumpIfOpen done
  | _, _ => pure ()

end

/-- Ends a body that control can leave at its end: in the entry block, or in one with a
predecessor. -/
def Lowering.finish : Lowering Unit := fun d =>
  match d.graph.block? d.current with
  | some ⟨_, _, none, preds, _⟩ =>
      if d.current = d.graph.entry ∨ preds ≠ [] then
        endCurrent (.leave none) [d.graph.exit] d
      else ((), d)
  | _ => ((), d)

def Procedure.lower (p : Program) (proc : Procedure) : Graph :=
  let start : Graph := { Graph.start with method := some proc.method, params := proc.params }
  let (_, d) := (do Stmt.lowerBody p proc.body; Lowering.finish) ⟨start, start.entry, []⟩
  d.graph

end Disclosure
