import Disclosure.Location
import Disclosure.Program.Expr

/-!
# Control-flow graphs

A graph has blocks, which are linked by edges, and nodes, each of which is one evaluated construct
whose operands are other nodes.  A block lists the nodes that run in it, in order.  Blocks and
nodes are numbered in the order in which they are added.  A block can be removed, and its number
is not used again; edges and lists may go on naming it.
-/

namespace Disclosure

abbrev BlockId := Nat

abbrev NodeId := Nat

inductive Operation where
  | literal (value : Literal)
  | nullCheck (operand : NodeId)
  | unary (op : UnaryOp) (operand : NodeId)
  | binary (op : BinaryOp) (left right : NodeId)
  | concat (left right : NodeId)
  /-- The concatenation in an updating assignment. -/
  | concatUpdate (left right : NodeId)
  | ternary (condition thenArm elseArm : NodeId)
  | assignment (target value : NodeId)
  | var (id : DeclId)
  | declaration (id : DeclId)
  | field (receiver : Option NodeId) (id : DeclId) (isStatic : Bool)
  | convert (operand : NodeId) (target : Primitive) (widening : Bool)
  | cast (operand : NodeId) (target : Ty)
  /-- The text of an operand of a concatenation. -/
  | display (operand : NodeId)
  | leave (result : Option NodeId)
  | methodAccess (receiver : Option NodeId) (method : DeclId)
  | invocation (target : NodeId) (method : DeclId) (args : List NodeId) (resultType : Ty)
  | creation (ctor : DeclId) (args : List NodeId) (ty : Ty)
  | element (array index : NodeId)
  | arrayCreation (dimensions initializers : List NodeId)
  | implicitSelf
  | explicitSelf
  | super
  | instanceOf (operand : NodeId) (target : Ty)
  | locking (lock : NodeId)
  | assertion (condition : NodeId) (detail : Option NodeId)
  | raise (exception : NodeId)
  | caseTest (selector label : NodeId)
  | methodRef
  | lambda
  | lambdaResult (result : NodeId)
  | arrayType
  | className (ty : Ty)
  | primitiveType (kind : Primitive)
  | packageName
  | parameterizedType
  | classDeclaration
  | marker (text : String)
  deriving DecidableEq, Repr

namespace Operation

/-- The operands in the order in which they are evaluated. -/
def operands : Operation → List NodeId
  | nullCheck operand => [operand]
  | unary _ operand => [operand]
  | binary _ left right => [left, right]
  | concat left right => [left, right]
  | concatUpdate left right => [left, right]
  | ternary condition thenArm elseArm => [condition, thenArm, elseArm]
  | assignment target value => [target, value]
  | field receiver _ _ => receiver.toList
  | convert operand _ _ => [operand]
  | cast operand _ => [operand]
  | display operand => [operand]
  | leave result => result.toList
  | methodAccess receiver _ => receiver.toList
  | invocation target _ args _ => target :: args
  | creation _ args _ => args
  | element array index => [array, index]
  | arrayCreation dimensions initializers => dimensions ++ initializers
  | instanceOf operand _ => [operand]
  | locking lock => [lock]
  | assertion condition detail => condition :: detail.toList
  | raise exception => [exception]
  | caseTest selector label => [selector, label]
  | lambdaResult result => [result]
  | literal _ => []
  | var _ => []
  | declaration _ => []
  | implicitSelf => []
  | explicitSelf => []
  | super => []
  | methodRef => []
  | lambda => []
  | arrayType => []
  | className _ => []
  | primitiveType _ => []
  | packageName => []
  | parameterizedType => []
  | classDeclaration => []
  | marker _ => []

end Operation

/-- An evaluated construct and the block that it was added to. -/
structure Node where
  id : NodeId
  block : BlockId
  op : Operation
  deriving DecidableEq, Repr

inductive Terminator where
  | goto (target : BlockId)
  | branch (condition : NodeId) (thenBlock elseBlock : BlockId)
  | leave (result : Option NodeId)
  /-- The test at the head of a loop. -/
  | loop (condition : NodeId) (body done : BlockId)
  /-- Control does not go on. -/
  | stop
  deriving DecidableEq, Repr

structure Block where
  id : BlockId
  nodes : List NodeId
  terminator : Option Terminator
  preds : List BlockId
  succs : List BlockId
  deriving DecidableEq, Repr

namespace Block

def fresh (id : BlockId) : Block := ⟨id, [], none, [], []⟩

def addSucc (b : Block) (target : BlockId) : Block :=
  if target ∈ b.succs then b else { b with succs := b.succs ++ [target] }

def addPred (b : Block) (source : BlockId) : Block :=
  if source ∈ b.preds then b else { b with preds := b.preds ++ [source] }

end Block

/-- The control-flow graph of a procedure. -/
structure Graph where
  /-- The blocks by number; `none` stands where a block was removed. -/
  blocks : Array (Option Block)
  nodes : Array Node
  entry : BlockId
  exit : BlockId
  method : Option DeclId
  params : List DeclId
  deriving DecidableEq, Repr

namespace Graph

/-- The graph with an entry block and an exit block only. -/
def start : Graph := ⟨#[some (.fresh 0), some (.fresh 1)], #[], 0, 1, none, []⟩

instance : Inhabited Graph := ⟨start⟩

def block? (g : Graph) (b : BlockId) : Option Block := g.blocks[b]?.join

def node? (g : Graph) (n : NodeId) : Option Node := g.nodes[n]?

def nextBlock (g : Graph) : BlockId := g.blocks.size

def nextNode (g : Graph) : NodeId := g.nodes.size

def succs (g : Graph) (b : BlockId) : List BlockId :=
  match g.block? b with
  | some block => block.succs
  | none => []

def updateBlock (g : Graph) (b : BlockId) (f : Block → Block) : Graph :=
  { g with blocks := g.blocks.modify b (Option.map f) }

def addBlock (g : Graph) : Graph :=
  { g with blocks := g.blocks.push (some (.fresh g.nextBlock)) }

/-- Removes a block and leaves everything that names it. -/
def removeBlock (g : Graph) (b : BlockId) : Graph :=
  { g with blocks := g.blocks.modify b fun _ => none }

/-- Adds an edge: to the successors of the one block and to the predecessors of the other, where
there are such blocks. -/
def addEdge (g : Graph) (source target : BlockId) : Graph :=
  (g.updateBlock source (Block.addSucc · target)).updateBlock target (Block.addPred · source)

def terminate (g : Graph) (b : BlockId) (t : Terminator) : Graph :=
  g.updateBlock b fun block => { block with terminator := some t }

/-- Adds a node at the end of a block.  It gets a number even if there is no such block. -/
def addNode (g : Graph) (b : BlockId) (op : Operation) : Graph :=
  { g.updateBlock b (fun block => { block with nodes := block.nodes ++ [g.nextNode] }) with
    nodes := g.nodes.push ⟨g.nextNode, b, op⟩ }

theorem block?_updateBlock (g : Graph) (b b' : BlockId) (f : Block → Block) :
    (g.updateBlock b f).block? b' = if b = b' then (g.block? b').map f else g.block? b' := by
  unfold block? updateBlock
  rw [Array.getElem?_modify]
  split
  · cases g.blocks[b']? with
    | none => rfl
    | some o => cases o <;> rfl
  · rfl

theorem block?_addBlock (g : Graph) (b : BlockId) :
    g.addBlock.block? b = if b = g.nextBlock then some (.fresh b) else g.block? b := by
  unfold block? addBlock nextBlock
  rw [Array.getElem?_push]
  split
  · rename_i h
    subst h
    rfl
  · rfl

theorem block?_terminate (g : Graph) (b b' : BlockId) (t : Terminator) :
    (g.terminate b t).block? b' =
      if b = b' then (g.block? b').map fun block => { block with terminator := some t }
      else g.block? b' :=
  block?_updateBlock g b b' _

theorem block?_addNode (g : Graph) (b b' : BlockId) (op : Operation) :
    (g.addNode b op).block? b' =
      if b = b' then
        (g.block? b').map fun block => { block with nodes := block.nodes ++ [g.nextNode] }
      else g.block? b' :=
  block?_updateBlock g b b' _

theorem node?_addNode (g : Graph) (b : BlockId) (op : Operation) (n : NodeId) :
    (g.addNode b op).node? n = if n = g.nextNode then some ⟨n, b, op⟩ else g.node? n := by
  unfold node? addNode nextNode
  simp only [Array.getElem?_push]
  split
  · rename_i h
    subst h
    rfl
  · rfl

@[simp] theorem node?_updateBlock (g : Graph) (b : BlockId) (f : Block → Block) (n : NodeId) :
    (g.updateBlock b f).node? n = g.node? n := rfl

@[simp] theorem node?_addBlock (g : Graph) (n : NodeId) : g.addBlock.node? n = g.node? n := rfl

@[simp] theorem node?_terminate (g : Graph) (b : BlockId) (t : Terminator) (n : NodeId) :
    (g.terminate b t).node? n = g.node? n := rfl

@[simp] theorem node?_addEdge (g : Graph) (a b : BlockId) (n : NodeId) :
    (g.addEdge a b).node? n = g.node? n := rfl

/-- The existing nodes that a block lists. -/
def nodesOf (g : Graph) (b : Block) : List Node := b.nodes.filterMap g.node?

/-- The location that a node denotes, where at most `depth` receivers are followed. -/
def locationWithin (g : Graph) : Nat → NodeId → Option Location
  | 0, _ => none
  | depth + 1, n =>
      match g.node? n with
      | none => none
      | some node =>
          match node.op with
          | .var id => some (.var id)
          | .implicitSelf => some .self
          | .explicitSelf => some .self
          | .field _ id true => some (.static id)
          | .field (some receiver) id false =>
              (g.locationWithin depth receiver).map fun l => l.extend id
          | _ => none

/-- The location that a node denotes, if it denotes one: a variable, the current object, a static
field, or a field of what denotes a location.  A chain of receivers without repetition is never
longer than the list of nodes. -/
def locationOf? (g : Graph) (n : NodeId) : Option Location := g.locationWithin g.nodes.size n

end Graph

end Disclosure
