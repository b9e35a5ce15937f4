import Disclosure.Dataflow
import Disclosure.Memory.Batch
import Disclosure.Scope

/-!
# Effects of nodes

To visit a node gives its value a class, from the classes of its operands, from declarations and
from the memory; an assignment also changes the memory.  A write into an array or a field raises
the class of the array or of the object that has the field, too.
-/

namespace Disclosure

/-- The classes of the values of the nodes that were visited. -/
abbrev Values := Table NodeId Sensitivity

namespace Values

/-- The class of the value of a node; `unknown` before the node is visited. -/
def read (v : Values) (n : NodeId) : Sensitivity := (v.get? n).getD .unknown

end Values

namespace Scope

/-- The memory on entry to a procedure: every parameter has its declared class. -/
def entryMemory (sc : Scope) (g : Graph) : Memory :=
  Table.ofList (g.params.map fun param => (.var param, sc.classify param))

def evaluate (sc : Scope) (m : Memory) (v : Values) : Operation → Sensitivity
  | .literal _ => .safe
  | .nullCheck _ => .safe
  | .unary _ operand => v.read operand
  | .display operand => v.read operand
  | .binary _ left right => (v.read left).join (v.read right)
  | .concat left right => (v.read left).join (v.read right)
  | .concatUpdate left right => (v.read left).join (v.read right)
  | .ternary _ thenArm elseArm => (v.read thenArm).join (v.read elseArm)
  | .assignment _ value => v.read value
  | .var id => if sc.program.isConstant id then .safe else m.read (.var id)
  | .declaration id => sc.classifyTyOf id
  | .field _ id _ => sc.classifyContent id
  | .convert operand target _ => (v.read operand).pool (sc.classifyTy (.primitive target))
  | .cast operand target => (v.read operand).pool (sc.classifyTy target)
  | .leave (some result) => v.read result
  | .leave none => .safe
  | .invocation _ method _ resultType => (sc.classifyTy resultType).pool (sc.classify method)
  | .creation ctor _ ty => (sc.classifyTy ty).pool (sc.classify ctor)
  | _ => .unknown

end Scope

namespace Graph

def writeTo (g : Graph) (n : NodeId) (s : Sensitivity) (b : Memory.Batch) : Memory.Batch :=
  match g.locationOf? n with
  | some l => b.write l s
  | none => b

/-- The writes of an assignment of a value of class `s` to a target. -/
def writes (g : Graph) (v : Values) (target : NodeId) (s : Sensitivity) (b : Memory.Batch) :
    Memory.Batch :=
  match g.node? target with
  | none => b
  | some node =>
      match node.op with
      | .var id => b.write (.var id) s
      | .element array _ => g.writeTo array ((v.read array).join s) b
      | .field (some receiver) _ false =>
          g.writeTo receiver ((v.read receiver).join s) (g.writeTo target s b)
      | .field _ _ _ => g.writeTo target s b
      | _ => b

def execute (g : Graph) (m : Memory) (v : Values) : Operation → Memory
  | .assignment target value => (g.writes v target (v.read value) m.openBatch).close
  | _ => m

end Graph

structure Point where
  values : Values
  memory : Memory

namespace Scope

def visitNode (sc : Scope) (g : Graph) (pt : Point) (node : Node) : Point :=
  ⟨pt.values.insert node.id (sc.evaluate pt.memory pt.values node.op),
    g.execute pt.memory pt.values node.op⟩

def visitBlock (sc : Scope) (g : Graph) (block : Block) (pt : Point) : Point :=
  (g.nodesOf block).foldl (sc.visitNode g) pt

/-- The dataflow problem of a graph: facts are memories, and the state holds the classes of values
that were recorded last. -/
def dataflow (sc : Scope) (g : Graph) : Dataflow Values Memory where
  initial _ := sc.entryMemory g
  join _ facts := (Memory.joinAll facts).getD ∅
  transfer values block m :=
    let pt := sc.visitBlock g block ⟨values, m⟩
    (pt.memory, pt.values)

end Scope

end Disclosure
