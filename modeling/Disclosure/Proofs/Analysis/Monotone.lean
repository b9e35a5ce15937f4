import Disclosure.Proofs.Analysis.Convergence

/-!
# Effects are monotone

Stricter operands and a stricter memory never give a milder value or a milder memory.  Memories are
compared by `Memory.Within`, so one that lists more locations counts as higher even where it reads
the same; classes of values are compared node by node, and a node that was not visited counts as
`unknown`.  One visit of a node keeps the order of two points, and so does going through a block.
No condition is put on the graph: a node that is read before it is visited reads as `unknown` in
both runs.
-/

namespace Disclosure

def Values.Below (v w : Values) : Prop := ∀ n, v.read n ≤ w.read n

theorem Values.Below.insert {v w : Values} (h : v.Below w) (n : NodeId) {s t : Sensitivity}
    (hst : s ≤ t) : Values.Below (v.insert n s) (w.insert n t) := by
  intro n'
  rw [Values.read_insert, Values.read_insert]
  split
  · exact hst
  · exact h n'

structure Point.Within (a b : Point) : Prop where
  memory : a.memory.Within b.memory
  values : a.values.Below b.values

namespace Scope

variable {g : Graph} {a b : Point}

theorem evaluate_le_evaluate (sc : Scope) (h : a.Within b) (op : Operation) :
    sc.evaluate a.memory a.values op ≤ sc.evaluate b.memory b.values op :=
  agreement_within.evaluate sc h.memory fun n _ => h.values n

theorem execute_within_execute (g : Graph) (h : a.Within b) (op : Operation) :
    (g.execute a.memory a.values op).Within (g.execute b.memory b.values op) :=
  agreement_within.execute h.memory fun n _ => h.values n

theorem visitNode_within (sc : Scope) (h : a.Within b) (node : Node) :
    (sc.visitNode g a node).Within (sc.visitNode g b node) where
  memory := execute_within_execute g h node.op
  values := h.values.insert node.id (sc.evaluate_le_evaluate h node.op)

theorem visitNodes_within (sc : Scope) (h : a.Within b) (nodes : List Node) :
    (nodes.foldl (sc.visitNode g) a).Within (nodes.foldl (sc.visitNode g) b) := by
  induction nodes generalizing a b with
  | nil => exact h
  | cons node rest ih => exact ih (sc.visitNode_within h node)

/-- From a point within another, every node gets a class that is at most as strict and leaves a
memory that is within, and going through any block ends in a point that is within. -/
theorem visit_monotone (sc : Scope) (g : Graph) {m m' : Memory} {v v' : Values}
    (hm : m.Within m') (hv : v.Below v') :
    (∀ op, sc.evaluate m v op ≤ sc.evaluate m' v' op ∧
      (g.execute m v op).Within (g.execute m' v' op)) ∧
      ∀ block, (sc.visitBlock g block ⟨v, m⟩).Within (sc.visitBlock g block ⟨v', m'⟩) := by
  have hpoint : Point.Within ⟨v, m⟩ ⟨v', m'⟩ := ⟨hm, hv⟩
  constructor
  · intro op
    exact ⟨sc.evaluate_le_evaluate hpoint op, execute_within_execute g hpoint op⟩
  · intro block
    exact sc.visitNodes_within hpoint (g.nodesOf block)

/-- The block assigns a variable, cast to a type that is declared guarded, to an element of an
array.  From a memory where the variable is safe the array ends guarded, and from one where the
variable is forbidden the array ends forbidden. -/
theorem visit_monotone_element :
    let sc : Scope := ⟨((∅ : Program).declare "T" .type).mark ⟨0⟩ Marks.standard.guarded, .standard⟩
    let g := (((((Graph.start.addNode 0 (.var ⟨1⟩)).addNode 0 (.cast 0 (.declared ⟨0⟩))).addNode
      0 (.var ⟨2⟩)).addNode 0 (.var ⟨1⟩)).addNode 0 (.element 2 3)).addNode 0 (.assignment 4 1)
    let block := { Block.fresh 0 with nodes := [0, 1, 2, 3, 4, 5] }
    let m : Memory := ((∅ : Memory).insert (.var ⟨1⟩) .safe).insert (.var ⟨2⟩) .safe
    let m' : Memory := ((∅ : Memory).insert (.var ⟨1⟩) .forbidden).insert (.var ⟨2⟩) .unknown
    let v : Values := (∅ : Values).insert 2 .safe
    let pt := sc.visitBlock g block ⟨v, m⟩
    let pt' := sc.visitBlock g block ⟨∅, m'⟩
    m.Within m' ∧ v.Below ∅ ∧ pt.Within pt' ∧
      pt.memory.read (.var ⟨2⟩) = .guarded ∧ pt'.memory.read (.var ⟨2⟩) = .forbidden := by
  intro sc g block m m' v pt pt'
  have hm : m.Within m' := ((Memory.Within.refl ∅).insert _ (by decide)).insert _ (by decide)
  have hv : v.Below ∅ := by
    intro n
    rw [Values.read_insert]
    split
    · show Sensitivity.safe ≤ .unknown
      decide
    · exact le_refl _
  exact ⟨hm, hv, (sc.visit_monotone g hm hv).2 block, by decide +kernel, by decide +kernel⟩

end Scope

end Disclosure
