import Disclosure.Effect
import Disclosure.Proofs.Dataflow.Fixpoint
import Disclosure.Proofs.Graph.Uses
import Disclosure.Proofs.Memory

/-!
# What the effect of a node depends on

The class of a node's value and the memory after it depend on the memory before it and on the
classes of certain nodes, `g.readsOf op`.  They depend on them in the same way whether two runs are
to be equal or one is to be below the other, so this is shown once, for any `Agreement` between
classes and between memories.

A block is self-contained if whatever its nodes read was visited in the block before.  Going through
such a block gives a memory that depends on nothing but the memory before it: the dataflow problem
of a graph of such blocks is stateless.
-/

namespace Disclosure

/-- The nodes whose classes are read when an operation takes effect.  An assignment also raises the
class of the array or the object that its target is a part of. -/
def Graph.readsOf (g : Graph) (op : Operation) : List NodeId :=
  op.inputs ++
    match op with
    | .assignment target _ =>
        match g.node? target with
        | some node => node.op.inputs
        | none => []
    | _ => []

/-- A relation between classes and one between memories that every effect respects. -/
structure Agreement (r : Sensitivity → Sensitivity → Prop) (R : Memory → Memory → Prop) :
    Prop where
  refl : ∀ s, r s s
  join : ∀ {a a' b b'}, r a a' → r b b' → r (a.join b) (a'.join b')
  pool : ∀ {a a'} (c), r a a' → r (a.pool c) (a'.pool c)
  read : ∀ {m m'}, R m m' → ∀ l, r (m.read l) (m'.read l)
  insert : ∀ {m m' s s'}, R m m' → ∀ l, r s s' → R (m.insert l s) (m'.insert l s')

theorem agreement_eq : Agreement (· = ·) (· = ·) where
  refl _ := rfl
  join ha hb := by rw [ha, hb]
  pool _ ha := by rw [ha]
  read hm _ := by rw [hm]
  insert hm _ hs := by rw [hm, hs]

theorem agreement_below : Agreement (· ≤ ·) Memory.Below where
  refl := le_refl
  join := Sensitivity.join_le_join
  pool c := Sensitivity.pool_le_pool c
  read hm l := hm l
  insert hm l hs := hm.insert l hs

namespace Agreement

variable {r : Sensitivity → Sensitivity → Prop} {R : Memory → Memory → Prop} {g : Graph}
  {m m' : Memory} {v v' : Values}

theorem evaluate (h : Agreement r R) (sc : Scope) (hm : R m m') {op : Operation}
    (hv : ∀ n ∈ op.inputs, r (v.read n) (v'.read n)) :
    r (sc.evaluate m v op) (sc.evaluate m' v' op) := by
  cases op with
  | unary _ n => exact hv n (by simp [Operation.inputs, Operation.operands])
  | display n => exact hv n (by simp [Operation.inputs, Operation.operands])
  | binary _ l n | concat l n | concatUpdate l n =>
      exact h.join (hv l (by simp [Operation.inputs, Operation.operands]))
        (hv n (by simp [Operation.inputs, Operation.operands]))
  | ternary _ t e =>
      exact h.join (hv t (by simp [Operation.inputs, Operation.operands]))
        (hv e (by simp [Operation.inputs, Operation.operands]))
  | assignment _ n => exact hv n (by simp [Operation.inputs, Operation.operands])
  | var id =>
      simp only [Scope.evaluate]
      split
      · exact h.refl _
      · exact h.read hm _
  | convert n => exact h.pool _ (hv n (by simp [Operation.inputs, Operation.operands]))
  | cast n => exact h.pool _ (hv n (by simp [Operation.inputs, Operation.operands]))
  | leave result =>
      cases result with
      | none => exact h.refl _
      | some n => exact hv n (by simp [Operation.inputs, Operation.operands])
  | _ => exact h.refl _

theorem writeTo (h : Agreement r R) {b b' : Memory.Batch} {s s' : Sensitivity} (n : NodeId)
    (hb : R b.close b'.close) (hs : r s s') :
    R (g.writeTo n s b).close (g.writeTo n s' b').close := by
  unfold Graph.writeTo
  cases g.locationOf? n with
  | none => exact hb
  | some l =>
      rw [Memory.Batch.close_write, Memory.Batch.close_write]
      exact h.insert hb l hs

theorem writes (h : Agreement r R) {b b' : Memory.Batch} {s s' : Sensitivity} {target : NodeId}
    (hb : R b.close b'.close) (hs : r s s')
    (hv : ∀ {node}, g.node? target = some node → ∀ n ∈ node.op.inputs, r (v.read n) (v'.read n)) :
    R (g.writes v target s b).close (g.writes v' target s' b').close := by
  unfold Graph.writes
  cases hnode : g.node? target with
  | none => exact hb
  | some node =>
      have hvals := hv hnode
      obtain ⟨id, block, op⟩ := node
      cases op with
      | var id =>
          show R (b.write (.var id) s).close (b'.write (.var id) s').close
          rw [Memory.Batch.close_write, Memory.Batch.close_write]
          exact h.insert hb _ hs
      | element array index =>
          have harray := hvals array (by simp [Operation.inputs, Operation.operands])
          exact h.writeTo array hb (h.join harray hs)
      | field receiver id isStatic =>
          cases receiver with
          | none => exact h.writeTo target hb hs
          | some receiver =>
              cases isStatic with
              | true => exact h.writeTo target hb hs
              | false =>
                  have hreceiver := hvals receiver (by simp [Operation.inputs, Operation.operands])
                  exact h.writeTo receiver (h.writeTo target hb hs) (h.join hreceiver hs)
      | _ => exact hb

theorem execute (h : Agreement r R) (hm : R m m') {op : Operation}
    (hv : ∀ n ∈ g.readsOf op, r (v.read n) (v'.read n)) :
    R (g.execute m v op) (g.execute m' v' op) := by
  cases op with
  | assignment target value =>
      refine h.writes (by simpa using hm) (hv value ?_) ?_
      · simp [Graph.readsOf, Operation.inputs, Operation.operands]
      · intro node hnode n hn
        exact hv n (by simp [Graph.readsOf, hnode, hn])
  | _ => exact hm

end Agreement

def Point.Agree (r : Sensitivity → Sensitivity → Prop) (R : Memory → Memory → Prop)
    (seen : List NodeId) (pt pt' : Point) : Prop :=
  R pt.memory pt'.memory ∧ ∀ n ∈ seen, r (pt.values.read n) (pt'.values.read n)

theorem Values.read_insert (v : Values) (n n' : NodeId) (s : Sensitivity) :
    Values.read (v.insert n s) n' = if n = n' then s else v.read n' := by
  unfold Values.read
  rw [Table.get?_insert]
  split <;> rfl

namespace Graph

/-- Whatever the nodes read was seen, at first or in an earlier one of them. -/
def readsWithin (g : Graph) : List NodeId → List Node → Prop
  | _, [] => True
  | seen, node :: rest =>
      (∀ n ∈ g.readsOf node.op, n ∈ seen) ∧ g.readsWithin (node.id :: seen) rest

theorem readsWithin_of_append {g : Graph} {seen : List NodeId} {nodes rest : List Node}
    (h : g.readsWithin seen (nodes ++ rest)) : g.readsWithin seen nodes := by
  induction nodes generalizing seen with
  | nil => trivial
  | cons node nodes ih => exact ⟨h.1, ih h.2⟩

theorem readsWithin_of_before {g : Graph} {seen : List NodeId} {nodes : List Node}
    (h : ∀ pre node post, nodes = pre ++ node :: post → ∀ n ∈ g.readsOf node.op,
      n ∈ pre.map Node.id ∨ n ∈ seen) : g.readsWithin seen nodes := by
  induction nodes generalizing seen with
  | nil => trivial
  | cons node rest ih =>
      refine ⟨fun n hn => ?_, ih fun pre next post hrest n hn => ?_⟩
      · simpa using h [] node rest rfl n hn
      · have hbefore := h (node :: pre) next post (by rw [hrest, List.cons_append]) n hn
        simp only [List.map_cons, List.mem_cons] at hbefore ⊢
        tauto

/-- Every block reads only what was visited in the block before. -/
def SelfContained (g : Graph) : Prop :=
  ∀ {b block}, g.block? b = some block → g.readsWithin [] (g.nodesOf block)

theorem UsesPrecede.readsOf {g : Graph} (h : g.UsesPrecede Operation.inputs) (hg : g.WellListed)
    {b : BlockId} {block : Block} (hblock : g.block? b = some block) {pre post : List Node}
    {node : Node} (hnodes : g.nodesOf block = pre ++ node :: post) {n : NodeId}
    (hn : n ∈ g.readsOf node.op) : n ∈ pre.map Node.id := by
  have hinputs := h b block hblock pre node post hnodes
  obtain ⟨id, own, op⟩ := node
  rcases List.mem_append.1 hn with hinput | htarget
  · exact hinputs n hinput
  · cases op with
    | assignment target value =>
        have hmem : target ∈ pre.map Node.id := hinputs target List.mem_cons_self
        obtain ⟨tnode, htnode, rfl⟩ := List.mem_map.1 hmem
        obtain ⟨before, between, rfl⟩ := List.append_of_mem htnode
        rw [List.append_assoc, List.cons_append] at hnodes
        have hlisted : tnode ∈ g.nodesOf block := by simp [hnodes]
        simp only [hg.node?_of_mem_nodesOf hlisted] at htarget
        rw [List.map_append]
        exact List.mem_append_left _ (h b block hblock before tnode _ hnodes n htarget)
    | _ => simp at htarget

theorem UsesPrecede.selfContained {g : Graph} (h : g.UsesPrecede Operation.inputs)
    (hg : g.WellListed) : g.SelfContained := by
  intro b block hblock
  exact readsWithin_of_before fun pre node post hnodes n hn =>
    Or.inl (h.readsOf hg hblock hnodes hn)

end Graph

section Visits

variable {r : Sensitivity → Sensitivity → Prop} {R : Memory → Memory → Prop} {g : Graph}
  {seen : List NodeId}

theorem Point.Agree.visitNode (h : Agreement r R) (sc : Scope) {pt pt' : Point} {node : Node}
    (hpt : pt.Agree r R seen pt') (hreads : ∀ n ∈ g.readsOf node.op, n ∈ seen) :
    (sc.visitNode g pt node).Agree r R (node.id :: seen) (sc.visitNode g pt' node) := by
  have hvals : ∀ n ∈ g.readsOf node.op, r (pt.values.read n) (pt'.values.read n) :=
    fun n hn => hpt.2 n (hreads n hn)
  refine ⟨h.execute hpt.1 hvals, ?_⟩
  intro n hn
  simp only [Scope.visitNode, Values.read_insert]
  split
  · exact h.evaluate sc hpt.1 fun n' hn' => hvals n' (List.mem_append_left _ hn')
  · rename_i hne
    rcases List.mem_cons.1 hn with rfl | hn
    · exact absurd rfl hne
    · exact hpt.2 n hn

theorem Point.Agree.visitNodes (h : Agreement r R) (sc : Scope) {nodes : List Node}
    {pt pt' : Point} (hpt : pt.Agree r R seen pt') (hreads : g.readsWithin seen nodes) :
    (nodes.foldl (sc.visitNode g) pt).Agree r R ((nodes.map Node.id).reverse ++ seen)
      (nodes.foldl (sc.visitNode g) pt') := by
  induction nodes generalizing seen pt pt' with
  | nil => exact hpt
  | cons node rest ih =>
      have hrest := ih (hpt.visitNode h sc hreads.1) hreads.2
      simpa using hrest

/-- A part of the nodes of a self-contained block, from its start, gives agreeing points from
agreeing memories, whatever classes were recorded before. -/
theorem Graph.SelfContained.agree (hg : g.SelfContained) (h : Agreement r R) (sc : Scope)
    {b : BlockId} {block : Block} (hblock : g.block? b = some block) {nodes rest : List Node}
    (hnodes : g.nodesOf block = nodes ++ rest) {m m' : Memory} (hm : R m m') (v v' : Values) :
    (nodes.foldl (sc.visitNode g) ⟨v, m⟩).Agree r R ((nodes.map Node.id).reverse)
      (nodes.foldl (sc.visitNode g) ⟨v', m'⟩) := by
  have hreads : g.readsWithin [] nodes := Graph.readsWithin_of_append (hnodes ▸ hg hblock)
  have hstart : (⟨v, m⟩ : Point).Agree r R [] ⟨v', m'⟩ := ⟨hm, by simp⟩
  simpa using hstart.visitNodes h sc hreads

theorem Scope.steady_dataflow (sc : Scope) (g : Graph) : (sc.dataflow g).Steady :=
  ⟨fun _ _ _ => rfl, fun _ _ _ => rfl⟩

theorem Scope.stateless_dataflow (sc : Scope) (hg : g.SelfContained) :
    (sc.dataflow g).Stateless g where
  toSteady := sc.steady_dataflow g
  transfer_eq hblock v v' _ :=
    (hg.agree agreement_eq sc hblock (List.append_nil _).symm rfl v v').1

end Visits

end Disclosure
