import Disclosure.Proofs.Analysis.Findings
import Disclosure.Proofs.Lowering.WellFormed

/-!
# Writes into arrays and objects

To write into an array or into a field of an object also writes the class of the array or the object
itself, its container.  The new class is the join of the class of the value with that of the node of
the container.  This is not the class that the memory has at the location of the container: of the
nodes that denote a location only variables are looked up in the memory, constants apart, and they
were looked up when they were evaluated.  The current object is `unknown` and a field has its
declared class, whatever was written there.

So a container keeps the class that it has in the memory exactly if the class of its node or that of
the value is as strict.  A variable that is no constant keeps its class if nothing is written to it
between its evaluation and the assignment; the current object may lose its class.
-/

namespace Disclosure

namespace Graph

variable {g : Graph} {target c : NodeId}

/-- The node of the array or of the object that a target is a part of. -/
def container? (g : Graph) (target : NodeId) : Option NodeId :=
  match g.node? target with
  | none => none
  | some node =>
      match node.op with
      | .element array _ => some array
      | .field (some receiver) _ false => some receiver
      | _ => none

theorem exists_node_of_container? (h : g.container? target = some c) :
    ∃ node, g.node? target = some node ∧ c ∈ node.op.operands := by
  unfold container? at h
  cases hnode : g.node? target with
  | none => simp [hnode] at h
  | some node =>
      refine ⟨node, rfl, ?_⟩
      obtain ⟨id, block, op⟩ := node
      simp only [hnode] at h
      split at h
      · cases h
        exact List.mem_cons_self
      · cases h
        exact List.mem_cons_self
      · cases h

theorem read_execute_of_container? {l : Location} (hc : g.container? target = some c)
    (hl : g.locationOf? c = some l) (m : Memory) (v : Values) (value : NodeId) :
    (g.execute m v (.assignment target value)).read l = (v.read c).join (v.read value) := by
  have hlast : ∃ es, g.updatesAt v target (v.read value) =
      es ++ [(l, (v.read c).join (v.read value))] := by
    unfold container? at hc
    unfold updatesAt
    cases hnode : g.node? target with
    | none => simp [hnode] at hc
    | some node =>
        obtain ⟨id, block, op⟩ := node
        simp only [hnode] at hc ⊢
        split at hc
        · cases hc
          exact ⟨[], by simp [located, hl]⟩
        · cases hc
          exact ⟨g.located target (v.read value), by simp [located, hl]⟩
        · cases hc
  obtain ⟨es, hes⟩ := hlast
  rw [execute_eq_insertAll, updatesOf, hes, Table.insertAll_append, Table.insertAll_cons,
    Table.insertAll_nil, Memory.read_insert, if_pos rfl]

end Graph

namespace Scope

variable {sc : Scope} {g : Graph} {c : NodeId} {l : Location}

/-- The class of the value of a node that denotes a location, where the memory has the class
`stored` there. -/
def consulted (sc : Scope) (stored : Sensitivity) : Operation → Sensitivity
  | .var id => if sc.program.isConstant id then .safe else stored
  | .field _ id _ => sc.classifyContent id
  | _ => .unknown

theorem evaluate_eq_consulted {node : Node} (hnode : g.node? c = some node)
    (hl : g.locationOf? c = some l) (m : Memory) (v : Values) :
    sc.evaluate m v node.op = sc.consulted (m.read l) node.op := by
  unfold Graph.locationOf? at hl
  cases hsize : g.nodes.size with
  | zero => simp [hsize, Graph.locationWithin] at hl
  | succ depth =>
      obtain ⟨id, block, op⟩ := node
      simp only [hsize, Graph.locationWithin, hnode] at hl
      cases op with
      | var id =>
          cases hl
          rfl
      | implicitSelf => rfl
      | explicitSelf => rfl
      | field => rfl
      | _ => cases hl

end Scope

namespace Policy

/-- An assignment into an array or an object gives the container the join of two classes: that of
the value, and that which was consulted when the container was evaluated.  The container keeps its
class exactly if one of the two is as strict.  This is so for a variable that is no constant if it
is evaluated in the same block and not written in between. -/
theorem container_kept_iff (pol : Policy) (p : Program) (proc : Procedure)
    {n target value c : NodeId} {node : Node} {l : Location}
    (hnode : (proc.lower p).node? n = some node) (hop : node.op = .assignment target value)
    (hreached : (pol.analyzeProcedure p proc).isReached n = true)
    (hc : (proc.lower p).container? target = some c)
    (hl : (proc.lower p).locationOf? c = some l) :
    ∃ cnode earlier before after, (proc.lower p).node? c = some cnode ∧
      (pol.analyzeProcedure p proc).before? (proc.lower p) c = some earlier ∧
      (pol.analyzeProcedure p proc).before? (proc.lower p) n = some before ∧
      (pol.analyzeProcedure p proc).after? n = some after ∧
      after.read l = ((pol.scope p).consulted (earlier.read l) cnode.op).join
        ((pol.analyzeProcedure p proc).valueOf value) ∧
      (before.read l ≤ after.read l ↔
        before.read l ≤ (pol.scope p).consulted (earlier.read l) cnode.op ∨
          before.read l ≤ (pol.analyzeProcedure p proc).valueOf value) ∧
      ∀ id, cnode.op = .var id → p.isConstant id = false → cnode.block = node.block →
        (proc.lower p).Unwritten node.block l c n → before.read l ≤ after.read l := by
  have h := proc.replayable_lower p
  have hearlier := (proc.coherent_lower p).operandsEarlier
  obtain ⟨tnode, htnode, hcmem⟩ := Graph.exists_node_of_container? hc
  have htarget : target ∈ node.op.operands := by simp [hop, Operation.operands]
  obtain ⟨_, _, htreached⟩ := Scope.isReached_of_operand h hnode hreached htarget
  obtain ⟨cnode, hcnode, hcreached⟩ := Scope.isReached_of_operand h htnode htreached hcmem
  obtain ⟨before, hbefore, hfinding⟩ := Scope.finding_eq h hnode hreached
  obtain ⟨earlier, hcbefore, hcfinding⟩ := Scope.finding_eq h hcnode hcreached
  have hclass : (pol.analyzeProcedure p proc).valueOf c =
      (pol.scope p).consulted (earlier.read l) cnode.op := by
    rw [Outcome.valueOf, analyzeProcedure, analyze, hcfinding]
    exact Scope.evaluate_eq_consulted hcnode hl _ _
  have hafter : ∃ after, (pol.analyzeProcedure p proc).after? n = some after ∧
      after.read l = ((pol.scope p).consulted (earlier.read l) cnode.op).join
        ((pol.analyzeProcedure p proc).valueOf value) := by
    refine ⟨_, congrArg (Option.map Finding.after) hfinding, ?_⟩
    rw [hop, ← hclass, ← Outcome.read_values, ← Outcome.read_values]
    exact Graph.read_execute_of_container? hc hl _ _ _
  obtain ⟨after, hafter, hjoin⟩ := hafter
  refine ⟨cnode, earlier, before, after, hcnode, hcbefore, hbefore, hafter, hjoin, ?_, ?_⟩
  · rw [hjoin]
    exact Sensitivity.le_join_iff
  · intro id hvar hconstant hsame hunwritten
    have hcafter : (pol.analyzeProcedure p proc).after? c = some earlier := by
      rw [Outcome.after?, analyzeProcedure, analyze, hcfinding, hvar]
      rfl
    have hlt : c < n := Nat.lt_trans (hearlier _ _ htnode _ hcmem) (hearlier _ _ hnode _ htarget)
    have hread := Scope.read_before?_of_unwritten h hcnode hnode hsame hlt hunwritten hreached
      hcafter hbefore
    have hconsulted : (pol.scope p).consulted (earlier.read l) cnode.op = earlier.read l := by
      simp [hvar, Scope.consulted, Policy.scope, hconstant]
    rw [hjoin, hread, hconsulted]
    exact Sensitivity.le_join_left _ _

/-- A secret is written into an array and then a literal into the same array: the array is a
variable and stays forbidden. -/
theorem container_kept_iff_array :
    let int : Ty := .primitive .int
    let p := ((∅ : Program).declare "secret" (.parameter int ⟨9⟩)).mark ⟨0⟩ Marks.standard.forbidden
    let one : Expr := .literal (.int 1) int
    let element : Expr := .mk (.element (.var ⟨1⟩ (.array int)) one) int
    let proc : Procedure := ⟨⟨9⟩, [⟨0⟩], [.eval (.assign element (.var ⟨0⟩ int)),
      .eval (.assign element one)]⟩
    let o := Policy.standard.analyzeProcedure p proc
    ∃ before after, o.before? (proc.lower p) 9 = some before ∧ o.after? 9 = some after ∧
      before.read (.var ⟨1⟩) ≤ after.read (.var ⟨1⟩) ∧
      (o.after? 9).map (fun m => m.read (.var ⟨1⟩)) = some .forbidden := by
  intro int p one element proc o
  have hnode : (proc.lower p).node? 9 = some ⟨9, 0, .assignment 7 8⟩ := by decide +kernel
  have hreached : o.isReached 9 = true := by decide +kernel
  have hcontainer : (proc.lower p).container? 7 = some 5 := by decide +kernel
  have hlocation : (proc.lower p).locationOf? 5 = some (.var ⟨1⟩) := by decide +kernel
  have hvar : (proc.lower p).node? 5 = some ⟨5, 0, .var ⟨1⟩⟩ := by decide +kernel
  have hunwritten : (proc.lower p).Unwritten 0 (.var ⟨1⟩) 5 9 := by
    intro k node hk hn hnode _
    have hall : ∀ k < 9, 5 < k → ∀ node ∈ (proc.lower p).node? k,
        (.var ⟨1⟩ : Location) ∉ (proc.lower p).writtenBy node := by decide +kernel
    exact hall k hn hk node hnode
  obtain ⟨cnode, earlier, before, after, hcnode, -, hbefore, hafter, -, -, hkept⟩ :=
    Policy.standard.container_kept_iff p proc hnode rfl hreached hcontainer hlocation
  cases hvar.symm.trans hcnode
  exact ⟨before, after, hbefore, hafter, hkept ⟨1⟩ rfl (by decide +kernel) rfl hunwritten,
    by decide +kernel⟩

/-- A secret is written into one field of the current object and then a literal into another one:
after the first assignment the current object is forbidden, and after the second one it is not,
although the first field still is. -/
theorem not_container_kept_self :
    let int : Ty := .primitive .int
    let p := ((((∅ : Program).declare "secret" (.parameter int ⟨9⟩)).mark ⟨0⟩
      Marks.standard.forbidden).declare "a" (.field int false)).declare "b" (.field int false)
    let self : Expr := .mk .self (.declared ⟨8⟩)
    let proc : Procedure := ⟨⟨9⟩, [⟨0⟩], [
      .eval (.assign (.field (some self) ⟨1⟩ int) (.var ⟨0⟩ int)),
      .eval (.assign (.field (some self) ⟨2⟩ int) (.literal (.int 1) int))]⟩
    let g := proc.lower p
    let o := Policy.standard.analyzeProcedure p proc
    g.node? 7 = some ⟨7, 0, .assignment 5 6⟩ ∧ o.isReached 7 = true ∧
      g.container? 5 = some 4 ∧ g.locationOf? 4 = some .self ∧
      (o.before? g 7).map (fun m => m.read .self) = some .forbidden ∧
      (o.after? 7).map (fun m => m.read .self) = some .unknown ∧
      (o.after? 7).map (fun m => m.read (Location.self.extend ⟨1⟩)) = some .forbidden := by
  decide +kernel

end Policy

end Disclosure
