import Disclosure.Proofs.Analysis.Findings

/-!
# Outcomes that explain themselves

What an analysis reports of a node can be checked node by node: it is the effect of the node on the
memory that is reported before it, with the classes that are reported for other values.  Nothing
else has to be known, neither the solver nor the order of the second pass.

This is so for every procedure and every bound.  The second pass starts with the classes that the
solver left, which belong to earlier visits of the blocks.  But it comes to a node only after it has
gone through all that the node reads, also where an operand is in another block, because a
conditional stands between them, and also where the bound has cut the solver off.
-/

namespace Disclosure

/-- A node was reached exactly if there is a memory on entry to its block.  What was found there is
then the effect of the node on the memory before it, with the classes that were found at the nodes
that were reached; classes at other nodes are not read. -/
structure Outcome.Consistent (o : Outcome) (sc : Scope) (g : Graph) : Prop where
  isReached_iff : ∀ n, o.isReached n = true ↔
    ∃ node m, g.node? n = some node ∧ o.atEntry? node.block = some m
  explained : ∀ {n node}, g.node? n = some node → o.isReached n = true →
    ∃ m, o.before? g n = some m ∧
      ∀ v : Values, (∀ k, o.isReached k = true → v.read k = o.valueOf k) →
        o.valueOf n = sc.evaluate m v node.op ∧ o.after? n = some (g.execute m v node.op)

namespace Scope

variable {sc : Scope} {g : Graph} {bound : Nat} {n : NodeId}

theorem reachable_of_entry_eq_some (hg : g.Mirrored) {b : BlockId} {m : Memory}
    (hm : Outcome.atEntry? (sc.analyze g bound) b = some m) : g.Reachable b := by
  have hbefore : ((sc.dataflow g).solve g bound ∅).before.contains b = true :=
    Table.contains_iff_exists.2 ⟨m, hm⟩
  rw [Dataflow.contains_before_solve (sc.steady_dataflow g) hg] at hbefore
  exact ((Dataflow.balanced_run (sc.steady_dataflow g) hg bound ∅).reached hbefore).2

theorem isReached_iff_exists_entry (h : g.Replayable) :
    (sc.analyze g bound).isReached n = true ↔
      ∃ node m, g.node? n = some node ∧
        Outcome.atEntry? (sc.analyze g bound) node.block = some m := by
  constructor
  · intro hreached
    obtain ⟨node, hnode⟩ := exists_node_of_isReached h.wellListed hreached
    obtain ⟨block, hblock, hmem⟩ := h.fullyListed.listed_own hnode
    obtain ⟨-, m, hm⟩ := entry_of_isReached h.wellListed hblock hmem hreached
    exact ⟨node, m, hnode, hm⟩
  · rintro ⟨node, m, hnode, hm⟩
    obtain ⟨block, hblock, hmem⟩ := h.fullyListed.listed_own hnode
    have hreach := reachable_of_entry_eq_some h.mirrored hm
    exact isReached_of_entry h.wellListed hblock hreach hm hmem hnode

theorem isReached_of_mem_readsOf (h : g.Replayable) {node : Node} (hnode : g.node? n = some node)
    (hreached : (sc.analyze g bound).isReached n = true) {k : NodeId} (hk : k ∈ g.readsOf node.op) :
    (sc.analyze g bound).isReached k = true := by
  obtain ⟨id, b, op⟩ := node
  cases List.mem_append.1 hk with
  | inl hinput =>
      obtain ⟨_, _, hkreached⟩ :=
        isReached_of_operand h hnode hreached (op.inputs_subset_operands hinput)
      exact hkreached
  | inr hpart =>
      -- besides its operands an assignment reads those of its target
      cases op with
      | assignment target value =>
          obtain ⟨tnode, htnode, htreached⟩ :=
            isReached_of_operand h hnode hreached (k := target) List.mem_cons_self
          simp only [htnode] at hpart
          obtain ⟨_, _, hkreached⟩ :=
            isReached_of_operand h htnode htreached (tnode.op.inputs_subset_operands hpart)
          exact hkreached
      | _ => exact absurd hpart List.not_mem_nil

/-- Classes that are those of the outcome at the nodes that were reached explain what was found. -/
theorem finding_eq_of_agrees (h : g.Replayable) {node : Node} (hnode : g.node? n = some node)
    (hreached : (sc.analyze g bound).isReached n = true) :
    ∃ m, (sc.analyze g bound).before? g n = some m ∧
      ∀ v : Values, (∀ k, (sc.analyze g bound).isReached k = true →
        v.read k = (sc.analyze g bound).valueOf k) →
        (sc.analyze g bound).findings.get? n =
          some ⟨sc.evaluate m v node.op, g.execute m v node.op⟩ := by
  obtain ⟨m, hbefore, hfinding⟩ := finding_eq h hnode hreached
  refine ⟨m, hbefore, fun v hv => ?_⟩
  have hreads : ∀ k ∈ g.readsOf node.op,
      (sc.analyze g bound).values.read k = v.read k := by
    intro k hk
    rw [Outcome.read_values, hv k (isReached_of_mem_readsOf h hnode hreached hk)]
  have hinputs := fun k hk => hreads k (List.mem_append_left _ hk)
  rw [hfinding, agreement_eq.evaluate sc rfl hinputs, agreement_eq.execute rfl hreads]

/-- The outcome of the analysis of a procedure explains itself, whether the analysis was completed
or not. -/
theorem consistent_analyze_lower (sc : Scope) (proc : Procedure) (bound : Nat) :
    (sc.analyze (proc.lower sc.program) bound).Consistent sc (proc.lower sc.program) where
  isReached_iff _ := isReached_iff_exists_entry (proc.replayable_lower sc.program)
  explained {n node} hnode hreached := by
    obtain ⟨m, hbefore, hfinding⟩ :=
      finding_eq_of_agrees (proc.replayable_lower sc.program) hnode hreached
    refine ⟨m, hbefore, fun v hv => ?_⟩
    rw [Outcome.valueOf, Outcome.after?, hfinding v hv]
    exact ⟨rfl, rfl⟩

/-- A sum in a loop whose right operand is a conditional, so that the left one is in another block.
Ten visits end between the two blocks: the solver has left the sum as safe although its left operand
is not. -/
theorem consistent_analyze_lower_cut_off :
    let x (i : UInt32) : Expr := .var ⟨i⟩ (.primitive .int)
    let one : Expr := .literal (.int 1) (.primitive .int)
    let conditional : Expr :=
      .mk (.conditional (.assign (x 1) one) one one) (.primitive .int)
    let proc : Procedure := ⟨⟨3⟩, [], [.eval (.assign (x 1) one), .eval (.assign (x 0) one),
      .loop (x 2) [.eval (.assign (x 0) (.binary .add (x 1) conditional (.primitive .int))),
        .eval (.assign (x 1) (.call ⟨9⟩ [] (.primitive .int)))]]⟩
    let sc : Scope := ⟨∅, .standard⟩
    let g := proc.lower sc.program
    let o := sc.analyze g 10
    o.converged = false ∧ ((sc.dataflow g).solve g 10 ∅).state.read 15 = .safe ∧
      (g.node? 8).map Node.block = some 3 ∧ o.valueOf 8 = .unknown ∧
      g.node? 15 = some ⟨15, 7, .binary .add 8 14⟩ ∧ o.valueOf 15 = .unknown ∧
      ∃ m, o.before? g 15 = some m ∧ o.valueOf 15 = sc.evaluate m o.values (.binary .add 8 14) ∧
        o.after? 15 = some (g.execute m o.values (.binary .add 8 14)) := by
  intro x one conditional proc sc g o
  have hnode : g.node? 15 = some ⟨15, 7, .binary .add 8 14⟩ := by decide +kernel
  have hreached : o.isReached 15 = true := by decide +kernel
  obtain ⟨m, hbefore, hfound⟩ := (sc.consistent_analyze_lower proc 10).explained hnode hreached
  refine ⟨by decide +kernel, by decide +kernel, by decide +kernel, by decide +kernel, hnode,
    by decide +kernel, m, hbefore, ?_⟩
  exact hfound o.values fun k _ => o.read_values k

end Scope

end Disclosure
