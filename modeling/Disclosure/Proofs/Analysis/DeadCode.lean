import Disclosure.Proofs.Analysis.Replay
import Disclosure.Proofs.Dataflow.Recurrence
import Disclosure.Proofs.Graph.Padding
import Disclosure.Proofs.Lowering.Liveness
import Disclosure.Proofs.Lowering.WellFormed
import Disclosure.Report

/-!
# Code that control does not come to

The analysis of a graph goes only through what control can come to.  So it makes the same visits in
the same order on two graphs that differ elsewhere (`Graph.Pads`), and finds the same: facts that
come from the predecessors that only one of the graphs has do not exist, and nodes that only one of
them has are not reached.

Statements after a body that control does not come to the end of are lowered in blocks that control
does not come to.  They change nothing in the report on a procedure.
-/

namespace Disclosure

/-! ## The solver -/

namespace Dataflow

variable {σ α : Type} [BEq α] {a a' : Dataflow σ α} {g g' : Graph} {state : σ}

/-- The second problem does in its graph what the first does in the blocks that control comes to,
whatever their predecessors are. -/
structure Copies (a : Dataflow σ α) (g : Graph) (a' : Dataflow σ α) (g' : Graph) : Prop where
  pads : g.Pads g'
  initial_eq : a'.initial = a.initial
  join_eq : a'.join = a.join
  transfer_eq : ∀ {b block}, g.Reachable b → g.block? b = some block → ∀ preds st x,
    a'.transfer st { block with preds := preds } x = a.transfer st block x

theorem Copies.visit_eq (h : a.Copies g a' g') {s : Progress σ α} {b : BlockId}
    (hb : g.Reachable b) (hafter : ∀ c, s.after.contains c = true → g.Reachable c) :
    a'.visit g' b s = a.visit g b s := by
  obtain ⟨block, more, hblock, hmore, hblock'⟩ := h.pads.exists_block hb
  -- no fact comes from a predecessor that control does not come to
  have hnone : more.filterMap s.after.get? = [] := by
    refine List.filterMap_eq_nil_iff.2 fun p hp => ?_
    by_contra hsome
    exact hmore p hp (hafter p (Option.isSome_iff_ne_none.2 hsome))
  have hincoming : ∀ n,
      a'.incoming g' { s with visits := n } { block with preds := block.preds ++ more } b =
        a.incoming g { s with visits := n } block b := by
    intro n
    simp only [incoming, List.filterMap_append, hnone, List.append_nil, h.pads.entry_eq,
      h.initial_eq]
  simp only [visit, hblock, hblock', hincoming]
  cases a.incoming g { s with visits := s.visits + 1 } block b with
  | nil => rfl
  | cons fact facts => simp only [flowThrough, h.join_eq, h.transfer_eq hb hblock]

theorem Copies.run_eq (h : a.Copies g a' g') (bound : Nat) :
    a'.run g' bound (start state g') = a.run g bound (start state g) := by
  induction bound with
  | zero =>
      rw [run_zero, run_zero, start, start, h.pads.order_eq]
  | succ bound ih =>
      obtain ⟨hqueue, hafter⟩ := reachable_run a g bound state
      rw [run_succ, run_succ, ih]
      generalize a.run g bound (start state g) = s at hqueue hafter
      cases hq : s.queue with
      | nil => rw [step, step, hq]
      | cons b rest =>
          have hvisit := h.visit_eq (s := { s with queue := rest }) (hqueue b (by simp [hq])) hafter
          rw [step, step, hq]
          exact hvisit

theorem Copies.solve_eq (h : a.Copies g a' g') (bound : Nat) :
    a'.solve g' bound state = a.solve g bound state := by
  rw [solve, solve, h.run_eq]

end Dataflow

/-! ## Effects and findings -/

namespace Graph.Pads

variable {g g' : Graph} (h : g.Pads g') (he : g.OperandsEarlier)

include h he

theorem writeTo_eq {n : NodeId} (hn : n < g.nextNode) (s : Sensitivity) (b : Memory.Batch) :
    g'.writeTo n s b = g.writeTo n s b := by
  rw [writeTo, writeTo, h.locationOf?_eq he hn]

theorem writes_eq {target : NodeId} (htarget : target < g.nextNode) (v : Values) (s : Sensitivity)
    (b : Memory.Batch) : g'.writes v target s b = g.writes v target s b := by
  rw [writes, writes, h.node?_eq htarget]
  cases hnode : g.node? target with
  | none => rfl
  | some node =>
      have hlt : ∀ o ∈ node.op.operands, o < g.nextNode := fun o ho =>
        Nat.lt_trans (he target node hnode o ho) htarget
      obtain ⟨id, own, op⟩ := node
      cases op with
      | element array index => exact h.writeTo_eq he (hlt array (by simp [Operation.operands])) _ _
      | field receiver field isStatic =>
          have hfield := h.writeTo_eq he htarget s b
          cases receiver with
          | none => exact hfield
          | some receiver =>
              cases isStatic with
              | true => exact hfield
              | false =>
                  simp only [hfield]
                  exact h.writeTo_eq he (hlt receiver (by simp [Operation.operands])) _ _
      | _ => rfl

theorem execute_eq {n : NodeId} {node : Node} (hnode : g.node? n = some node) (m : Memory)
    (v : Values) : g'.execute m v node.op = g.execute m v node.op := by
  have hlt : ∀ o ∈ node.op.operands, o < g.nextNode := fun o ho =>
    Nat.lt_trans (he n node hnode o ho) (lt_nextNode_of_node? hnode)
  obtain ⟨id, own, op⟩ := node
  cases op with
  | assignment target value =>
      rw [execute, execute, h.writes_eq he (hlt target (by simp [Operation.operands]))]
  | _ => rfl

theorem visitNode_eq (sc : Scope) {n : NodeId} {node : Node} (hnode : g.node? n = some node)
    (pt : Point) : sc.visitNode g' pt node = sc.visitNode g pt node := by
  rw [Scope.visitNode, Scope.visitNode, h.execute_eq he hnode]

theorem copies_dataflow (sc : Scope) (hg : g.WellListed) :
    (sc.dataflow g).Copies g (sc.dataflow g') g' where
  pads := h
  initial_eq := by
    funext _
    simp only [Scope.dataflow, Scope.entryMemory, h.params_eq]
  join_eq := rfl
  transfer_eq {b block} _ hblock preds st m := by
    have hvisit : sc.visitBlock g' { block with preds := preds } ⟨st, m⟩ =
        sc.visitBlock g block ⟨st, m⟩ := by
      rw [Scope.visitBlock, Scope.visitBlock, h.nodesOf_eq hg hblock]
      exact List.foldl_ext _ _ _ fun pt node hnode =>
        h.visitNode_eq he sc (hg.node?_of_mem_nodesOf hnode) pt
    simp only [Scope.dataflow, hvisit]

theorem replayBlock_eq (sc : Scope) (hg : g.WellListed) (entries : Table BlockId Memory)
    (r : Replay) {b : BlockId} (hb : g.Reachable b) :
    sc.replayBlock g' entries r b = sc.replayBlock g entries r b := by
  obtain ⟨block, more, hblock, -, hblock'⟩ := h.exists_block hb
  rw [Scope.replayBlock, Scope.replayBlock, hblock, hblock']
  cases entries.get? b with
  | none => rfl
  | some m =>
      simp only [h.nodesOf_eq hg hblock]
      refine congrArg Prod.fst (List.foldl_ext _ _ _ fun r node hnode => ?_)
      rw [Scope.replayNode, Scope.replayNode,
        h.visitNode_eq he sc (hg.node?_of_mem_nodesOf hnode)]

theorem analyze_eq (sc : Scope) (hg : g.WellListed) (bound : Nat) :
    sc.analyze g' bound = sc.analyze g bound := by
  have hreplay : ∀ entries r, g.order.foldl (sc.replayBlock g' entries) r =
      g.order.foldl (sc.replayBlock g entries) r := fun entries r =>
    List.foldl_ext _ _ _ fun r' b hb =>
      h.replayBlock_eq he sc hg entries r' (mem_order_iff.1 hb)
  simp only [Scope.analyze, (h.copies_dataflow he sc hg).solve_eq bound, h.order_eq, h.exit_eq,
    hreplay]

end Graph.Pads

/-! ## Violations -/

namespace Graph.Pads

variable {g g' : Graph} (h : g.Pads g')

include h

theorem flowsOf_eq (he : g.OperandsEarlier) (p : Program) {n : NodeId} {node : Node}
    (hnode : g.node? n = some node) : g'.flowsOf p node = g.flowsOf p node := by
  have hlt : ∀ o ∈ node.op.operands, o < g.nextNode := fun o ho =>
    Nat.lt_trans (he n node hnode o ho) (lt_nextNode_of_node? hnode)
  obtain ⟨id, own, op⟩ := node
  cases op with
  | assignment target value =>
      have htarget := h.node?_eq (hlt target (by simp [Operation.operands]))
      simp only [flowsOf, assignee?, htarget]
  | leave result =>
      cases result with
      | none => rfl
      | some value => simp only [flowsOf, h.method_eq]
  | _ => rfl

theorem filter_nodes_eq (hg' : g'.WellListed) {found : NodeId → Bool}
    (hfound : ∀ n, found n = true → n < g.nextNode) :
    (g'.nodes.toList.filter fun node => found node.id) =
      g.nodes.toList.filter fun node => found node.id := by
  obtain ⟨extra, hextra⟩ := h.nodes_prefix
  -- nodes that were added have larger numbers than those of the first graph
  have hnone : (extra.filter fun node => found node.id) = [] := by
    refine List.filter_eq_nil_iff.2 fun node hnode hyes => ?_
    obtain ⟨i, hi, rfl⟩ := List.mem_iff_getElem.1 hnode
    have hat : g'.node? (g.nextNode + i) = some extra[i] := by
      rw [node?, ← Array.getElem?_toList, ← hextra,
        List.getElem?_append_right (by simp [nextNode])]
      simp [nextNode]
    have hlt := hfound _ hyes
    rw [hg'.id_eq hat] at hlt
    exact Nat.not_lt_of_le (Nat.le_add_right _ _) hlt
  rw [← hextra, List.filter_append, hnone, List.append_nil]

theorem checkGraph_eq (he : g.OperandsEarlier) (hg : g.WellListed) (hg' : g'.WellListed)
    (pol : Policy) (p : Program) : pol.checkGraph p g' = pol.checkGraph p g := by
  have hanalyze : pol.analyze p g' = pol.analyze p g := h.analyze_eq he (pol.scope p) hg _
  have hviolations : ∀ o : Outcome, (∀ n, o.isReached n = true → n < g.nextNode) →
      (pol.scope p).violations g' o = (pol.scope p).violations g o := by
    intro o ho
    rw [Scope.violations, Scope.violations, h.filter_nodes_eq hg' ho]
    refine List.flatMap_congr fun node hnode => ?_
    obtain ⟨n, hn⟩ := Array.mem_iff_getElem?.1 (Array.mem_toList_iff.1 (List.mem_filter.1 hnode).1)
    rw [h.flowsOf_eq he (pol.scope p).program hn]
  have hfound : ∀ n, (pol.analyze p g).isReached n = true → n < g.nextNode := by
    intro n hn
    obtain ⟨node, hnode⟩ := Scope.exists_node_of_isReached hg hn
    exact lt_nextNode_of_node? hnode
  rw [Policy.checkGraph, Policy.checkGraph, hanalyze, h.method_eq, hviolations _ hfound]

end Graph.Pads

/-! ## Procedures -/

/-- Work in blocks that control does not come to only pads a graph. -/
theorem Graph.Alters.pads {own landing : Set BlockId} {g g' : Graph}
    (h : g.Alters own landing g') (hown : ∀ b ∈ own, ¬ g.Reachable b)
    (hexists : ∀ {b}, g.Reachable b → ∃ block, g.block? b = some block) : g.Pads g' where
  entry_eq := h.entry_eq
  exit_eq := h.exit_eq
  method_eq := h.method_eq
  params_eq := h.params_eq
  nodes_prefix := h.nodes_prefix
  nextBlock_le := h.nextBlock_le
  exists_block {b} hb := by
    obtain ⟨block, hblock⟩ := hexists hb
    obtain ⟨more, hmore, hblock'⟩ := h.outside (fun hmem => hown b hmem hb) hblock
    exact ⟨block, more, hblock, fun p hp => hown p (hmore p hp), hblock'⟩

theorem Stmt.lowerBody_append (p : Program) (body more : List Stmt) (d : Draft) :
    Stmt.lowerBody p (body ++ more) d = Stmt.lowerBody p more (Stmt.lowerBody p body d).2 := by
  induction body generalizing d with
  | nil => rfl
  | cons s rest ih => exact ih (s.lower p d).2

namespace Procedure

/-- Where control does not come to the end of a body, whatever follows the body only pads the graph
that there is at its end. -/
theorem exists_pads_lower (p : Program) (proc : Procedure) (hjumps : proc.JumpsLand)
    (hstop : (Stmt.waysIn proc.body).completes = false) :
    ∃ g : Graph, g.Built ∧ g.OperandsEarlier ∧
      ∀ dead, g.Pads (Procedure.lower p { proc with body := proc.body ++ dead }) := by
  have hflows := Stmt.lowerBody_flows p proc.body proc.sound_startDraft_exit ⟨.fresh 0, rfl, rfl⟩
    proc.marked_startDraft proc.lands_startDraft hjumps
  have hcoherent := (Stmt.lowerBody_worksIn p proc.body proc.fits_startDraft).coherent
    proc.coherent_startDraft
  let d : Draft := (Stmt.lowerBody p proc.body proc.startDraft).2
  have hsound : Stage.Sound ⟨d, [proc.startDraft.graph.exit]⟩ := hflows.sound
  have hlt : ∀ {b}, d.graph.Reachable b → b < d.graph.nextBlock := hsound.enclosed.lt_of_reachable
  have hcurrent : ¬ d.graph.Reachable d.current := by
    rw [hflows.marked.current_iff, hstop]
    decide
  -- what follows is lowered in the block that is current now and in blocks that are still to come
  let own : Set BlockId := {b | b = d.current ∨ d.graph.nextBlock ≤ b}
  have hown : ∀ b ∈ own, ¬ d.graph.Reachable b := by
    rintro b (rfl | hb) hreach
    · exact hcurrent hreach
    · exact Nat.not_lt_of_le hb (hlt hreach)
  have hfits : d.Fits own Set.univ :=
    ⟨Or.inl rfl, trivial, fun _ => ⟨trivial, trivial⟩, fun hb => ⟨Or.inr hb, trivial⟩⟩
  refine ⟨d.graph, hsound.built, hcoherent.operandsEarlier, fun dead => ?_⟩
  have hdead := Stmt.lowerBody_worksIn p dead hfits
  have hall := hdead.trans (Lowering.finish_worksIn hdead.fits)
  have hgraph : Procedure.lower p { proc with body := proc.body ++ dead } =
      (Lowering.finish (Stmt.lowerBody p dead d).2).2.graph := by
    show (Lowering.finish (Stmt.lowerBody p (proc.body ++ dead) proc.startDraft).2).2.graph = _
    rw [Stmt.lowerBody_append]
  rw [hgraph]
  exact hall.alters.pads hown fun hb => hsound.linked.exists_block (hlt hb)

end Procedure

namespace Policy

/-- Statements after a body that control does not come to the end of change neither the report on a
procedure nor the memory at its exit. -/
theorem check_append_dead (pol : Policy) (p : Program) (proc : Procedure) (hjumps : proc.JumpsLand)
    (hstop : (Stmt.waysIn proc.body).completes = false) (dead : List Stmt) :
    pol.check p { proc with body := proc.body ++ dead } = pol.check p proc ∧
      (pol.analyzeProcedure p { proc with body := proc.body ++ dead }).atExit =
        (pol.analyzeProcedure p proc).atExit := by
  obtain ⟨g, hbuilt, hearlier, hpads⟩ := proc.exists_pads_lower p hjumps hstop
  have hg := hbuilt.wellListed
  -- with and without more statements the graph pads the one at the end of the body
  have hcheck : ∀ dead, pol.check p { proc with body := proc.body ++ dead } = pol.checkGraph p g :=
    fun dead => (hpads dead).checkGraph_eq hearlier hg (Procedure.built_lower p _).wellListed pol p
  have hanalyze : ∀ dead,
      pol.analyzeProcedure p { proc with body := proc.body ++ dead } = pol.analyze p g :=
    fun dead => (hpads dead).analyze_eq hearlier (pol.scope p) hg _
  have hcheck' := hcheck []
  have hanalyze' := hanalyze []
  rw [List.append_nil] at hcheck' hanalyze'
  rw [hcheck, hcheck', hanalyze, hanalyze']
  exact ⟨rfl, rfl⟩

/-- A forbidden value is logged in a branch that returns, and once more where control does not come,
before a loop and a jump that goes nowhere. -/
theorem check_append_dead_branch :
    let int : Ty := .primitive .int
    let token : Expr := .var ⟨3⟩ int
    let log : Stmt := .eval (.call ⟨0⟩ [token] int)
    let p : Program := ⟨#[
      ⟨⟨0⟩, "info", .method [⟨1⟩] int true false, [], []⟩,
      ⟨⟨1⟩, "message", .parameter int ⟨0⟩, [Marks.standard.safe], []⟩,
      ⟨⟨2⟩, "handle", .method [⟨3⟩] int true false, [], []⟩,
      ⟨⟨3⟩, "token", .parameter int ⟨2⟩, [Marks.standard.forbidden], []⟩]⟩
    let proc : Procedure := ⟨⟨2⟩, [⟨3⟩], [.branch token [log, .leave none] (some [.raise token])]⟩
    let dead : List Stmt := [log, .loop token [.exitLoop], .nextRound]
    proc.JumpsLand ∧ (Stmt.waysIn proc.body).completes = false ∧
      (standard.check p proc).tally = ⟨1, 0, 0⟩ ∧
      standard.check p { proc with body := proc.body ++ dead } = standard.check p proc ∧
      (standard.analyzeProcedure p { proc with body := proc.body ++ dead }).atExit =
        (standard.analyzeProcedure p proc).atExit := by
  intro int token log p proc dead
  have hjumps : proc.JumpsLand := by decide
  have hstop : (Stmt.waysIn proc.body).completes = false := by decide
  have htally : (standard.check p proc).tally = ⟨1, 0, 0⟩ := by decide +kernel
  exact ⟨hjumps, hstop, htally, standard.check_append_dead p proc hjumps hstop dead⟩

end Policy

end Disclosure
