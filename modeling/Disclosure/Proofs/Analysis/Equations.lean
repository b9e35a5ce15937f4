import Disclosure.Proofs.Analysis.Replay
import Disclosure.Proofs.Lowering.Statements

/-!
# When the memories that were found solve the dataflow equations

The equations of a graph say that the memory on entry to a block is the join of the memories with
which control leaves its predecessors.  The analysis finds these memories in its second pass, while
those on entry come from the memories that the solver passed on.  The two differ if the class of a
node changed after the solver had last visited a block that reads it: a visit queues the successors
of its block, and only if the memory after the block has changed.

So the memories solve the equations exactly if at every block that was reached the memories that
were passed on and those that the second pass leaves join to the same one.  This is so whenever
nodes take their inputs from their own block, as in procedures without conditionals.
-/

namespace Disclosure

open Dataflow (meeting)

namespace Outcome

/-- The memory with which control leaves a block that was reached: after its last node, or the one
on entry if it has no nodes. -/
def leaving (o : Outcome) (g : Graph) (b : BlockId) : Option Memory :=
  match o.atEntry? b, (g.block? b).bind fun block => block.nodes.getLast? with
  | none, _ => none
  | some m, none => some m
  | some _, some n => o.after? n

/-- The memory on entry to each block that was reached is equal to the join of the memories with
which control leaves its predecessors, and at the entry of the initial one. -/
def Solves (o : Outcome) (sc : Scope) (g : Graph) : Prop :=
  ∀ b m, o.atEntry? b = some m → ∃ block joined, g.block? b = some block ∧
    Memory.joinAll (meeting g (sc.entryMemory g) (o.leaving g) block b) = some joined ∧
    (m == joined) = true

instance (o : Outcome) (sc : Scope) (g : Graph) : Decidable (o.Solves sc g) :=
  decidable_of_iff (∀ e ∈ o.entries.entries, ∃ block ∈ g.block? e.1,
      ∃ joined ∈ Memory.joinAll (meeting g (sc.entryMemory g) (o.leaving g) block e.1),
        (e.2 == joined) = true) <| by
    constructor
    · intro h b m hm
      obtain ⟨block, hblock, joined, hjoined, heq⟩ := h (b, m) (Table.get?_eq_some_iff.1 hm)
      exact ⟨block, joined, hblock, hjoined, heq⟩
    · intro h e he
      obtain ⟨block, joined, hblock, hjoined, heq⟩ := h e.1 e.2 (Table.get?_eq_some_iff.2 he)
      exact ⟨block, hblock, joined, hjoined, heq⟩

end Outcome

namespace Scope

/-- At every block that can be reached, the memories that the solver passed on and those with which
control leaves the predecessors in the second pass join to equal ones. -/
def Settled (sc : Scope) (g : Graph) (bound : Nat) : Prop :=
  ∀ b block, g.block? b = some block → g.Reachable b →
    ((Memory.joinAll (meeting g (sc.entryMemory g)
        ((sc.dataflow g).solve g bound ∅).after.get? block b)).getD ∅ ==
      (Memory.joinAll (meeting g (sc.entryMemory g)
        ((sc.analyze g bound).leaving g) block b)).getD ∅) = true

variable {sc : Scope} {g : Graph} {bound : Nat}

theorem leaving_eq_visitBlock (hg : g.WellListed) {o : Outcome} {b : BlockId} {block : Block}
    {v : Values} {m : Memory} (hblock : g.block? b = some block) (hm : o.atEntry? b = some m)
    (hfindings : ∀ pre node post, g.nodesOf block = pre ++ node :: post →
      o.findings.get? node.id =
        some ⟨((pre ++ [node]).foldl (sc.visitNode g) ⟨v, m⟩).values.read node.id,
          ((pre ++ [node]).foldl (sc.visitNode g) ⟨v, m⟩).memory⟩) :
    o.leaving g b = some (sc.visitBlock g block ⟨v, m⟩).memory := by
  have hids := hg.map_id_nodesOf hblock
  simp only [Outcome.leaving, hm, hblock, Option.bind_some, visitBlock]
  rcases List.eq_nil_or_concat (g.nodesOf block) with hnil | ⟨pre, node, hnodes⟩
  · rw [← hids, hnil]
    rfl
  · rw [List.concat_eq_append] at hnodes
    have hlast : block.nodes.getLast? = some node.id := by
      rw [← hids, hnodes]
      simp
    simp only [hlast, Outcome.after?, hfindings pre node [] hnodes, hnodes, Option.map_some]

theorem leaving_analyze (hg : g.WellListed) {b : BlockId} {block : Block} {m : Memory}
    (hblock : g.block? b = some block) (hreach : g.Reachable b)
    (hm : Outcome.atEntry? (sc.analyze g bound) b = some m) :
    ∃ v, (sc.analyze g bound).leaving g b = some (sc.visitBlock g block ⟨v, m⟩).memory := by
  obtain ⟨v, hfindings⟩ := exists_values_findings hg hblock hreach hm
  exact ⟨v, leaving_eq_visitBlock hg hblock hm hfindings⟩

section Converged

variable (hg : g.Mirrored) (h : (sc.analyze g bound).converged = true)
include hg h

theorem entry_eq_join {b : BlockId} {block : Block} (hblock : g.block? b = some block)
    (hb : g.Reachable b) :
    Outcome.atEntry? (sc.analyze g bound) b =
      some ((Memory.joinAll (meeting g (sc.entryMemory g)
        ((sc.dataflow g).solve g bound ∅).after.get? block b)).getD ∅) :=
  Dataflow.before_solve (sc.steady_dataflow g) hg h hblock hb

theorem reachable_of_entry {b : BlockId} {m : Memory}
    (hm : Outcome.atEntry? (sc.analyze g bound) b = some m) :
    (∃ block, g.block? b = some block) ∧ g.Reachable b := by
  have hbefore : ((sc.dataflow g).solve g bound ∅).before.contains b = true :=
    Table.contains_iff_exists.2 ⟨m, hm⟩
  rw [Dataflow.contains_before_solve (sc.steady_dataflow g) hg,
    Dataflow.contains_after_solve (sc.steady_dataflow g) hg h] at hbefore
  exact ⟨Option.isSome_iff_exists.1 hbefore.1, hbefore.2⟩

theorem exists_joinAll_leaving (hl : g.WellListed) {b : BlockId} {block : Block}
    (hblock : g.block? b = some block) (hb : g.Reachable b) :
    ∃ joined, Memory.joinAll (meeting g (sc.entryMemory g)
      ((sc.analyze g bound).leaving g) block b) = some joined := by
  have hmem : ∃ m, m ∈ meeting g (sc.entryMemory g) ((sc.analyze g bound).leaving g) block b := by
    cases hb with
    | entry => exact ⟨sc.entryMemory g, by simp [meeting]⟩
    | @step p _ hp hedge =>
        obtain ⟨pblock, hpblock, hsucc⟩ := Graph.mem_succs_iff.1 hedge
        obtain ⟨v, hleaving⟩ := leaving_analyze hl hpblock hp (entry_eq_join hg h hpblock hp)
        exact ⟨_, List.mem_append_left _
          (List.mem_filterMap.2 ⟨p, (hg hpblock hblock).2 hsucc, hleaving⟩)⟩
  obtain ⟨m, hm⟩ := hmem
  cases hms : meeting g (sc.entryMemory g) ((sc.analyze g bound).leaving g) block b with
  | nil => simp [hms] at hm
  | cons first rest => exact ⟨_, Memory.joinAll_cons first rest⟩

theorem solves_iff_settled (hl : g.WellListed) :
    (sc.analyze g bound).Solves sc g ↔ sc.Settled g bound := by
  constructor
  · intro hsolves b block hblock hb
    obtain ⟨block', joined, hblock', hjoined, heq⟩ :=
      hsolves b _ (entry_eq_join hg h hblock hb)
    rw [hblock] at hblock'
    cases hblock'
    rw [hjoined]
    exact heq
  · intro hsettled b m hm
    obtain ⟨⟨block, hblock⟩, hb⟩ := reachable_of_entry hg h hm
    obtain ⟨joined, hjoined⟩ := exists_joinAll_leaving hg h hl hblock hb
    have heq := hsettled b block hblock hb
    rw [entry_eq_join hg h hblock hb, Option.some.injEq] at hm
    rw [hm, hjoined] at heq
    exact ⟨block, joined, hblock, hjoined, heq⟩

/-- Where blocks are self-contained, control leaves a block in the second pass with the memory that
the solver passed on. -/
theorem rel_after_leaving (hl : g.WellListed) (hself : g.SelfContained) (b : BlockId) :
    Option.Rel (fun m m' : Memory => (m == m') = true)
      (((sc.dataflow g).solve g bound ∅).after.get? b) ((sc.analyze g bound).leaving g b) := by
  have hcontains : ((sc.dataflow g).solve g bound ∅).before.contains b =
      ((sc.dataflow g).solve g bound ∅).after.contains b :=
    Dataflow.contains_before_solve (sc.steady_dataflow g) hg b
  cases hm : Outcome.atEntry? (sc.analyze g bound) b with
  | none =>
      have hnone : ((sc.dataflow g).solve g bound ∅).after.get? b = none := by
        rw [Table.contains, show ((sc.dataflow g).solve g bound ∅).before.get? b = none from hm]
          at hcontains
        exact Option.isNone_iff_eq_none.1 (by simpa [Table.contains] using hcontains.symm)
      rw [hnone, Outcome.leaving, hm]
      exact .none
  | some m =>
      obtain ⟨⟨block, hblock⟩, hb⟩ := reachable_of_entry hg h hm
      obtain ⟨out, hafter, hout⟩ :=
        Dataflow.passed_solve (sc.stateless_dataflow hself) hblock hm
      obtain ⟨v, hleaving⟩ := leaving_analyze hl hblock hb hm
      have hvisit : (sc.visitBlock g block ⟨v, m⟩).memory = (sc.visitBlock g block ⟨∅, m⟩).memory :=
        (hself.agree agreement_eq sc hblock (List.append_nil _).symm rfl v ∅).1
      rw [hafter, hleaving, hvisit]
      rcases hout with rfl | heq
      · exact .some (Table.beq_iff_get?_eq.2 fun _ => rfl)
      · exact .some heq

end Converged

theorem settled_of_selfContained (hg : g.Mirrored) (h : (sc.analyze g bound).converged = true)
    (hl : g.WellListed) (hself : g.SelfContained) : sc.Settled g bound := by
  intro b block _ _
  have hpreds : List.Forall₂ (fun m m' : Memory => (m == m') = true)
      (block.preds.filterMap ((sc.dataflow g).solve g bound ∅).after.get?)
      (block.preds.filterMap ((sc.analyze g bound).leaving g)) := by
    refine List.rel_filterMap (R := Eq) ?_ (List.forall₂_same.2 fun _ _ => rfl)
    rintro c _ rfl
    exact rel_after_leaving hg h hl hself c
  have hinitial : List.Forall₂ (fun m m' : Memory => (m == m') = true)
      (if b = g.entry then [sc.entryMemory g] else [])
      (if b = g.entry then [sc.entryMemory g] else []) := by
    split
    · exact .cons (Table.beq_iff_get?_eq.2 fun _ => rfl) .nil
    · exact .nil
  exact Memory.joinAll_beq (List.rel_append hpreds hinitial)

end Scope

namespace Policy

/-- The memories that the analysis of a procedure finds, if it is completed, solve the equations of
the graph exactly if they are settled.  Without conditionals they always do. -/
theorem solves_analyzeProcedure_iff (pol : Policy) (p : Program) (proc : Procedure)
    (h : (pol.analyzeProcedure p proc).converged = true) :
    ((pol.analyzeProcedure p proc).Solves (pol.scope p) (proc.lower p) ↔
      (pol.scope p).Settled (proc.lower p) pol.maxVisits.toNat) ∧
    (proc.IsStraight →
      (pol.analyzeProcedure p proc).Solves (pol.scope p) (proc.lower p)) := by
  have hl := (proc.built_lower p).wellListed
  have hg : (proc.lower p).Mirrored := (proc.linked_lower p).mirrored
  have hiff := Scope.solves_iff_settled hg h hl
  refine ⟨hiff, fun hstraight => hiff.2 ?_⟩
  have hself : (proc.lower p).SelfContained :=
    (proc.usesPrecede_lower p hstraight).selfContained hl
  exact Scope.settled_of_selfContained hg h hl hself

/-- A loop that changes one variable, and another one from it, without conditionals. -/
theorem solves_analyzeProcedure_loop :
    let x (i : UInt32) : Expr := .var ⟨i⟩ (.primitive .int)
    let one : Expr := .literal (.int 1) (.primitive .int)
    let proc : Procedure := ⟨⟨3⟩, [], [.eval (.assign (x 1) one), .eval (.assign (x 0) one),
      .loop (x 2) [.eval (.assign (x 0) (.binary .add (x 1) one (.primitive .int))),
        .eval (.assign (x 1) (.call ⟨9⟩ [] (.primitive .int)))]]⟩
    let o := Policy.standard.analyzeProcedure ∅ proc
    o.converged = true ∧ proc.IsStraight ∧
      o.Solves (Policy.standard.scope ∅) (proc.lower ∅) := by
  intro x one proc o
  have hconverged : o.converged = true := by decide +kernel
  have hstraight : proc.IsStraight := by decide
  exact ⟨hconverged, hstraight,
    (Policy.standard.solves_analyzeProcedure_iff ∅ proc hconverged).2 hstraight⟩

/-- In this loop the sum reads a variable before a conditional and is assigned after it, in another
block.  That the variable was raised in the last round is seen by the second pass only: the memory
on entry to the loop keeps the class `safe`, although control comes back with `unknown`. -/
theorem not_solves_analyzeProcedure_conditional :
    let x (i : UInt32) : Expr := .var ⟨i⟩ (.primitive .int)
    let one : Expr := .literal (.int 1) (.primitive .int)
    let conditional : Expr :=
      .mk (.conditional (.assign (x 1) one) one one) (.primitive .int)
    let proc : Procedure := ⟨⟨3⟩, [], [.eval (.assign (x 1) one), .eval (.assign (x 0) one),
      .loop (x 2) [.eval (.assign (x 0) (.binary .add (x 1) conditional (.primitive .int))),
        .eval (.assign (x 1) (.call ⟨9⟩ [] (.primitive .int)))]]⟩
    let o := Policy.standard.analyzeProcedure ∅ proc
    let g := proc.lower ∅
    let entered := o.atEntry? 2
    o.converged = true ∧ ¬ o.Solves (Policy.standard.scope ∅) g ∧
      entered.map (fun m => m.read (.var ⟨0⟩)) = some .safe ∧
      7 ∈ ((g.block? 2).map Block.preds).getD [] ∧
      (o.leaving g 7).map (fun m => m.read (.var ⟨0⟩)) = some .unknown := by
  intro x one conditional proc o g entered
  have hentry : entered.map (fun m => m.read (.var ⟨0⟩)) = some .safe := by
    decide +kernel
  have hjoin : ((g.block? 2).bind fun block => Memory.joinAll (meeting g
      ((Policy.standard.scope ∅).entryMemory g) (o.leaving g) block 2)).map
        (fun m => m.read (.var ⟨0⟩)) = some .unknown := by
    decide +kernel
  refine ⟨by decide +kernel, fun hsolves => ?_, hentry, by decide +kernel, by decide +kernel⟩
  obtain ⟨m, hm, hread⟩ := Option.map_eq_some_iff.1 hentry
  obtain ⟨block, joined, hblock, hjoined, heq⟩ := hsolves 2 m hm
  rw [hblock, Option.bind_some, hjoined, Option.map_some, Option.some.injEq,
    ← Memory.read_eq_of_beq heq, hread] at hjoin
  cases hjoin

end Policy

end Disclosure
