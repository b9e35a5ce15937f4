import Disclosure.Proofs.Graph.Reach
import Disclosure.Proofs.Lowering.Statements

/-!
# Terminators and edges

In a graph that was constructed tidily, the successors of a block are the targets of its terminator,
and every block that control can come to ends in one.  The graph of a procedure whose jumps land is
such a graph exactly if no condition of a loop contains a conditional.

A step keeps this for the blocks that have ended.  The others are the current block, the exit and
the blocks left for later, of which none is left in the end.
-/

namespace Disclosure

/-- The successors of a block are the targets of its terminator, and every block that can be reached
ends in one, except the exit. -/
structure Graph.Terminated (g : Graph) : Prop where
  succs_eq : ∀ {b block}, g.block? b = some block → block.succs = block.targets g.exit
  exists_terminator : ∀ {b}, g.Reachable b → b ≠ g.exit →
    ∃ block t, g.block? b = some block ∧ block.terminator = some t

theorem Graph.Terminated.not_spoiled {g : Graph} (h : g.Terminated) : ¬ g.Spoiled := by
  rintro ⟨b, block, hblock, hlong⟩
  rw [h.succs_eq hblock, Block.targets] at hlong
  cases hterm : block.terminator with
  | none => simp [hterm] at hlong
  | some t =>
      have hshort := t.length_targets_le g.exit
      simp only [hterm] at hlong
      exact Nat.not_lt_of_le hshort hlong

theorem Graph.Linked.lt_of_reachable {g : Graph} (h : g.Linked) (hentry : g.entry < g.nextBlock)
    {b : BlockId} (hb : g.Reachable b) : b < g.nextBlock := by
  induction hb with
  | entry => exact hentry
  | step _ hedge _ =>
      obtain ⟨pblock, hpblock, hsucc⟩ := mem_succs_iff.1 hedge
      exact h.succs_lt hpblock hsucc

theorem Graph.Linked.preds_ne_nil {g : Graph} (h : g.Linked) {b : BlockId} {block : Block}
    (hb : g.Reachable b) (hentry : b ≠ g.entry) (hblock : g.block? b = some block) :
    block.preds ≠ [] := by
  cases hb with
  | entry => exact absurd rfl hentry
  | step _ hedge =>
      obtain ⟨pblock, hpblock, hsucc⟩ := mem_succs_iff.1 hedge
      exact List.ne_nil_of_mem ((h.mirrored hpblock hblock).2 hsucc)

namespace Stage

/-- The successors of every block are the targets of its terminator, and the blocks without one are
those left for later, the current one and the exit. -/
structure Tidy (s : Stage) : Prop where
  succs_eq : ∀ {b block}, s.draft.graph.block? b = some block →
    block.succs = block.targets s.draft.graph.exit
  unfinished : ∀ {b block}, s.draft.graph.block? b = some block → block.terminator = none →
    b ∈ s.reserved ∨ b = s.draft.current ∨ b = s.draft.graph.exit

variable {m : Mode} {s s' : Stage}

theorem Tidy.step (hm : m.tidy) (h : s.Tidy) (hstep : Step m s s') : s'.Tidy := by
  cases hstep with
  | @emit d reserved op _ _ =>
      have hold : ∀ {c block'}, (d.graph.addNode d.current op).block? c = some block' →
          ∃ block, d.graph.block? c = some block ∧ block'.succs = block.succs ∧
            block'.terminator = block.terminator := by
        intro c block' hc
        rw [Graph.block?_addNode] at hc
        split at hc
        · obtain ⟨block, hblock, rfl⟩ := Option.map_eq_some_iff.1 hc
          exact ⟨block, hblock, rfl, rfl⟩
        · exact ⟨block', hc, rfl, rfl⟩
      refine ⟨fun hc => ?_, fun hc hterm => ?_⟩
      · obtain ⟨block, hblock, hsuccs, hterm⟩ := hold hc
        rw [hsuccs, Block.targets, hterm]
        exact h.succs_eq hblock
      · obtain ⟨block, hblock, -, hsame⟩ := hold hc
        exact h.unfinished hblock (hsame ▸ hterm)
  | @reserve d before after =>
      refine ⟨fun hc => ?_, fun {c _} hc hterm => ?_⟩
      · simp only [Graph.block?_addBlock] at hc
        split at hc
        · cases hc
          rfl
        · exact h.succs_eq hc
      · by_cases hnew : c = d.graph.nextBlock
        · exact Or.inl (by simp [hnew])
        · simp only [Graph.block?_addBlock, if_neg hnew] at hc
          rcases h.unfinished hc hterm with hmem | hother
          · refine Or.inl ?_
            simpa [hnew] using hmem
          · exact Or.inr hother
  | @close d reserved b t _ _ _ hnodup htidy =>
      obtain ⟨rfl, block, hblock, hopen⟩ := htidy hm
      -- a block that has not ended has no successors, so those it gets are the targets
      have hnil : block.succs = [] := by
        rw [h.succs_eq hblock, Block.targets, hopen]
      have hsuccs : (t.targets d.graph.exit).foldl Block.adjoin block.succs =
          t.targets d.graph.exit := by
        rw [hnil]
        exact Block.foldl_adjoin_eq_append (by simpa using hnodup)
      refine ⟨fun {c _} hc => ?_, fun {c _} hc hterm => ?_⟩
      · simp only [Graph.block?_endWith] at hc
        obtain ⟨old, hold, rfl⟩ := Option.map_eq_some_iff.1 hc
        by_cases hcurrent : d.current = c
        · subst hcurrent
          rw [hblock] at hold
          cases hold
          simp [Block.targets, hsuccs]
        · simpa [hcurrent, Block.targets] using h.succs_eq hold
      · simp only [Graph.block?_endWith] at hc
        obtain ⟨old, hold, rfl⟩ := Option.map_eq_some_iff.1 hc
        by_cases hcurrent : d.current = c
        · simp [hcurrent] at hterm
        · simp only [hcurrent, if_false] at hterm
          simpa using h.unfinished hold hterm
  | @move d b reserved htidy =>
      refine ⟨h.succs_eq, fun {c _} hc hterm => ?_⟩
      rcases h.unfinished hc hterm with hmem | rfl | hexit
      · rcases List.mem_cons.1 hmem with rfl | hmem
        · exact Or.inr (Or.inl rfl)
        · exact Or.inl hmem
      · obtain ⟨block, t, hblock, hended⟩ := htidy hm
        rw [hblock] at hc
        cases hc
        simp [hterm] at hended
      · exact Or.inr (Or.inr hexit)
  | retarget => exact ⟨h.succs_eq, h.unfinished⟩

theorem Tidy.run (hm : m.tidy) (h : s.Tidy) (hrun : Run m s s') : s'.Tidy := by
  induction hrun with
  | refl => exact h
  | tail _ hstep ih => exact ih.step hm hstep

end Stage

namespace Procedure

theorem tidy_startDraft (proc : Procedure) : Stage.Tidy ⟨proc.startDraft, []⟩ where
  succs_eq hb := by
    rw [(block?_startDraft hb).2]
    rfl
  unfinished {b _} hb _ := by
    match b, (block?_startDraft hb).1 with
    | 0, _ => exact Or.inr (Or.inl rfl)
    | 1, _ => exact Or.inr (Or.inr rfl)

/-- For a procedure whose jumps land, terminators and edges agree exactly if no condition of a loop
contains a conditional. -/
theorem terminated_lower_iff (p : Program) (proc : Procedure) (h : proc.JumpsLand) :
    (proc.lower p).Terminated ↔ proc.LoopsStraight := by
  obtain ⟨d, hgraph, hpass, hspoiled, hlast⟩ :=
    proc.exists_run p ⟨proc.LoopsStraight, False⟩ (fun hclean => ⟨h, hclean⟩) False.elim
  rw [← hgraph]
  constructor
  · intro hterminated
    by_contra hnot
    exact hterminated.not_spoiled (hspoiled hnot)
  · intro hclean
    have htidy : Stage.Tidy ⟨d, []⟩ := proc.tidy_startDraft.run hclean hpass.run
    refine ⟨htidy.succs_eq, fun {b} hreach hexit => ?_⟩
    have hlinked := hpass.sound.linked
    obtain ⟨block, hblock⟩ :=
      hlinked.exists_block (hlinked.lt_of_reachable hpass.sound.entry_lt hreach)
    cases hterm : block.terminator with
    | some t => exact ⟨block, t, hblock, hterm⟩
    | none =>
        -- no block is left for later, so this one is the last
        have hcurrent : b = d.current := by
          rcases htidy.unfinished hblock hterm with hmem | hcurrent | hb
          · cases hmem
          · exact hcurrent
          · exact absurd hb hexit
        subst hcurrent
        rcases hlast with hclosed | ⟨hentry, last, hlast, hnil⟩
        · exact hclosed
        · exact absurd hnil (hlinked.preds_ne_nil hreach hentry hlast)

/-- A choice in a loop, with both kinds of jumps, a conditional for a label and one in the default
body. -/
theorem terminated_lower_choice_in_loop :
    let x (i : UInt32) : Expr := .var ⟨i⟩ (.primitive .int)
    let conditional : Expr := .mk (.conditional (x 0) (x 1) (x 2)) (.primitive .int)
    let choice : Stmt := .select (x 1) [.mk (x 2) [.exitLoop], .mk conditional [.nextRound]]
      (some [.eval (.assign (x 3) conditional)])
    let proc : Procedure := ⟨⟨9⟩, [], [.loop (x 0) [choice, .exitLoop]]⟩
    proc.JumpsLand ∧ proc.LoopsStraight ∧ (proc.lower ∅).Terminated := by
  intro x conditional choice proc
  have hland : proc.JumpsLand := by decide
  have hstraight : proc.LoopsStraight := by decide
  exact ⟨hland, hstraight, (terminated_lower_iff ∅ proc hland).2 hstraight⟩

/-- A loop with a conditional for its condition: the head has two successors that its terminator
does not name, and control comes to a block that does not end. -/
theorem not_terminated_lower_conditional_loop :
    let x (i : UInt32) : Expr := .var ⟨i⟩ (.primitive .int)
    let proc : Procedure :=
      ⟨⟨3⟩, [], [.loop (.mk (.conditional (x 0) (x 1) (x 2)) (.primitive .int)) []]⟩
    let g := proc.lower ∅
    proc.JumpsLand ∧ ¬ g.Terminated ∧
      (g.block? 2).map (fun head => (head.succs, head.targets g.exit)) =
        some ([5, 6, 3, 4], [3, 4]) ∧
      7 ≠ g.exit ∧ g.Reachable 7 ∧ (g.block? 7).map Block.terminator = some none := by
  intro x proc g
  have hhead : (g.block? 2).map (fun head => (head.succs, head.targets g.exit)) =
      some ([5, 6, 3, 4], [3, 4]) := by decide +kernel
  have hreach : g.Reachable 7 := Graph.mem_order_iff.1 (by decide +kernel)
  refine ⟨by decide, ?_, hhead, by decide +kernel, hreach, by decide +kernel⟩
  intro hterminated
  obtain ⟨head, hblock, hedges⟩ := Option.map_eq_some_iff.1 hhead
  rw [hterminated.succs_eq hblock, Prod.mk.injEq] at hedges
  exact absurd (hedges.1.symm.trans hedges.2) (by decide)

end Procedure

end Disclosure
