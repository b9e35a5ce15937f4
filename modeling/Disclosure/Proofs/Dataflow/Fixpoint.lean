import Disclosure.Proofs.Dataflow.Visits
import Disclosure.Proofs.Graph.Reach

/-!
# The solver finds a fixpoint

When the queue is empty, the facts satisfy the equations of the problem: there are facts at exactly
the blocks that can be reached, the fact before a block is the join of the facts after its
predecessors, and the fact after it is what the block makes of the fact before it.

The first two parts hold of every problem whose joins do not depend on its state, because a block
is visited again whenever a fact that flows into it has changed.  They are the invariant `Balanced`:
a block that is not queued has the join of what meets there.  The third part also needs that the
fact after a block depends on nothing but the fact before it.
-/

namespace Disclosure

namespace Dataflow

variable {σ α : Type}

/-- Going through a block does not change how facts are joined, nor the initial fact. -/
structure Steady (a : Dataflow σ α) : Prop where
  join_eq : ∀ state block input, a.join (a.transfer state block input).2 = a.join state
  initial_eq : ∀ state block input, a.initial (a.transfer state block input).2 = a.initial state

/-- The fact after a block depends on the block and on the fact before it only, and nothing that
a block does to the state is ever seen in a fact. -/
structure Stateless (a : Dataflow σ α) (g : Graph) : Prop extends a.Steady where
  transfer_eq : ∀ {b block}, g.block? b = some block → ∀ state state' input,
    (a.transfer state block input).1 = (a.transfer state' block input).1

/-- The facts before blocks are up to date, except at blocks that are queued. -/
structure Balanced (a : Dataflow σ α) (g : Graph) (state : σ) (s : Progress σ α) : Prop where
  join_eq : a.join s.state = a.join state
  initial_eq : a.initial s.state = a.initial state
  contains_eq : ∀ b, s.before.contains b = s.after.contains b
  reached : ∀ {b}, s.after.contains b = true → (g.block? b).isSome = true ∧ g.Reachable b
  settled : ∀ {b block}, g.block? b = some block → b ∉ s.queue →
    meeting g (a.initial state) s.after.get? block b ≠ [] →
    s.before.get? b = some (a.join state (meeting g (a.initial state) s.after.get? block b))

theorem balanced_start (a : Dataflow σ α) (g : Graph) (state : σ) :
    a.Balanced g state (start state g) where
  join_eq := rfl
  initial_eq := rfl
  contains_eq _ := rfl
  reached h := by cases h
  settled {b block} _ hqueue hmeet := by
    rcases entry_or_pred_of_meeting hmeet with rfl | ⟨p, _, hp⟩
    · exact absurd (Graph.mem_order_iff.2 .entry) hqueue
    · cases hp

theorem Balanced.reachable_of_meeting {a : Dataflow σ α} {g : Graph} {state : σ}
    {s : Progress σ α} (hs : a.Balanced g state s) (hg : g.Mirrored) {b : BlockId} {block : Block}
    (hblock : g.block? b = some block) {initial : α}
    (hmeet : meeting g initial s.after.get? block b ≠ []) : g.Reachable b := by
  rcases entry_or_pred_of_meeting hmeet with rfl | ⟨p, hp, hafter⟩
  · exact .entry
  · obtain ⟨hexists, hreach⟩ := hs.reached hafter
    obtain ⟨pblock, hpblock⟩ := Option.isSome_iff_exists.1 hexists
    have hedge : b ∈ pblock.succs := (hg hpblock hblock).1 hp
    exact hreach.step (Graph.mem_succs_iff.2 ⟨pblock, hpblock, hedge⟩)

theorem Balanced.visited [BEq α] {a : Dataflow σ α} {g : Graph} {state : σ} (ha : a.Steady)
    (hg : g.Mirrored) {s s' : Progress σ α} {b : BlockId} {rest : List BlockId}
    (hq : s.queue = b :: rest) (hs : a.Balanced g state s)
    (hvisit : Visited a g b { s with queue := rest } s') : a.Balanced g state s' := by
  -- a block other than `b` that is not queued now was not queued before
  have hqueue : ∀ {c}, c ≠ b → c ∉ rest → c ∉ s.queue := by
    intro c hcb hc
    simp [hq, hcb, hc]
  cases hvisit with
  | idle hidle =>
      refine ⟨hs.join_eq, hs.initial_eq, hs.contains_eq, hs.reached, ?_⟩
      intro c block hblock hc hmeet
      by_cases hcb : c = b
      · subst hcb
        have hnil := hidle hblock
        rw [hs.initial_eq] at hnil
        exact absurd hnil hmeet
      · exact hs.settled hblock (hqueue hcb hc) hmeet
  | @kept block input output old st hblock hmeet hinput htransfer hold heq =>
      have hjoin := ha.join_eq s.state block input
      have hinitial := ha.initial_eq s.state block input
      rw [htransfer] at hjoin hinitial
      rw [hs.initial_eq] at hinput hmeet
      refine ⟨hjoin.trans hs.join_eq, hinitial.trans hs.initial_eq, ?_, hs.reached, ?_⟩
      · intro c
        rw [Table.contains_insert, hs.contains_eq]
        by_cases hbc : b = c
        · subst hbc
          simp [Table.contains, hold]
        · simp [hbc]
      · intro c cblock hcblock hc hcmeet
        by_cases hcb : c = b
        · subst hcb
          rw [hblock] at hcblock
          cases hcblock
          rw [Table.get?_insert_self, hinput, hs.join_eq]
        · rw [Table.get?_insert_of_ne _ _ (Ne.symm hcb)]
          exact hs.settled hcblock (hqueue hcb hc) hcmeet
  | @changed block input output st hblock hmeet hinput htransfer hne =>
      have hjoin := ha.join_eq s.state block input
      have hinitial := ha.initial_eq s.state block input
      rw [htransfer] at hjoin hinitial
      rw [hs.initial_eq] at hinput hmeet
      have hreach := hs.reachable_of_meeting hg hblock hmeet
      refine ⟨hjoin.trans hs.join_eq, hinitial.trans hs.initial_eq, ?_, ?_, ?_⟩
      · intro c
        rw [Table.contains_insert, Table.contains_insert, hs.contains_eq]
      · intro c hc
        by_cases hbc : b = c
        · subst hbc
          exact ⟨by simp [hblock], hreach⟩
        · rw [Table.contains_insert] at hc
          exact hs.reached (by simpa [hbc] using hc)
      · intro c cblock hcblock hc hcmeet
        rw [mem_foldl_enqueue, not_or] at hc
        -- the new fact flows into no block that was not queued for it
        have hnopred : b ∉ cblock.preds := fun hp => hc.2 ((hg hblock hcblock).1 hp)
        rw [meeting_insert_of_not_mem output hnopred] at hcmeet ⊢
        by_cases hcb : c = b
        · subst hcb
          rw [hblock] at hcblock
          cases hcblock
          rw [Table.get?_insert_self, hinput, hs.join_eq]
        · rw [Table.get?_insert_of_ne _ _ (Ne.symm hcb)]
          exact hs.settled hcblock (hqueue hcb hc.1) hcmeet

theorem balanced_run [BEq α] {a : Dataflow σ α} {g : Graph} (ha : a.Steady) (hg : g.Mirrored)
    (bound : Nat) (state : σ) : a.Balanced g state (a.run g bound (start state g)) :=
  run_invariant (fun hq hs hvisit => hs.visited ha hg hq hvisit) bound (balanced_start a g state)

theorem Balanced.meeting_ne_nil {a : Dataflow σ α} {g : Graph} {state : σ} {s : Progress σ α}
    (hs : a.Balanced g state s) (hg : g.Mirrored) (hq : s.queue = []) {b : BlockId}
    (hb : g.Reachable b) : ∀ {block}, g.block? b = some block →
      meeting g (a.initial state) s.after.get? block b ≠ [] := by
  induction hb with
  | entry => exact fun _ => meeting_ne_nil_of_entry
  | @step p b hp hedge ih =>
      intro block hblock
      obtain ⟨pblock, hpblock, hsucc⟩ := Graph.mem_succs_iff.1 hedge
      have hbefore := hs.settled hpblock (by simp [hq]) (ih hpblock)
      have hafter : s.after.contains p = true := by
        rw [← hs.contains_eq]
        exact Table.contains_iff_exists.2 ⟨_, hbefore⟩
      exact meeting_ne_nil_of_pred ((hg hpblock hblock).2 hsucc) hafter

section Solve

variable [BEq α] {a : Dataflow σ α} {g : Graph} {bound : Nat} {state : σ}

theorem queue_eq_nil_of_converged (h : (a.solve g bound state).converged = true) :
    (a.run g bound (start state g)).queue = [] :=
  List.isEmpty_iff.1 h

theorem before_solve (ha : a.Steady) (hg : g.Mirrored)
    (h : (a.solve g bound state).converged = true) {b : BlockId} {block : Block}
    (hblock : g.block? b = some block) (hb : g.Reachable b) :
    (a.solve g bound state).before.get? b =
      some (a.join state
        (meeting g (a.initial state) (a.solve g bound state).after.get? block b)) := by
  have hs := balanced_run ha hg bound state
  have hq := queue_eq_nil_of_converged h
  exact hs.settled hblock (by simp [hq]) (hs.meeting_ne_nil hg hq hb hblock)

theorem contains_before_solve (ha : a.Steady) (hg : g.Mirrored) (b : BlockId) :
    (a.solve g bound state).before.contains b = (a.solve g bound state).after.contains b :=
  (balanced_run ha hg bound state).contains_eq b

theorem contains_after_solve (ha : a.Steady) (hg : g.Mirrored)
    (h : (a.solve g bound state).converged = true) {b : BlockId} :
    (a.solve g bound state).after.contains b = true ↔
      (g.block? b).isSome = true ∧ g.Reachable b := by
  constructor
  · exact (balanced_run ha hg bound state).reached
  · rintro ⟨hexists, hb⟩
    obtain ⟨block, hblock⟩ := Option.isSome_iff_exists.1 hexists
    rw [← contains_before_solve ha hg]
    exact Table.contains_iff_exists.2 ⟨_, before_solve ha hg h hblock hb⟩

/-- The fact after a block, as it was recorded, is the one that the block gives or one that is equal
to it. -/
def Passed (a : Dataflow σ α) (g : Graph) (state : σ) (s : Progress σ α) : Prop :=
  ∀ b block input, g.block? b = some block → s.before.get? b = some input →
    ∃ output, s.after.get? b = some output ∧
      (output = (a.transfer state block input).1 ∨
        (output == (a.transfer state block input).1) = true)

theorem Passed.visited (ha : a.Stateless g) {s s' : Progress σ α} {b : BlockId}
    {rest : List BlockId} (hs : a.Passed g state s)
    (hvisit : Visited a g b { s with queue := rest } s') : a.Passed g state s' := by
  cases hvisit with
  | idle => exact hs
  | @kept block input output old st hblock hmeet hinput htransfer hold heq =>
      intro c cblock cinput hcblock hcinput
      by_cases hbc : b = c
      · subst hbc
        rw [hblock] at hcblock
        cases hcblock
        rw [Table.get?_insert_self] at hcinput
        cases hcinput
        have houtput : output = (a.transfer state block input).1 := by
          rw [← ha.transfer_eq hblock s.state state input, htransfer]
        exact ⟨old, hold, Or.inr (houtput ▸ heq)⟩
      · rw [Table.get?_insert_of_ne _ _ hbc] at hcinput
        exact hs c cblock cinput hcblock hcinput
  | @changed block input output st hblock hmeet hinput htransfer hne =>
      intro c cblock cinput hcblock hcinput
      by_cases hbc : b = c
      · subst hbc
        rw [hblock] at hcblock
        cases hcblock
        rw [Table.get?_insert_self] at hcinput
        cases hcinput
        have houtput : output = (a.transfer state block input).1 := by
          rw [← ha.transfer_eq hblock s.state state input, htransfer]
        exact ⟨output, Table.get?_insert_self _ _ _, Or.inl houtput⟩
      · rw [Table.get?_insert_of_ne _ _ hbc] at hcinput ⊢
        exact hs c cblock cinput hcblock hcinput

theorem passed_solve (ha : a.Stateless g) {b : BlockId} {block : Block} {input : α}
    (hblock : g.block? b = some block)
    (hinput : (a.solve g bound state).before.get? b = some input) :
    ∃ output, (a.solve g bound state).after.get? b = some output ∧
      (output = (a.transfer state block input).1 ∨
        (output == (a.transfer state block input).1) = true) := by
  have hstart : a.Passed g state (start state g) := fun _ _ _ _ h => by cases h
  have hrun : a.Passed g state (a.run g bound (start state g)) :=
    run_invariant (fun _ hs hvisit => hs.visited ha hvisit) bound hstart
  exact hrun b block input hblock hinput

end Solve

/-- The facts satisfy the equations of the problem: they are given at the blocks that can be
reached; before a block is the join of the facts after its predecessors, in their order, and on
entry of the initial fact; after it is the fact that it gives, or one that `==` takes for it. -/
structure Solution.IsFixpoint [BEq α] (sol : Solution σ α) (a : Dataflow σ α) (g : Graph)
    (state : σ) : Prop where
  contains_before_iff : ∀ b, sol.before.contains b = true ↔
    (g.block? b).isSome = true ∧ g.Reachable b
  contains_after_iff : ∀ b, sol.after.contains b = true ↔
    (g.block? b).isSome = true ∧ g.Reachable b
  equations : ∀ {b block}, g.block? b = some block → g.Reachable b →
    ∃ input output, sol.before.get? b = some input ∧ sol.after.get? b = some output ∧
      input = a.join state (block.preds.filterMap sol.after.get? ++
        if b = g.entry then [a.initial state] else []) ∧
      (output = (a.transfer state block input).1 ∨
        (output == (a.transfer state block input).1) = true)

/-- If the solver empties its queue, whatever the bound, its facts are a fixpoint. -/
theorem isFixpoint_solve [BEq α] {a : Dataflow σ α} {g : Graph} {bound : Nat} {state : σ}
    (ha : a.Stateless g) (hg : g.Mirrored) (h : (a.solve g bound state).converged = true) :
    (a.solve g bound state).IsFixpoint a g state where
  contains_before_iff b := by
    rw [contains_before_solve ha.toSteady hg]
    exact contains_after_solve ha.toSteady hg h
  contains_after_iff b := contains_after_solve ha.toSteady hg h
  equations hblock hb := by
    have hbefore := before_solve ha.toSteady hg h hblock hb
    obtain ⟨output, hafter, houtput⟩ := passed_solve ha hblock hbefore
    exact ⟨_, output, hbefore, hafter, rfl, houtput⟩

/-- A block in a loop with itself and an edge to a block that is not there, under a problem that
counts nodes up to three and the visits in its state. -/
theorem isFixpoint_solve_selfLoop :
    let a : Dataflow Nat Nat :=
      ⟨fun _ => 0, fun _ facts => facts.foldl max 0,
        fun n block input => (min (input + block.nodes.length) 3, n + 1)⟩
    let g := ((((Graph.start.addBlock.addNode 2 .lambda).addEdge 0 2).addEdge 2 2).addEdge
      2 1).addEdge 2 9
    g.Mirrored ∧ (a.solve g 20 0).converged = true ∧ (a.solve g 20 0).IsFixpoint a g 0 := by
  intro a g
  have ha : a.Stateless g :=
    ⟨⟨fun _ _ _ => rfl, fun _ _ _ => rfl⟩, fun _ _ _ _ => rfl⟩
  have hg : g.Mirrored := by decide
  have hconverged : (a.solve g 20 0).converged = true := by decide
  exact ⟨hg, hconverged, isFixpoint_solve ha hg hconverged⟩

end Dataflow

end Disclosure
