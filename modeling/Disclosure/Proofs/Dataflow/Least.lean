import Disclosure.Proofs.Dataflow.Fixpoint
import Mathlib.Order.Bounds.Basic

/-!
# The solver never finds too much

Facts before and after the blocks of a graph that are above whatever flows into them are called a
supersolution.  Where facts are joined to their least upper bound and blocks are monotone, every
fact that the solver records is below every supersolution.  This holds after each visit, so it does
not matter in which order the blocks are visited, nor how many visits are made, nor whether the
edges of the graph are listed on both sides.
-/

namespace Disclosure

namespace Dataflow

variable {σ α : Type} [PartialOrder α]

/-- A stateless problem in which one or more facts are joined to their least upper bound and every
block is monotone. -/
structure MonotoneFramework (a : Dataflow σ α) (g : Graph) (state : σ) : Prop
    extends a.Stateless g where
  isLUB_join : ∀ {facts}, facts ≠ [] → IsLUB {fact | fact ∈ facts} (a.join state facts)
  monotone : ∀ {b block}, g.block? b = some block →
    Monotone fun input => (a.transfer state block input).1

/-- Facts before and after the existing blocks of a graph, above whatever flows into them. -/
structure Supersolution (a : Dataflow σ α) (g : Graph) (state : σ) (before after : BlockId → α) :
    Prop where
  initial_le : ∀ {block}, g.block? g.entry = some block → a.initial state ≤ before g.entry
  pred_le : ∀ {p b pblock block}, g.block? p = some pblock → g.block? b = some block →
    p ∈ block.preds → after p ≤ before b
  transfer_le : ∀ {b block}, g.block? b = some block →
    (a.transfer state block (before b)).1 ≤ after b

/-- The facts recorded so far are those of existing blocks and lie below the given ones. -/
structure Bounded (a : Dataflow σ α) (g : Graph) (state : σ) (before after : BlockId → α)
    (s : Progress σ α) : Prop where
  join_eq : a.join s.state = a.join state
  initial_eq : a.initial s.state = a.initial state
  exists_block : ∀ {b fact}, s.after.get? b = some fact → ∃ block, g.block? b = some block
  before_le : ∀ {b fact}, s.before.get? b = some fact → fact ≤ before b
  after_le : ∀ {b fact}, s.after.get? b = some fact → fact ≤ after b

variable {a : Dataflow σ α} {g : Graph} {state : σ} {before after : BlockId → α}
  {s s' : Progress σ α} {b : BlockId} {block : Block}

theorem bounded_start (a : Dataflow σ α) (g : Graph) (state : σ) (before after : BlockId → α) :
    a.Bounded g state before after (start state g) where
  join_eq := rfl
  initial_eq := rfl
  exists_block h := by cases h
  before_le h := by cases h
  after_le h := by cases h

theorem Bounded.le_of_mem_meeting (hs : a.Bounded g state before after s)
    (h : a.Supersolution g state before after) (hblock : g.block? b = some block) {fact : α}
    (hfact : fact ∈ meeting g (a.initial state) s.after.get? block b) : fact ≤ before b := by
  rcases List.mem_append.1 hfact with hpred | hentry
  · obtain ⟨p, hp, hget⟩ := List.mem_filterMap.1 hpred
    obtain ⟨pblock, hpblock⟩ := hs.exists_block hget
    exact (hs.after_le hget).trans (h.pred_le hpblock hblock hp)
  · by_cases hb : b = g.entry
    · subst hb
      rw [if_pos rfl, List.mem_singleton] at hentry
      rw [hentry]
      exact h.initial_le hblock
    · simp [hb] at hentry

theorem Bounded.transfer_le (hs : a.Bounded g state before after s)
    (ha : a.MonotoneFramework g state) (h : a.Supersolution g state before after)
    (hblock : g.block? b = some block)
    {input output : α} {st : σ}
    (hmeet : meeting g (a.initial s.state) s.after.get? block b ≠ [])
    (hinput : input = a.join s.state (meeting g (a.initial s.state) s.after.get? block b))
    (htransfer : a.transfer s.state block input = (output, st)) :
    input ≤ before b ∧ output ≤ after b := by
  rw [hs.initial_eq] at hinput hmeet
  have hbefore : input ≤ before b := by
    rw [hinput, hs.join_eq]
    exact (ha.isLUB_join hmeet).2 fun fact hfact => hs.le_of_mem_meeting h hblock hfact
  have houtput : output = (a.transfer state block input).1 := by
    rw [← ha.transfer_eq hblock s.state state input, htransfer]
  refine ⟨hbefore, ?_⟩
  rw [houtput]
  exact (ha.monotone hblock hbefore).trans (h.transfer_le hblock)

theorem Bounded.visited [BEq α] (ha : a.MonotoneFramework g state)
    (h : a.Supersolution g state before after) {rest : List BlockId}
    (hs : a.Bounded g state before after s)
    (hvisit : Visited a g b { s with queue := rest } s') : a.Bounded g state before after s' := by
  cases hvisit with
  | idle => exact ⟨hs.join_eq, hs.initial_eq, hs.exists_block, hs.before_le, hs.after_le⟩
  | @kept block input output old st hblock hmeet hinput htransfer hold heq =>
      have hjoin := ha.join_eq s.state block input
      have hinitial := ha.initial_eq s.state block input
      rw [htransfer] at hjoin hinitial
      have hle := hs.transfer_le ha h hblock hmeet hinput htransfer
      refine ⟨hjoin.trans hs.join_eq, hinitial.trans hs.initial_eq, hs.exists_block, ?_,
        hs.after_le⟩
      intro c fact hc
      exact Table.of_get?_insert (P := fun c fact => fact ≤ before c) hc hle.1 hs.before_le
  | @changed block input output st hblock hmeet hinput htransfer hne =>
      have hjoin := ha.join_eq s.state block input
      have hinitial := ha.initial_eq s.state block input
      rw [htransfer] at hjoin hinitial
      have hle := hs.transfer_le ha h hblock hmeet hinput htransfer
      refine ⟨hjoin.trans hs.join_eq, hinitial.trans hs.initial_eq, ?_, ?_, ?_⟩
      · intro c fact hc
        exact Table.of_get?_insert (P := fun c _ => ∃ block, g.block? c = some block) hc
          ⟨block, hblock⟩ hs.exists_block
      · intro c fact hc
        exact Table.of_get?_insert (P := fun c fact => fact ≤ before c) hc hle.1 hs.before_le
      · intro c fact hc
        exact Table.of_get?_insert (P := fun c fact => fact ≤ after c) hc hle.2 hs.after_le

/-- Every fact that the solver records, with whatever bound, is below every supersolution. -/
theorem solve_le_of_supersolution [BEq α] (ha : a.MonotoneFramework g state)
    (h : a.Supersolution g state before after) (bound : Nat) :
    (∀ b fact, (a.solve g bound state).before.get? b = some fact → fact ≤ before b) ∧
      ∀ b fact, (a.solve g bound state).after.get? b = some fact → fact ≤ after b := by
  have hrun : a.Bounded g state before after (a.run g bound (start state g)) :=
    run_invariant (fun _ hs hvisit => hs.visited ha h hvisit) bound
      (bounded_start a g state before after)
  exact ⟨fun _ _ hb => hrun.before_le hb, fun _ _ hb => hrun.after_le hb⟩

/-- A block in a loop with itself and with an edge from a block that is not there, under a problem
that counts nodes up to three.  After three visits the queue is not empty. -/
theorem solve_le_of_supersolution_selfLoop :
    let a : Dataflow Nat Nat :=
      ⟨fun _ => 0, fun _ facts => facts.foldr max 0,
        fun n block input => (min (input + block.nodes.length) 3, n + 1)⟩
    let g := ((((Graph.start.addBlock.addNode 2 .lambda).addEdge 0 2).addEdge 2 2).addEdge
      9 2).addEdge 2 1
    let top : BlockId → Nat := fun b => if b = 0 then 0 else 3
    a.MonotoneFramework g 0 ∧ a.Supersolution g 0 top top ∧
      (a.solve g 3 0).converged = false ∧ (a.solve g 3 0).after.get? 2 = some 1 ∧
      ∀ b fact, (a.solve g 3 0).after.get? b = some fact → fact ≤ top b := by
  intro a g top
  have hjoin : ∀ facts : List Nat, IsLUB {fact | fact ∈ facts} (facts.foldr max 0) := by
    intro facts
    induction facts with
    | nil => exact ⟨fun _ h => absurd h List.not_mem_nil, fun _ _ => Nat.zero_le _⟩
    | cons fact rest ih =>
        have hinsert : {x | x ∈ fact :: rest} = insert fact {x | x ∈ rest} := by
          ext x
          simp
        rw [hinsert]
        exact ih.insert fact
  have ha : a.MonotoneFramework g 0 := by
    refine ⟨⟨⟨fun _ _ _ => rfl, fun _ _ _ => rfl⟩, fun _ _ _ _ => rfl⟩, fun _ => hjoin _, ?_⟩
    intro b block _ x y hxy
    exact min_le_min (Nat.add_le_add_right hxy _) (Nat.le_refl 3)
  have hentry : g.block? 0 = some ⟨0, [], none, [], [2]⟩ := by decide
  have htop : ∀ {b}, b ≠ 0 → top b = 3 := fun hb => if_neg hb
  have hsuper : a.Supersolution g 0 top top := by
    refine ⟨fun _ => Nat.zero_le _, fun {p b _ block} _ hb hp => ?_, fun {b block} hb => ?_⟩
    · by_cases h : b = 0
      · subst h
        rw [hentry] at hb
        cases hb
        cases hp
      · rw [htop h]
        by_cases hp0 : p = 0
        · simp [top, hp0]
        · exact Nat.le_of_eq (htop hp0)
    · by_cases h : b = 0
      · subst h
        rw [hentry] at hb
        cases hb
        decide
      · rw [htop h]
        exact Nat.min_le_right _ _
  exact ⟨ha, hsuper, by decide, by decide, (solve_le_of_supersolution ha hsuper 3).2⟩

end Dataflow

end Disclosure
