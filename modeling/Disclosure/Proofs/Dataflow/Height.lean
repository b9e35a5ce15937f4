import Disclosure.Proofs.Dataflow.Least
import Disclosure.Proofs.Dataflow.Recurrence
import Mathlib.Data.Fintype.Card
import Mathlib.Order.KrullDimension

/-!
# How many visits facts of finite height take

Where facts are joined to their least upper bound and blocks are monotone, the fact after a block
only rises.  What flows into the block rises from visit to visit, because the facts after its
predecessors do, and because there are facts after more of them.  If ascending chains of facts have
at most `h` elements, the fact after a block is recorded or replaced at most `h` times.  Each time
the successors of the block are queued.  So there is one visit for each number in the order and at
most `h` for each edge.

Nothing is asked of the graph.  Where an edge is listed on one side only, the facts need not be a
fixpoint in the end, but the solver stops all the same.
-/

namespace Disclosure

namespace Dataflow

variable {σ α : Type}

theorem visits_run_le [BEq α] (a : Dataflow σ α) (g : Graph) (bound : Nat) (s : Progress σ α) :
    (a.run g bound s).visits ≤ s.visits + bound := by
  induction bound generalizing s with
  | zero => exact Nat.le_refl _
  | succ bound ih =>
      cases hq : s.queue with
      | nil =>
          rw [run_of_queue_nil a g _ hq]
          exact Nat.le_add_right _ _
      | cons b rest =>
          have hstep : (a.step g s).visits = s.visits + 1 := (visited_step a g hq).visits_eq
          have hrest := ih (a.step g s)
          rw [run_of_queue_cons a g bound hq]
          omega

theorem visits_run_le_of_queue_nil [BEq α] {a : Dataflow σ α} {g : Graph} {s : Progress σ α}
    {n : Nat} (h : (a.run g n s).queue = []) (bound : Nat) :
    (a.run g bound s).visits ≤ s.visits + n := by
  cases Nat.le_total bound n with
  | inl hle => exact (visits_run_le a g bound s).trans (Nat.add_le_add_left hle _)
  | inr hle =>
      obtain ⟨more, rfl⟩ := Nat.exists_eq_add_of_le hle
      rw [run_add, run_of_queue_nil a g more h]
      exact visits_run_le a g n s

variable [PartialOrder α]

/-! ## How often a fact can rise -/

/-- How often a fact can still be replaced by a higher one, where ascending chains have at most
`height` elements.  Where there is no fact yet, the first one counts as well. -/
noncomputable def headroom (height : Nat) : Option α → Nat
  | none => height
  | some x => (Order.coheight x).toNat

section Headroom

variable {height : Nat} (hheight : ∀ chain : List α, chain.Pairwise (· < ·) → chain.length ≤ height)

include hheight

theorem coheight_le (x : α) : Order.coheight x ≤ (height - 1 : Nat) := by
  refine Order.coheight_le fun chain _ => ?_
  have hlength : chain.toList.length ≤ height :=
    hheight chain.toList (List.isChain_iff_pairwise.1 chain.isChain_toList)
  rw [RelSeries.length_toList] at hlength
  exact Nat.cast_le.2 (Nat.le_sub_one_of_lt hlength)

theorem headroom_some_lt_none (x : α) :
    headroom height (some x) < headroom (α := α) height none := by
  have hpos : 0 < height := hheight [x] (List.pairwise_singleton _ x)
  have hle : (Order.coheight x).toNat ≤ height - 1 :=
    ENat.toNat_le_of_le_natCast (coheight_le hheight x)
  exact Nat.lt_of_le_of_lt hle (Nat.sub_one_lt_of_lt hpos)

theorem headroom_lt_of_lt {x y : α} (h : x < y) :
    headroom height (some y) < headroom height (some x) := by
  have hfinite : Order.coheight x ≠ ⊤ :=
    ne_top_of_le_ne_top (ENat.natCast_ne_top _) (coheight_le hheight x)
  have hle := ENat.toNat_le_toNat (Order.coheight_add_one_le h) hfinite
  have hfinite' : Order.coheight y ≠ ⊤ :=
    ne_top_of_le_ne_top (ENat.natCast_ne_top _) (coheight_le hheight y)
  rw [ENat.toNat_add hfinite' ENat.one_ne_top, ENat.toNat_one] at hle
  exact hle

end Headroom

/-! ## Facts that rise on every graph -/

/-- What a block makes of the facts that meet there. -/
def found (a : Dataflow σ α) (g : Graph) (state : σ) (after : Table BlockId α) (block : Block)
    (b : BlockId) : α :=
  (a.transfer state block (a.join state (meeting g (a.initial state) after.get? block b))).1

/-- The facts recorded so far are those of existing blocks, and at most what the blocks make of the
facts that meet there now. -/
structure Climbs (a : Dataflow σ α) (g : Graph) (state : σ) (s : Progress σ α) : Prop where
  join_eq : a.join s.state = a.join state
  initial_eq : a.initial s.state = a.initial state
  le_found : ∀ {b fact}, s.after.get? b = some fact → ∃ block, g.block? b = some block ∧
    meeting g (a.initial state) s.after.get? block b ≠ [] ∧ fact ≤ a.found g state s.after block b

variable {a : Dataflow σ α} {g : Graph} {state : σ} {s s' : Progress σ α} {b c : BlockId}
  {block : Block}

theorem climbs_start (a : Dataflow σ α) (g : Graph) (state : σ) :
    a.Climbs g state (start state g) where
  join_eq := rfl
  initial_eq := rfl
  le_found h := by cases h

theorem Climbs.revisit_eq (hs : a.Climbs g state s) (ha : a.MonotoneFramework g state)
    (hblock : g.block? b = some block) :
    (a.revisit g s block b).1 = a.found g state s.after block b := by
  rw [revisit, found, hs.join_eq, hs.initial_eq]
  exact ha.transfer_eq hblock _ _ _

theorem MonotoneFramework.found_le (ha : a.MonotoneFramework g state)
    {after after' : Table BlockId α}
    (hrise : ∀ {p x}, after.get? p = some x → ∃ y, after'.get? p = some y ∧ x ≤ y)
    (hblock : g.block? b = some block)
    (hmeet : meeting g (a.initial state) after.get? block b ≠ []) :
    meeting g (a.initial state) after'.get? block b ≠ [] ∧
      a.found g state after block b ≤ a.found g state after' block b := by
  have hbelow := exists_meeting_le (g := g) le_refl (a.initial state) hrise block b
  obtain ⟨x, hx⟩ := List.exists_mem_of_ne_nil _ hmeet
  obtain ⟨y, hy, -⟩ := hbelow x hx
  have hmeet' : meeting g (a.initial state) after'.get? block b ≠ [] := List.ne_nil_of_mem hy
  refine ⟨hmeet', ha.monotone hblock ((ha.isLUB_join hmeet).2 fun x hx => ?_)⟩
  obtain ⟨y, hy, hxy⟩ := hbelow x hx
  exact hxy.trans ((ha.isLUB_join hmeet').1 hy)

variable [BEq α]

theorem Climbs.exists_fact_le (hs : a.Climbs g state s) (ha : a.MonotoneFramework g state)
    {queue : List BlockId} (hvisit : Visited a g c { s with queue := queue } s') {p : BlockId}
    {x : α} (hx : s.after.get? p = some x) : ∃ y, s'.after.get? p = some y ∧ x ≤ y := by
  refine hvisit.exists_fact_le le_refl (fun {block fact} hblock hfact => ?_) hx
  obtain ⟨block', hblock', -, hle⟩ := hs.le_found hfact
  cases hblock.symm.trans hblock'
  exact hle.trans (le_of_eq (hs.revisit_eq ha hblock).symm)

theorem Climbs.visited [LawfulBEq α] (hs : a.Climbs g state s) (ha : a.MonotoneFramework g state)
    {queue : List BlockId} (hvisit : Visited a g c { s with queue := queue } s') :
    a.Climbs g state s' := by
  have hrise : ∀ {p x}, s.after.get? p = some x → ∃ y, s'.after.get? p = some y ∧ x ≤ y :=
    fun hx => hs.exists_fact_le ha hvisit hx
  rcases hvisit.idle_or_revisit with ⟨hstate, hafter⟩ | ⟨block, new, hblock, hmeet, hstate, hnew,
    hfound, hothers⟩
  · exact ⟨hstate ▸ hs.join_eq, hstate ▸ hs.initial_eq, hafter ▸ hs.le_found⟩
  · have hnewfound : new = a.found g state s.after block c := by
      rw [← hs.revisit_eq ha hblock]
      rcases hfound with heq | ⟨-, heq⟩
      · exact heq
      · exact eq_of_beq heq
    refine ⟨?_, ?_, fun {b fact} hfact => ?_⟩
    · rw [hstate]
      exact (ha.join_eq _ _ _).trans hs.join_eq
    · rw [hstate]
      exact (ha.initial_eq _ _ _).trans hs.initial_eq
    · by_cases hbc : b = c
      · subst hbc
        cases hnew.symm.trans hfact
        have hmeet' : meeting g (a.initial state) s.after.get? block b ≠ [] := hs.initial_eq ▸ hmeet
        obtain ⟨hagain, hle⟩ := ha.found_le hrise hblock hmeet'
        exact ⟨block, hblock, hagain, hnewfound ▸ hle⟩
      · rw [hothers b hbc] at hfact
        obtain ⟨own, hown, hbmeet, hle⟩ := hs.le_found hfact
        obtain ⟨hagain, hle'⟩ := ha.found_le hrise hown hbmeet
        exact ⟨own, hown, hagain, hle.trans hle'⟩

variable [LawfulBEq α]

theorem MonotoneFramework.climbs_run (ha : a.MonotoneFramework g state) (bound : Nat) :
    a.Climbs g state (a.run g bound (start state g)) :=
  run_invariant (fun _ hs hvisit => hs.visited ha hvisit) bound (climbs_start a g state)

theorem MonotoneFramework.risesFrom_zero (ha : a.MonotoneFramework g state) :
    a.RisesFrom g (· ≤ ·) state 0 := by
  intro k _ b fact fact' hfact hfact'
  have hs := ha.climbs_run k
  simp only [solve, run_succ] at hfact hfact'
  generalize a.run g k (start state g) = s at hs hfact hfact'
  cases hq : s.queue with
  | nil =>
      rw [step, hq] at hfact'
      exact le_of_eq (Option.some.inj (hfact.symm.trans hfact'))
  | cons c rest =>
      obtain ⟨y, hy, hle⟩ := hs.exists_fact_le ha (visited_step a g hq) hfact
      cases hy.symm.trans hfact'
      exact hle

/-- Where ascending chains of facts have at most `height` elements, one visit for every number in
the order and `height` visits for every edge are enough, and no more are ever made. -/
theorem converged_of_height (ha : a.MonotoneFramework g state) {height : Nat}
    (hheight : ∀ chain : List α, chain.Pairwise (· < ·) → chain.length ≤ height) :
    (∀ bound, g.order.length + height * edgeCount g ≤ bound →
      (a.solve g bound state).converged = true) ∧
    ∀ bound, (a.solve g bound state).visits ≤ g.order.length + height * edgeCount g := by
  have hkeeps : a.Keeps g fun _ => True :=
    ⟨fun _ => trivial, fun _ _ => trivial, fun _ _ _ => trivial⟩
  have hrise : ∀ {x y : α}, True → True → x ≤ y → (x == y) = false →
      headroom height (some y) < headroom height (some x) := by
    intro x y _ _ hle hne
    exact headroom_lt_of_lt hheight (lt_of_le_of_ne hle (by simpa using hne))
  have hconverged : ∀ bound, g.order.length + height * edgeCount g ≤ bound →
      (a.solve g bound state).converged = true := by
    intro bound hbound
    refine ha.risesFrom_zero.converged hkeeps (fun x _ => headroom_some_lt_none hheight x) hrise ?_
    rw [run_zero]
    simpa [start, reserve_empty, headroom, Nat.mul_comm] using hbound
  refine ⟨hconverged, fun bound => ?_⟩
  have hnil := converged_iff.1 (hconverged _ (Nat.le_refl _))
  exact (visits_run_le_of_queue_nil hnil bound).trans (Nat.zero_add _).le

/-- A problem that counts nodes up to three, on a graph with a loop and with an edge that only its
target lists: the fact after the block 1 stays behind those after its predecessors. -/
theorem converged_of_height_counter :
    let a : Dataflow Nat (Fin 4) :=
      ⟨fun _ => 0, fun _ facts => facts.foldr max 0,
        fun n block input => (⟨min (input.val + block.nodes.length) 3, by omega⟩, n + 1)⟩
    let g := (((Graph.start.addEdge 2 1).addBlock.addNode 2 .lambda).addEdge 0 2).addEdge 2 2
    let g := g.addEdge 0 1
    a.MonotoneFramework g 0 ∧ ¬ g.Mirrored ∧ g.order.length + 4 * edgeCount g = 15 ∧
      (a.solve g 15 0).converged = true ∧ (a.solve g 15 0).after.get? 2 = some 3 ∧
      (a.solve g 4 0).converged = false := by
  intro a g g
  have hjoin : ∀ facts : List (Fin 4), IsLUB {fact | fact ∈ facts} (facts.foldr max 0) := by
    intro facts
    have hsup : facts.foldr max 0 = facts.toFinset.sup id := facts.foldr_sup_eq_sup_toFinset
    rw [← List.coe_toFinset, hsup]
    exact Finset.isLUB_sup_id
  have ha : a.MonotoneFramework g 0 := by
    refine ⟨⟨⟨fun _ _ _ => rfl, fun _ _ _ => rfl⟩, fun _ _ _ _ => rfl⟩, fun _ => hjoin _, ?_⟩
    intro b block _ x y hxy
    exact min_le_min (Nat.add_le_add_right hxy _) (Nat.le_refl 3)
  have hheight : ∀ chain : List (Fin 4), chain.Pairwise (· < ·) → chain.length ≤ 4 := by
    intro chain hchain
    have hnodup : chain.Nodup := hchain.imp fun h => ne_of_lt h
    exact hnodup.length_le_card
  have hbound : g.order.length + 4 * edgeCount g = 15 := by decide
  exact ⟨ha, by decide, hbound, (converged_of_height ha hheight).1 15 (Nat.le_of_eq hbound),
    by decide, by decide⟩

end Dataflow

end Disclosure
