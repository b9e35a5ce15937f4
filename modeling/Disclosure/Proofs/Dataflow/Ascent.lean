import Disclosure.Proofs.Dataflow.Budget

/-!
# Facts that only rise

What a block makes of a fact may depend on the state of the problem, which other blocks change.  So
facts need not rise from visit to visit, even if every block is monotone: where the first visit of a
block lowers a part of the state, a block that reads this part and was visited before finds less
than it did.

This does not happen if a block reads only what belongs to blocks before it in the order.  The first
pass has gone through these when it comes to the block, and from then on they only rise.  The
invariant is about visits that are still to be made: to visit a block again would raise what is
known there.
-/

namespace Disclosure

namespace Dataflow

variable {σ α : Type}

/-- What another visit of a block would find: the fact after it and the state. -/
def revisit (a : Dataflow σ α) (g : Graph) (s : Progress σ α) (block : Block) (b : BlockId) :
    α × σ :=
  a.transfer s.state block (a.join s.state (meeting g (a.initial s.state) s.after.get? block b))

theorem exists_meeting_le {g : Graph} {le : α → α → Prop} (hrefl : ∀ x, le x x) (initial : α)
    {after after' : Table BlockId α}
    (h : ∀ {p x}, after.get? p = some x → ∃ y, after'.get? p = some y ∧ le x y) (block : Block)
    (b : BlockId) :
    ∀ x ∈ meeting g initial after.get? block b,
      ∃ y ∈ meeting g initial after'.get? block b, le x y := by
  intro x hx
  rcases List.mem_append.1 hx with hpred | hentry
  · obtain ⟨p, hp, hfact⟩ := List.mem_filterMap.1 hpred
    obtain ⟨y, hy, hle⟩ := h hfact
    exact ⟨y, List.mem_append_left _ (List.mem_filterMap.2 ⟨p, hp, hy⟩), hle⟩
  · exact ⟨x, List.mem_append_right _ hentry, hrefl x⟩

variable [BEq α] {a : Dataflow σ α} {g : Graph} {state : σ} {s s' : Progress σ α}
  {b c : BlockId} {done rest : List BlockId} {le : α → α → Prop} {leAt : BlockId → σ → σ → Prop}

/-- A visit is idle, or it finds what was to be found, and keeps the old fact only if it is
equal. -/
theorem Visited.idle_or_revisit (h : Visited a g b s s') :
    (s'.state = s.state ∧ s'.after = s.after) ∨ ∃ block fact, g.block? b = some block ∧
      meeting g (a.initial s.state) s.after.get? block b ≠ [] ∧
      s'.state = (a.revisit g s block b).2 ∧ s'.after.get? b = some fact ∧
      (fact = (a.revisit g s block b).1 ∨
        s.after.get? b = some fact ∧ (fact == (a.revisit g s block b).1) = true) ∧
      ∀ c, c ≠ b → s'.after.get? c = s.after.get? c := by
  cases h with
  | idle => exact Or.inl ⟨rfl, rfl⟩
  | @kept block input output old st hblock hmeet hinput htransfer hold heq =>
      have hrevisit : a.revisit g s block b = (output, st) := by rw [revisit, ← hinput, htransfer]
      refine Or.inr ⟨block, old, hblock, hmeet, ?_⟩
      rw [hrevisit]
      exact ⟨rfl, hold, Or.inr ⟨hold, heq⟩, fun _ _ => rfl⟩
  | @changed block input output st hblock hmeet hinput htransfer hne =>
      have hrevisit : a.revisit g s block b = (output, st) := by rw [revisit, ← hinput, htransfer]
      refine Or.inr ⟨block, output, hblock, hmeet, ?_⟩
      rw [hrevisit]
      exact ⟨rfl, Table.get?_insert_self _ _ _, Or.inl rfl,
        fun c hc => Table.get?_insert_of_ne _ _ (Ne.symm hc)⟩

/-- If to visit the block again would raise the fact after it, a visit lowers no fact. -/
theorem Visited.exists_fact_le (h : Visited a g b s s') (hrefl : ∀ x, le x x)
    (hrise : ∀ {block fact}, g.block? b = some block → s.after.get? b = some fact →
      le fact (a.revisit g s block b).1) {p : BlockId} {x : α} (hx : s.after.get? p = some x) :
    ∃ y, s'.after.get? p = some y ∧ le x y := by
  rcases h.idle_or_revisit with ⟨-, hafter⟩ | ⟨block, new, hblock, -, -, hnew, hfound, hothers⟩
  · exact ⟨x, hafter ▸ hx, hrefl x⟩
  · by_cases hp : p = b
    · subst hp
      refine ⟨new, hnew, ?_⟩
      rcases hfound with rfl | ⟨hold, -⟩
      · exact hrise hblock hx
      · rw [hx] at hold
        cases hold
        exact hrefl _
    · exact ⟨x, (hothers p hp).trans hx, hrefl x⟩

omit [BEq α] in
theorem FirstPass.mem_done_of_place_lt (h : FirstPass g s done rest) (hb : b ∈ done)
    (hlt : g.place c < g.place b) : c ∈ done := by
  by_contra hc
  rw [Graph.place, Graph.place, h.order_eq, List.idxOf_append_of_notMem hc,
    List.idxOf_append_of_mem hb] at hlt
  have := List.idxOf_lt_length_iff.2 hb
  omega

theorem contains_after_of_place_lt (ha : a.Steady) (hg : g.Mirrored) {bound : Nat}
    (hb : (a.solve g bound state).after.contains b = true) (hlt : g.place c < g.place b)
    {block : Block} (hblock : g.block? c = some block) :
    (a.solve g bound state).after.contains c = true := by
  obtain ⟨-, done, rest, h⟩ := exists_firstPass_run ha hg state bound
  exact h.contains_of_done (h.mem_done_of_place_lt (h.done_of_contains hb) hlt) hblock

/-- Joins and blocks are monotone, where `leAt b` compares what belongs to the block `b` in two
states.  A block reads only what belongs to blocks before it, and changes only what belongs to
it. -/
structure Isotone (a : Dataflow σ α) (g : Graph) (le : α → α → Prop)
    (leAt : BlockId → σ → σ → Prop) : Prop extends a.Steady where
  refl : ∀ x, le x x
  trans : ∀ {x y z}, le x y → le y z → le x z
  of_beq : ∀ {x y}, (x == y) = true → le x y
  trans_at : ∀ {b st st' st''}, leAt b st st' → leAt b st' st'' → leAt b st st''
  join_le : ∀ {st xs ys}, xs ≠ [] → (∀ x ∈ xs, ∃ y ∈ ys, le x y) →
    le (a.join st xs) (a.join st ys)
  transfer_le : ∀ {b block st st' x y}, g.block? b = some block → g.Reachable b →
    (∀ c, g.place c < g.place b → leAt c st st') → le x y →
    le (a.transfer st block x).1 (a.transfer st' block y).1 ∧
      leAt b (a.transfer st block x).2 (a.transfer st' block y).2
  transfer_eq_at : ∀ {b c block} st x, g.block? b = some block → c ≠ b →
    leAt c st (a.transfer st block x).2 ∧ leAt c (a.transfer st block x).2 st

/-- To visit a block again would raise the fact after it and what belongs to it. -/
def Rising (a : Dataflow σ α) (g : Graph) (le : α → α → Prop) (leAt : BlockId → σ → σ → Prop)
    (s : Progress σ α) : Prop :=
  ∀ b block fact, g.block? b = some block → s.after.get? b = some fact →
    meeting g (a.initial s.state) s.after.get? block b ≠ [] ∧ le fact (a.revisit g s block b).1 ∧
      leAt b s.state (a.revisit g s block b).2

theorem Isotone.rising_visited (h : a.Isotone g le leAt) (hs : a.Balanced g state s)
    (hg : g.Mirrored) (hpass : FirstPass g s done rest) (hrising : a.Rising g le leAt s)
    {queue : List BlockId} (hvisit : Visited a g c { s with queue := queue } s') :
    a.Rising g le leAt s' := by
  rcases hvisit.idle_or_revisit with ⟨hstate, hafter⟩ | ⟨cblock, new, hcblock, hcmeet, hstate, hnew,
    hfound, hothers⟩
  · intro b block fact hblock hfact
    rw [revisit, hstate, hafter] at *
    exact hrising b block fact hblock hfact
  have hsame : a.revisit g { s with queue := queue } cblock c = a.revisit g s cblock c := rfl
  rw [hsame] at hstate hfound
  -- the facts only rise in this visit, so what meets at a block rises as well
  have hfacts : ∀ {p x}, s.after.get? p = some x → ∃ y, s'.after.get? p = some y ∧ le x y :=
    fun hx => hvisit.exists_fact_le h.refl
      (fun hblock hfact => (hrising c _ _ hblock hfact).2.1) hx
  have hinitial : a.initial s'.state = a.initial s.state := by rw [hstate, revisit, h.initial_eq]
  have hjoin : a.join s'.state = a.join s.state := by rw [hstate, revisit, h.join_eq]
  have hmeeting : ∀ {b block}, meeting g (a.initial s.state) s.after.get? block b ≠ [] →
      meeting g (a.initial s'.state) s'.after.get? block b ≠ [] ∧
      le (a.join s.state (meeting g (a.initial s.state) s.after.get? block b))
        (a.join s'.state (meeting g (a.initial s'.state) s'.after.get? block b)) := by
    intro b block hmeet
    rw [hinitial, hjoin]
    have hle := exists_meeting_le (g := g) h.refl (a.initial s.state) hfacts block b
    obtain ⟨x, hx⟩ := List.exists_mem_of_ne_nil _ hmeet
    obtain ⟨y, hy, -⟩ := hle x hx
    exact ⟨List.ne_nil_of_mem hy, h.join_le hmeet hle⟩
  intro b block fact hblock hfact
  by_cases hbc : b = c
  · subst hbc
    rw [hblock] at hcblock
    cases hcblock
    obtain ⟨hmeet, hle⟩ := hmeeting hcmeet
    have hreach := hs.reachable_of_meeting hg hblock hcmeet
    have hbefore : ∀ d, g.place d < g.place b → leAt d s.state s'.state := by
      intro d hd
      rw [hstate]
      exact (h.transfer_eq_at _ _ hblock (by rintro rfl; exact Nat.lt_irrefl _ hd)).1
    have hagain := h.transfer_le hblock hreach hbefore hle
    rw [hnew] at hfact
    cases hfact
    refine ⟨hmeet, ?_, ?_⟩
    · rcases hfound with rfl | ⟨-, heq⟩
      · exact hagain.1
      · exact h.trans (h.of_beq heq) hagain.1
    · have hagain' := hagain.2
      rw [← revisit, ← hstate] at hagain'
      exact hagain'
  · rw [hothers b hbc] at hfact
    obtain ⟨hbmeet, hfactle, hbstate⟩ := hrising b block fact hblock hfact
    obtain ⟨hmeet, hle⟩ := hmeeting hbmeet
    have hcontains : s.after.contains b = true := Table.contains_iff_exists.2 ⟨fact, hfact⟩
    have hframe := h.transfer_eq_at s.state
      (a.join s.state (meeting g (a.initial s.state) s.after.get? cblock c)) hcblock hbc
    -- a block before `b` that is visited now was visited before, as `b` was
    have hbefore : ∀ d, g.place d < g.place b → leAt d s.state s'.state := by
      intro d hd
      rw [hstate]
      by_cases hdc : d = c
      · subst hdc
        have hdone := hpass.mem_done_of_place_lt (hpass.done_of_contains hcontains) hd
        obtain ⟨old, hold⟩ := Table.contains_iff_exists.1 (hpass.contains_of_done hdone hcblock)
        exact (hrising d cblock old hcblock hold).2.2
      · exact (h.transfer_eq_at _ _ hcblock hdc).1
    have hagain := h.transfer_le hblock (hs.reached hcontains).2 hbefore hle
    refine ⟨hmeet, h.trans hfactle hagain.1, ?_⟩
    have hown : leAt b s'.state s.state := by
      rw [hstate]
      exact hframe.2
    exact h.trans_at (h.trans_at hown hbstate) hagain.2

/-- Joins and blocks lead from facts of a kind to facts of that kind. -/
structure Keeps (a : Dataflow σ α) (g : Graph) (kind : α → Prop) : Prop where
  initial : ∀ st, kind (a.initial st)
  join : ∀ {xs}, (∀ x ∈ xs, kind x) → ∀ st, kind (a.join st xs)
  transfer : ∀ {b block x}, g.block? b = some block → kind x → ∀ st, kind (a.transfer st block x).1

variable {kind : α → Prop}

omit [BEq α] in
theorem Keeps.revisit (h : a.Keeps g kind) (hs : ∀ c fact, s.after.get? c = some fact → kind fact)
    {block : Block} (hblock : g.block? b = some block) : kind (a.revisit g s block b).1 := by
  refine h.transfer hblock (h.join (fun x hx => ?_) _) _
  rcases List.mem_append.1 hx with hpred | hentry
  · obtain ⟨p, -, hfact⟩ := List.mem_filterMap.1 hpred
    exact hs p x hfact
  · split at hentry
    · rw [List.mem_singleton.1 hentry]
      exact h.initial _
    · exact absurd hentry List.not_mem_nil

theorem Keeps.visited (h : a.Keeps g kind) (hs : ∀ c fact, s.after.get? c = some fact → kind fact)
    {queue : List BlockId} (hvisit : Visited a g b { s with queue := queue } s') :
    ∀ c fact, s'.after.get? c = some fact → kind fact := by
  rcases hvisit.idle_or_revisit with ⟨-, hafter⟩ | ⟨block, new, hblock, -, -, hnew, hfound, hothers⟩
  · rw [hafter]
    exact hs
  · intro c fact hfact
    by_cases hcb : c = b
    · subst hcb
      rw [hnew] at hfact
      cases hfact
      rcases hfound with rfl | ⟨hold, -⟩
      · exact h.revisit hs hblock
      · exact hs c _ hold
    · exact hs c fact ((hothers c hcb).symm.trans hfact)

theorem Isotone.settles (h : a.Isotone g le leAt) (hg : g.Mirrored) (hkeeps : a.Keeps g kind)
    {spare : Option α → Nat} (hfirst : ∀ x, kind x → spare (some x) < spare none)
    (hrise : ∀ {x y}, kind x → kind y → le x y → (x == y) = false →
      spare (some y) < spare (some x)) (state : σ) :
    a.Settles g spare fun s => a.Balanced g state s ∧ (∃ done rest, FirstPass g s done rest) ∧
      a.Rising g le leAt s ∧ ∀ b fact, s.after.get? b = some fact → kind fact := by
  constructor
  · rintro s s' b rest hq ⟨hs, ⟨done, behind, hpass⟩, hrising, hkind⟩ hvisit
    exact ⟨hs.visited h.toSteady hg hq hvisit, hpass.visited hg hs hq hvisit,
      h.rising_visited hs hg hpass hrising hvisit, hkeeps.visited hkind hvisit⟩
  · rintro s b rest block input output st hq ⟨hs, -, hrising, hkind⟩ hblock hmeet rfl htransfer hne
    have hrevisit : a.revisit g s block b = (output, st) := htransfer
    have houtput := hkeeps.revisit (b := b) hkind hblock
    rw [hrevisit] at houtput
    cases hold : s.after.get? b with
    | none => exact hfirst output houtput
    | some old =>
        have hle := (hrising b block old hblock hold).2.1
        rw [hrevisit] at hle
        exact hrise (hkind b old hold) houtput hle (hne hold)

/-- One visit for every block of the order and, for every edge, one for every time that the fact
where it starts can rise are enough. -/
theorem Isotone.converged (h : a.Isotone g le leAt) (hg : g.Mirrored) (hkeeps : a.Keeps g kind)
    (spare : Option α → Nat) (hfirst : ∀ x, kind x → spare (some x) < spare none)
    (hrise : ∀ {x y}, kind x → kind y → le x y → (x == y) = false →
      spare (some y) < spare (some x))
    {bound : Nat} (hbound : g.order.length + edgeCount g * spare none ≤ bound) (state : σ) :
    (a.solve g bound state).converged = true := by
  refine (h.settles hg hkeeps hfirst hrise state).converged h.toSteady hg ?_ hbound
  have hnone : ∀ (b : BlockId) (fact : α), (start state g).after.get? b ≠ some fact :=
    fun _ _ hfact => by cases hfact
  exact ⟨balanced_start a g state, ⟨_, _, firstPass_start state g⟩,
    fun b _ fact _ hfact => absurd hfact (hnone b fact),
    fun b fact hfact => absurd hfact (hnone b fact)⟩

end Dataflow

end Disclosure
