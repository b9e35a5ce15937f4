import Disclosure.Proofs.Dataflow.FirstPass
import Mathlib.Algebra.BigOperators.Ring.List
import Mathlib.Algebra.Ring.Nat

/-!
# How many visits are enough

Every visit takes a block off the queue, and only one that changes a fact puts blocks on it.  If the
fact after a block can change so and so many times, the changes there queue at most that many times
its successors.  So the visits made, the blocks queued and the blocks that changes may still queue
are never more together than at the start, and a bound of that many visits is never reached with a
block left in the queue.
-/

namespace Disclosure

namespace Dataflow

variable {σ α : Type}

/-- The number of blocks that changes of facts may still queue, where `spare` says how often the
fact after a block can still change. -/
def reserve (g : Graph) (spare : Option α → Nat) (after : Table BlockId α) : Nat :=
  (g.order.map fun b => (g.succs b).length * spare (after.get? b)).sum

def edgeCount (g : Graph) : Nat := (g.order.map fun b => (g.succs b).length).sum

theorem reserve_empty (g : Graph) (spare : Option α → Nat) :
    reserve g spare ∅ = edgeCount g * spare none := by
  have hempty : ∀ b, (∅ : Table BlockId α).get? b = none := fun _ => rfl
  simp only [reserve, edgeCount, hempty]
  exact List.sum_map_mul_right ..

theorem reserve_insert {g : Graph} {spare : Option α → Nat} {after : Table BlockId α} {b : BlockId}
    {fact : α} (hb : g.Reachable b) (hspare : spare (some fact) < spare (after.get? b)) :
    reserve g spare (after.insert b fact) + (g.succs b).length ≤ reserve g spare after := by
  obtain ⟨front, back, horder⟩ := List.append_of_mem (Graph.mem_order_iff.2 hb)
  have hnodup := g.nodup_order
  rw [horder] at hnodup
  have hothers : ∀ c ∈ front ++ back, b ≠ c := by
    rintro c hc rfl
    exact (List.nodup_middle.1 hnodup).notMem hc
  have hsame : ∀ bs ⊆ front ++ back,
      (bs.map fun c => (g.succs c).length * spare ((after.insert b fact).get? c)) =
        bs.map fun c => (g.succs c).length * spare (after.get? c) := by
    intro bs hbs
    refine List.map_congr_left fun c hc => ?_
    rw [Table.get?_insert_of_ne _ _ (hothers c (hbs hc))]
  have hself : (g.succs b).length * spare (some fact) + (g.succs b).length ≤
      (g.succs b).length * spare (after.get? b) := by
    rw [← Nat.mul_succ]
    exact Nat.mul_le_mul_left _ hspare
  rw [reserve, reserve, horder, List.map_append, List.map_append, List.map_cons, List.map_cons,
    hsame front (List.subset_append_left _ _), hsame back (List.subset_append_right _ _),
    Table.get?_insert_self, List.sum_append, List.sum_append, List.sum_cons, List.sum_cons]
  omega

/-- Where a fact is replaced by one with less to spare, no more is queued and to be queued than
before. -/
theorem reserve_changed {g : Graph} {spare : Option α → Nat} {after : Table BlockId α} {b : BlockId}
    {block : Block} {fact : α} (hb : g.Reachable b) (hblock : g.block? b = some block)
    (hspare : spare (some fact) < spare (after.get? b)) (rest : List BlockId) :
    (block.succs.foldl enqueue rest).length + reserve g spare (after.insert b fact) ≤
      rest.length + reserve g spare after := by
  have hreserve := reserve_insert hb hspare
  have hsuccs : g.succs b = block.succs := by rw [Graph.succs, hblock]
  have hqueue : (block.succs.foldl enqueue rest).length ≤ rest.length + block.succs.length :=
    Block.length_foldl_adjoin_le block.succs rest
  rw [hsuccs] at hreserve
  omega

variable [BEq α] {a : Dataflow σ α} {g : Graph} {state : σ}

/-- While `P` holds, which visits keep, every change of a fact leaves less to spare. -/
structure Settles (a : Dataflow σ α) (g : Graph) (spare : Option α → Nat)
    (P : Progress σ α → Prop) : Prop where
  keep : ∀ {s s' : Progress σ α} {b rest}, s.queue = b :: rest → P s →
    Visited a g b { s with queue := rest } s' → P s'
  falls : ∀ {s : Progress σ α} {b rest block input output st}, s.queue = b :: rest → P s →
    g.block? b = some block →
    meeting g (a.initial s.state) s.after.get? block b ≠ [] →
    input = a.join s.state (meeting g (a.initial s.state) s.after.get? block b) →
    a.transfer s.state block input = (output, st) →
    (∀ {old}, s.after.get? b = some old → (old == output) = false) →
    spare (some output) < spare (s.after.get? b)

variable {spare : Option α → Nat} {P : Progress σ α → Prop}

theorem Settles.visited_le (h : a.Settles g spare P) (hg : g.Mirrored) {s s' : Progress σ α}
    {b : BlockId} {rest : List BlockId} (hs : a.Balanced g state s) (hq : s.queue = b :: rest)
    (hP : P s) (hvisit : Visited a g b { s with queue := rest } s') :
    s'.visits + s'.queue.length + reserve g spare s'.after ≤
      s.visits + s.queue.length + reserve g spare s.after := by
  have hlength : s.queue.length = rest.length + 1 := by rw [hq, List.length_cons]
  cases hvisit with
  | idle | kept =>
      simp only [hlength]
      omega
  | @changed block input output st hblock hmeet hinput htransfer hne =>
      have hreach := hs.reachable_of_meeting hg hblock hmeet
      have hreserve := reserve_changed hreach hblock
        (h.falls hq hP hblock hmeet hinput htransfer hne) rest
      simp only [hlength]
      omega

theorem Settles.run_le (h : a.Settles g spare P) (ha : a.Steady) (hg : g.Mirrored)
    (hP : P (start state g)) (bound : Nat) :
    (a.run g bound (start state g)).visits + (a.run g bound (start state g)).queue.length ≤
      g.order.length + edgeCount g * spare none := by
  have hrun := run_invariant (a := a) (g := g)
    (P := fun s => (a.Balanced g state s ∧ P s) ∧
      s.visits + s.queue.length + reserve g spare s.after ≤
        g.order.length + edgeCount g * spare none)
    (fun hq ⟨⟨hs, hPs⟩, hle⟩ hvisit => ⟨⟨hs.visited ha hg hq hvisit, h.keep hq hPs hvisit⟩,
      Nat.le_trans (h.visited_le hg hs hq hPs hvisit) hle⟩)
    bound (s := start state g) ⟨⟨balanced_start a g state, hP⟩, by simp [start, reserve_empty]⟩
  exact Nat.le_trans (Nat.le_add_right _ _) hrun.2

/-- One visit for every block of the order and, for every edge, one for every change of the fact
where it starts are enough. -/
theorem Settles.converged (h : a.Settles g spare P) (ha : a.Steady) (hg : g.Mirrored)
    (hP : P (start state g)) {bound : Nat}
    (hbound : g.order.length + edgeCount g * spare none ≤ bound) :
    (a.solve g bound state).converged = true := by
  have hle := h.run_le ha hg hP bound
  have hnil : (a.run g bound (start state g)).queue = [] := by
    rcases visits_run a g bound (start state g) with hnil | hvisits
    · exact hnil
    · have hzero : (start state g : Progress σ α).visits = 0 := rfl
      exact List.length_eq_zero_iff.1 (by omega)
  exact List.isEmpty_iff.2 hnil

end Dataflow

end Disclosure
