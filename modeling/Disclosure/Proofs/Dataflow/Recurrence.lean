import Disclosure.Proofs.Dataflow.Ascent
import Mathlib.Logic.Function.Iterate

/-!
# Whether the solver stops at all

A bound only cuts off a run that is otherwise a sequence of visits, so a solver that does not stop
is one whose queue is never empty.  That facts have a finite height does not prevent this: a fact
may fall as well as rise, because what a block makes of a fact also depends on the state.  The
solver stops exactly if the facts only rise from some visit on (`converges_iff_risesFrom`).  If it
comes back to where it was before and a block is queued there, it goes round for ever
(`converged_eq_false_of_recurs`).
-/

namespace Disclosure

namespace Dataflow

variable {σ α : Type} [BEq α] {a : Dataflow σ α} {g : Graph} {state : σ}

theorem run_eq_iterate (a : Dataflow σ α) (g : Graph) (bound : Nat) (s : Progress σ α) :
    a.run g bound s = (a.step g)^[bound] s := by
  induction bound generalizing s with
  | zero => rfl
  | succ bound ih =>
      cases hq : s.queue with
      | nil =>
          have hstep : a.step g s = s := by rw [step, hq]
          rw [run_of_queue_nil a g _ hq, Function.iterate_fixed hstep]
      | cons b rest => rw [run_of_queue_cons a g bound hq, ih, Function.iterate_succ_apply]

theorem run_add (a : Dataflow σ α) (g : Graph) (m n : Nat) (s : Progress σ α) :
    a.run g (m + n) s = a.run g n (a.run g m s) := by
  rw [run_eq_iterate, run_eq_iterate, run_eq_iterate, Nat.add_comm, Function.iterate_add_apply]

theorem run_succ (a : Dataflow σ α) (g : Graph) (n : Nat) (s : Progress σ α) :
    a.run g (n + 1) s = a.step g (a.run g n s) := by
  rw [run_eq_iterate, run_eq_iterate, Function.iterate_succ_apply']

theorem queue_run_eq_nil_of_le {s : Progress σ α} {m n : Nat} (hle : m ≤ n)
    (h : (a.run g m s).queue = []) : (a.run g n s).queue = [] := by
  obtain ⟨k, rfl⟩ := Nat.exists_eq_add_of_le hle
  rw [run_add, run_of_queue_nil a g k h, h]

theorem converged_iff {bound : Nat} :
    (a.solve g bound state).converged = true ↔ (a.run g bound (start state g)).queue = [] :=
  List.isEmpty_iff

/-! ## Facts that rise in the end -/

/-- From the `n`-th visit on, the fact after a block is replaced only by one that it is below. -/
def RisesFrom (a : Dataflow σ α) (g : Graph) (le : α → α → Prop) (state : σ) (n : Nat) : Prop :=
  ∀ k ≥ n, ∀ b fact fact', (a.solve g k state).after.get? b = some fact →
    (a.solve g (k + 1) state).after.get? b = some fact' → le fact fact'

theorem reachable_run (a : Dataflow σ α) (g : Graph) (bound : Nat) (state : σ) :
    (∀ b ∈ (a.run g bound (start state g)).queue, g.Reachable b) ∧
      ∀ b, (a.run g bound (start state g)).after.contains b = true → g.Reachable b := by
  refine run_invariant (P := fun s => (∀ b ∈ s.queue, g.Reachable b) ∧
    ∀ b, s.after.contains b = true → g.Reachable b) ?_ bound
    ⟨fun b hb => Graph.mem_order_iff.1 hb, fun b hb => by cases hb⟩
  rintro s s' c rest hq ⟨hqueue, hafter⟩ hvisit
  have hc : g.Reachable c := hqueue c (by simp [hq])
  have hrest : ∀ b ∈ rest, g.Reachable b := fun b hb => hqueue b (by simp [hq, hb])
  cases hvisit with
  | idle | kept => exact ⟨hrest, hafter⟩
  | changed hblock =>
      constructor
      · intro b hb
        rcases mem_foldl_enqueue.1 hb with hb | hb
        · exact hrest b hb
        · exact hc.step (Graph.mem_succs_iff.2 ⟨_, hblock, hb⟩)
      · intro b hb
        rw [Table.contains_insert, Bool.or_eq_true, decide_eq_true_eq] at hb
        rcases hb with rfl | hb
        · exact hc
        · exact hafter b hb

theorem Keeps.run {kind : α → Prop} (h : a.Keeps g kind) (bound : Nat) (state : σ) :
    ∀ b fact, (a.run g bound (start state g)).after.get? b = some fact → kind fact :=
  run_invariant (a := a) (P := fun s => ∀ b fact, s.after.get? b = some fact → kind fact)
    (fun _ hs hvisit => h.visited hs hvisit) bound fun _ _ hfact => by cases hfact

section Rises

variable {le : α → α → Prop} {kind : α → Prop} {spare : Option α → Nat} (hkeeps : a.Keeps g kind)
  (hfirst : ∀ x, kind x → spare (some x) < spare none)
  (hrise : ∀ {x y}, kind x → kind y → le x y → (x == y) = false → spare (some y) < spare (some x))

include hkeeps hfirst hrise

theorem RisesFrom.queue_nil_or_reserve_le {n : Nat} (h : a.RisesFrom g le state n) (j : Nat) :
    (a.run g (n + j) (start state g)).queue = [] ∨
      (a.run g (n + j) (start state g)).queue.length +
          reserve g spare (a.run g (n + j) (start state g)).after + j ≤
        (a.run g n (start state g)).queue.length +
          reserve g spare (a.run g n (start state g)).after := by
  induction j with
  | zero => exact Or.inr (Nat.le_refl _)
  | succ j ih =>
      rcases ih with hnil | hle
      · exact Or.inl (queue_run_eq_nil_of_le (by omega) hnil)
      · have hrises := h (n + j) (Nat.le_add_right n j)
        have hreach := (reachable_run a g (n + j) state).1
        have hkind := hkeeps.run (n + j) state
        have hkind' := hkeeps.run (n + j + 1) state
        simp only [solve, run_succ] at hrises hkind'
        rw [← Nat.add_assoc, run_succ]
        generalize a.run g (n + j) (start state g) = s at hle hrises hreach hkind hkind'
        cases hq : s.queue with
        | nil => exact Or.inl (by rw [step, hq]; exact hq)
        | cons b rest =>
            have hvisit := visited_step a g hq
            have hlength : s.queue.length = rest.length + 1 := by rw [hq, List.length_cons]
            refine Or.inr (Nat.le_trans ?_ hle)
            generalize a.step g s = s' at hvisit hrises hkind'
            cases hvisit with
            | idle | kept =>
                simp only [hlength]
                omega
            | @changed block input output st hblock hmeet hinput htransfer hne =>
                have houtput : kind output := hkind' b output (Table.get?_insert_self ..)
                have hspare : spare (some output) < spare (s.after.get? b) := by
                  cases hold : s.after.get? b with
                  | none => exact hfirst output houtput
                  | some old =>
                      exact hrise (hkind b old hold) houtput
                        (hrises b old output hold (Table.get?_insert_self ..)) (hne hold)
                have hreserve := reserve_changed (hreach b (by simp [hq])) hblock hspare rest
                simp only [hlength]
                omega

theorem RisesFrom.converged {n bound : Nat} (h : a.RisesFrom g le state n)
    (hbound : n + ((a.run g n (start state g)).queue.length +
      reserve g spare (a.run g n (start state g)).after) ≤ bound) :
    (a.solve g bound state).converged = true := by
  obtain ⟨j, rfl⟩ := Nat.exists_eq_add_of_le (Nat.le_trans (Nat.le_add_right n _) hbound)
  rw [converged_iff]
  rcases h.queue_nil_or_reserve_le hkeeps hfirst hrise j with hnil | hle
  · exact hnil
  · exact List.length_eq_zero_iff.1 (by omega)

/-- The solver stops, with every bound that is large enough, exactly if the facts only rise from
some visit on. -/
theorem converges_iff_risesFrom (hrefl : ∀ x, le x x) :
    (∃ N, ∀ bound ≥ N, (a.solve g bound state).converged = true) ↔
      ∃ n, a.RisesFrom g le state n := by
  constructor
  · rintro ⟨N, hN⟩
    refine ⟨N, fun k hk b fact fact' hfact hfact' => ?_⟩
    have hnil := converged_iff.1 (hN k hk)
    have hsame : (a.solve g (k + 1) state).after = (a.solve g k state).after := by
      simp only [solve, run_add a g k 1, run_of_queue_nil a g 1 hnil]
    rw [hsame, hfact] at hfact'
    cases hfact'
    exact hrefl fact
  · rintro ⟨n, h⟩
    exact ⟨_, fun bound hbound => h.converged hkeeps hfirst hrise hbound⟩

end Rises

/-! ## Runs that come back -/

instance [DecidableEq σ] [DecidableEq α] : DecidableEq (Progress σ α) := fun s t =>
  decidable_of_iff (s.state = t.state ∧ s.before = t.before ∧ s.after = t.after ∧
      s.queue = t.queue ∧ s.visits = t.visits) (by
    cases s
    cases t
    simp)

theorem flowThrough_visits (a : Dataflow σ α) (block : Block) (b : BlockId) (facts : List α)
    (s : Progress σ α) (v : Nat) :
    a.flowThrough block b facts { s with visits := v } =
      { a.flowThrough block b facts s with visits := v } := by
  simp only [flowThrough]
  split <;> rfl

theorem visit_visits (a : Dataflow σ α) (g : Graph) (b : BlockId) (s : Progress σ α) (v : Nat) :
    a.visit g b { s with visits := v } = { a.visit g b s with visits := v + 1 } := by
  simp only [visit]
  cases g.block? b with
  | none => rfl
  | some block =>
      have hincoming : ∀ w, a.incoming g { s with visits := w } block b = a.incoming g s block b :=
        fun _ => rfl
      simp only [hincoming]
      cases a.incoming g s block b with
      | nil => rfl
      | cons fact facts => simp only [flowThrough_visits]

theorem exists_step_visits (a : Dataflow σ α) (g : Graph) (s : Progress σ α) (v : Nat) :
    ∃ w, a.step g { s with visits := v } = { a.step g s with visits := w } := by
  obtain ⟨state, before, after, queue, visits⟩ := s
  cases queue with
  | nil => exact ⟨v, rfl⟩
  | cons b rest => exact ⟨v + 1, visit_visits a g b ⟨state, before, after, rest, visits⟩ v⟩

theorem exists_run_visits (a : Dataflow σ α) (g : Graph) (n : Nat) (s : Progress σ α) (v : Nat) :
    ∃ w, a.run g n { s with visits := v } = { a.run g n s with visits := w } := by
  induction n with
  | zero => exact ⟨v, rfl⟩
  | succ n ih =>
      obtain ⟨w, hw⟩ := ih
      rw [run_succ, run_succ, hw]
      exact exists_step_visits a g _ w

/-- A solver that comes back, with a block queued, to where it was before does not stop. -/
theorem converged_eq_false_of_recurs {m k v : Nat} (hk : 0 < k)
    (hqueue : (a.run g m (start state g)).queue ≠ [])
    (hrecurs : a.run g (m + k) (start state g) =
      { a.run g m (start state g) with visits := v }) (bound : Nat) :
    (a.solve g bound state).converged = false := by
  have hround : ∀ j, ∃ w, a.run g (m + k * j) (start state g) =
      { a.run g m (start state g) with visits := w } := by
    intro j
    induction j with
    | zero => exact ⟨(a.run g m (start state g)).visits, rfl⟩
    | succ j ih =>
        obtain ⟨w, hw⟩ := ih
        obtain ⟨u, hu⟩ := exists_run_visits a g k (a.run g m (start state g)) w
        refine ⟨u, ?_⟩
        rw [Nat.mul_succ, ← Nat.add_assoc, run_add, hw, hu, ← run_add, hrecurs]
  refine Bool.eq_false_iff.2 fun hconverged => hqueue ?_
  obtain ⟨w, hw⟩ := hround bound
  have hle : bound ≤ m + k * bound :=
    Nat.le_trans (Nat.le_mul_of_pos_left bound hk) (Nat.le_add_left _ _)
  have hnil := queue_run_eq_nil_of_le hle (converged_iff.1 hconverged)
  rwa [hw] at hnil

end Dataflow

end Disclosure
