import Disclosure.Proofs.Dataflow.Recurrence

/-!
# A bound only cuts a run off

Without a bound the solver is a loop that takes the first block from the queue and visits it, for
as long as there is one.  `Turns` counts the visits that this loop has made, and does not know of a
bound.  The solver with a bound is where the loop is after as many visits, or where the loop
stopped if that came first; and it says which of the two it was, also if the queue was emptied by
the very last visit that it might make.

Nothing is asked of the problem: its blocks may change its state, and facts need not rise.
-/

namespace Disclosure

namespace Dataflow

variable {σ α : Type} [BEq α] {a : Dataflow σ α} {g : Graph} {s r t : Progress σ α} {n : Nat}

/-- The loop without a bound goes from `s` to another progress in `n` visits. -/
inductive Turns (a : Dataflow σ α) (g : Graph) (s : Progress σ α) : Nat → Progress σ α → Prop where
  | zero : Turns a g s 0 s
  | succ {n : Nat} {r : Progress σ α} {b : BlockId} {rest : List BlockId} (h : Turns a g s n r)
      (hqueue : r.queue = b :: rest) : Turns a g s (n + 1) (a.visit g b { r with queue := rest })

namespace Turns

/-- As far as the loop goes, a bound on the number of visits does not matter. -/
theorem run_eq (h : Turns a g s n r) : a.run g n s = r := by
  induction h with
  | zero => rfl
  | succ _ hqueue ih => rw [run_succ, ih, step, hqueue]

theorem visits_eq (h : Turns a g s n r) : r.visits = s.visits + n := by
  induction h with
  | zero => rfl
  | succ _ _ ih => rw [(visited_visit a g _ _).visits_eq, ih, Nat.add_assoc]

end Turns

theorem exists_turns (a : Dataflow σ α) (g : Graph) (s : Progress σ α) (n : Nat) :
    (∃ r, Turns a g s n r) ∨ ∃ m < n, ∃ r, Turns a g s m r ∧ r.queue = [] := by
  induction n with
  | zero => exact Or.inl ⟨s, .zero⟩
  | succ n ih =>
      rcases ih with ⟨r, hr⟩ | ⟨m, hm, hstop⟩
      · cases hqueue : r.queue with
        | nil => exact Or.inr ⟨n, Nat.lt_succ_self n, r, hr, hqueue⟩
        | cons b rest => exact Or.inl ⟨_, hr.succ hqueue⟩
      · exact Or.inr ⟨m, Nat.lt_succ_of_lt hm, hstop⟩

theorem turns_run (h : (a.run g n s).visits = s.visits + n) : Turns a g s n (a.run g n s) := by
  rcases exists_turns a g s n with ⟨r, hr⟩ | ⟨m, hm, r, hr, hstop⟩
  · exact hr.run_eq ▸ hr
  · obtain ⟨k, rfl⟩ := Nat.exists_eq_add_of_le (Nat.le_of_lt hm)
    rw [run_add, hr.run_eq, run_of_queue_nil a g k hstop, hr.visits_eq] at h
    omega

theorem run_eq_of_queue_nil {m n : Nat} (hm : (a.run g m s).queue = [])
    (hn : (a.run g n s).queue = []) : a.run g m s = a.run g n s := by
  rcases Nat.le_total m n with hle | hle
  · obtain ⟨k, rfl⟩ := Nat.exists_eq_add_of_le hle
    rw [run_add, run_of_queue_nil a g k hm]
  · obtain ⟨k, rfl⟩ := Nat.exists_eq_add_of_le hle
    rw [run_add, run_of_queue_nil a g k hn]

/-- If the loop stops within the bound, the solver finds what the loop finds, in as many visits;
otherwise it finds what the loop has found when it has made as many visits as the bound allows. -/
theorem solve_eq_turns (a : Dataflow σ α) (g : Graph) (bound : Nat) (state : σ) :
    (∀ n r, Turns a g (start state g) n r → r.queue = [] → n ≤ bound →
      a.solve g bound state = ⟨r.state, r.before, r.after, n, true⟩) ∧
    ((∀ n r, Turns a g (start state g) n r → r.queue = [] → bound < n) →
      ∃ r, Turns a g (start state g) bound r ∧
        a.solve g bound state = ⟨r.state, r.before, r.after, bound, false⟩) ∧
    ∀ bound', (a.solve g bound state).converged = true →
      (a.solve g bound' state).converged = true →
      a.solve g bound state = a.solve g bound' state := by
  refine ⟨fun n r hr hstop hle => ?_, fun hlate => ?_, fun bound' h h' => ?_⟩
  · have hvisits : r.visits = n := hr.visits_eq.trans (Nat.zero_add n)
    obtain ⟨k, rfl⟩ := Nat.exists_eq_add_of_le hle
    rw [solve, run_add, hr.run_eq, run_of_queue_nil a g k hstop, hstop, hvisits]
    rfl
  · rcases exists_turns a g (start state g) bound with ⟨r, hr⟩ | ⟨m, hm, r, hr, hstop⟩
    · have hvisits : r.visits = bound := hr.visits_eq.trans (Nat.zero_add bound)
      -- the queue may be emptied by the last visit, and then the loop has stopped
      have hqueue : r.queue.isEmpty = false :=
        List.isEmpty_eq_false_iff.2 fun hstop => Nat.lt_irrefl bound (hlate bound r hr hstop)
      refine ⟨r, hr, ?_⟩
      rw [solve, hr.run_eq, hvisits, hqueue]
    · exact absurd (hlate m r hr hstop) (Nat.lt_asymm hm)
  · rw [solve, solve, run_eq_of_queue_nil (converged_iff.1 h) (converged_iff.1 h')]

/-- A loop whose facts rise with the visits that are counted in the state, as far as five, and an
edge to a block that is not there: the thirteenth visit empties the queue, so that thirteen visits
are enough and twelve are not, and more give nothing else. -/
theorem solve_eq_turns_counter :
    let a : Dataflow Nat Nat :=
      ⟨fun _ => 0, fun _ facts => facts.foldl max 0,
        fun n block input => (min (input + n * block.nodes.length) 5, n + 1)⟩
    let g := (((((Graph.start.addBlock.addBlock.addNode 3 .lambda).addEdge 0 2).addEdge 2 3).addEdge
      2 9).addEdge 2 1).addEdge 3 2
    (∃ r, Turns a g (start 0 g) 13 r ∧ r.queue = [] ∧
      a.solve g 13 0 = ⟨r.state, r.before, r.after, 13, true⟩) ∧
    (∃ r, Turns a g (start 0 g) 12 r ∧
      a.solve g 12 0 = ⟨r.state, r.before, r.after, 12, false⟩) ∧
    a.solve g 13 0 = a.solve g 20 0 := by
  intro a g
  have hturns : Turns a g (start 0 g) 13 (a.run g 13 (start 0 g)) := turns_run (by decide)
  have hstop : (a.run g 13 (start 0 g)).queue = [] := by decide
  refine ⟨⟨_, hturns, hstop, (solve_eq_turns a g 13 0).1 13 _ hturns hstop (Nat.le_refl 13)⟩,
    (solve_eq_turns a g 12 0).2.1 fun n r hr hempty => ?_,
    (solve_eq_turns a g 13 0).2.2 20 (by decide) (by decide)⟩
  by_contra hle
  have hsolve := (solve_eq_turns a g 12 0).1 n r hr hempty (Nat.le_of_not_lt hle)
  have hcut : (a.solve g 12 0).converged = false := by decide
  rw [hsolve] at hcut
  cases hcut

end Dataflow

end Disclosure
