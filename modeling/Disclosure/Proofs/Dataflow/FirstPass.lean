import Disclosure.Proofs.Dataflow.Fixpoint
import Disclosure.Proofs.Graph.Precedence

/-!
# The first pass of the solver

The queue starts with the order of the graph, and what is queued later is put behind it.  So the
first visits go through the order.  A block other than the entry comes after one of its
predecessors, so none of these visits is idle: when the first pass is over, there are facts at all
blocks that can be reached, whether or not the solver may go on.
-/

namespace Disclosure

namespace Dataflow

variable {σ α : Type} [BEq α] {a : Dataflow σ α} {g : Graph} {state : σ} {s s' : Progress σ α}
  {b c : BlockId} {done rest : List BlockId}

theorem Visited.visits_eq (h : Visited a g b s s') : s'.visits = s.visits + 1 := by
  cases h <;> rfl

theorem Visited.queue_prefix (h : Visited a g b s s') : s.queue <+: s'.queue := by
  cases h with
  | idle => exact List.prefix_refl _
  | kept => exact List.prefix_refl _
  | changed => exact Block.prefix_foldl_adjoin _ _

theorem Visited.contains_after_iff (h : Visited a g b s s') :
    s'.after.contains c = true ↔ s.after.contains c = true ∨ (c = b ∧ ∃ block,
      g.block? b = some block ∧ meeting g (a.initial s.state) s.after.get? block b ≠ []) := by
  cases h with
  | idle hidle =>
      constructor
      · exact Or.inl
      · rintro (hc | ⟨-, block, hblock, hmeet⟩)
        · exact hc
        · exact absurd (hidle hblock) hmeet
  | kept hblock hmeet _ _ hold _ =>
      constructor
      · exact Or.inl
      · rintro (hc | ⟨rfl, -⟩)
        · exact hc
        · exact Table.contains_iff_exists.2 ⟨_, hold⟩
  | changed hblock hmeet _ _ _ =>
      simp only [Table.contains_insert, Bool.or_eq_true, decide_eq_true_eq]
      constructor
      · rintro (rfl | hc)
        · exact Or.inr ⟨rfl, _, hblock, hmeet⟩
        · exact Or.inl hc
      · rintro (hc | ⟨rfl, -⟩)
        · exact Or.inr hc
        · exact Or.inl rfl

theorem visits_run (a : Dataflow σ α) (g : Graph) (bound : Nat) (s : Progress σ α) :
    (a.run g bound s).queue = [] ∨ (a.run g bound s).visits = s.visits + bound := by
  induction bound generalizing s with
  | zero => exact Or.inr rfl
  | succ bound ih =>
      cases hq : s.queue with
      | nil =>
          rw [run_of_queue_nil a g _ hq]
          exact Or.inl hq
      | cons b rest =>
          rw [run_of_queue_cons a g bound hq]
          rcases ih (a.step g s) with hnil | hvisits
          · exact Or.inl hnil
          · have hstep := (visited_step a g hq).visits_eq
            exact Or.inr (by simp only [hvisits, hstep]; omega)

/-- Of the order, the blocks `done` were visited and the blocks `rest` head the queue. -/
structure FirstPass (g : Graph) (s : Progress σ α) (done rest : List BlockId) : Prop where
  order_eq : g.order = done ++ rest
  queue_eq : rest <+: s.queue
  visits_eq : rest ≠ [] → s.visits = done.length
  contains_of_done : ∀ {b block}, b ∈ done → g.block? b = some block → s.after.contains b = true
  done_of_contains : ∀ {b}, s.after.contains b = true → b ∈ done

omit [BEq α] in
theorem firstPass_start (state : σ) (g : Graph) :
    FirstPass g (start state g : Progress σ α) [] g.order where
  order_eq := rfl
  queue_eq := List.prefix_refl _
  visits_eq _ := rfl
  contains_of_done h := absurd h List.not_mem_nil
  done_of_contains h := by cases h

omit [BEq α] in
theorem FirstPass.meeting_ne_nil (h : FirstPass g s done (b :: rest)) (hg : g.Mirrored)
    {block : Block} (hblock : g.block? b = some block) {initial : α} :
    meeting g initial s.after.get? block b ≠ [] := by
  by_cases hentry : b = g.entry
  · subst hentry
    exact meeting_ne_nil_of_entry
  · have hreach : g.Reachable b := Graph.mem_order_iff.1 (by simp [h.order_eq])
    obtain ⟨p, hp, hedge, hlt⟩ := hreach.exists_pred_place_lt hentry
    obtain ⟨pblock, hpblock, hsucc⟩ := Graph.mem_succs_iff.1 hedge
    -- a block with a smaller place than `b` is one of those that were visited
    have hdone : p ∈ done := by
      have hnodup := g.nodup_order
      rw [h.order_eq] at hnodup
      have hb : b ∉ done := fun hmem =>
        (List.nodup_append.1 hnodup).2.2 b hmem b List.mem_cons_self rfl
      have hplace : g.place b = done.length := by
        rw [Graph.place, h.order_eq, List.idxOf_append_of_notMem hb, List.idxOf_cons_self,
          Nat.add_zero]
      by_contra hnot
      rw [hplace, Graph.place, h.order_eq, List.idxOf_append_of_notMem hnot] at hlt
      omega
    exact meeting_ne_nil_of_pred ((hg hpblock hblock).2 hsucc) (h.contains_of_done hdone hpblock)

theorem FirstPass.visited (hg : g.Mirrored) (hs : a.Balanced g state s) {queue : List BlockId}
    (hq : s.queue = b :: queue) (h : FirstPass g s done rest)
    (hvisit : Visited a g b { s with queue := queue } s') :
    ∃ done' rest', FirstPass g s' done' rest' := by
  have hqueue : queue <+: s'.queue := hvisit.queue_prefix
  have hafter := fun c => hvisit.contains_after_iff (c := c)
  have hkeep : ∀ {c block}, c ∈ done → g.block? c = some block → s'.after.contains c = true :=
    fun hc hblock => (hafter _).2 (Or.inl (h.contains_of_done hc hblock))
  cases rest with
  | nil =>
      refine ⟨done, [], h.order_eq, List.nil_prefix, fun hne => absurd rfl hne, hkeep, ?_⟩
      intro c hc
      rcases (hafter c).1 hc with hc | ⟨rfl, block, hblock, hmeet⟩
      · exact h.done_of_contains hc
      · have hreach := hs.reachable_of_meeting hg hblock hmeet
        simpa [h.order_eq] using Graph.mem_order_iff.2 hreach
  | cons first rest =>
      obtain ⟨rfl, hrest⟩ := List.cons_prefix_cons.1 (hq ▸ h.queue_eq)
      refine ⟨done ++ [first], rest, by simp [h.order_eq], hrest.trans hqueue, ?_, ?_, ?_⟩
      · intro _
        rw [hvisit.visits_eq, List.length_append]
        exact congrArg (· + 1) (h.visits_eq (List.cons_ne_nil _ _))
      · intro c block hc hblock
        rcases List.mem_append.1 hc with hc | hc
        · exact hkeep hc hblock
        · obtain rfl := List.mem_singleton.1 hc
          exact (hafter c).2 (Or.inr ⟨rfl, block, hblock, h.meeting_ne_nil hg hblock⟩)
      · intro c hc
        rcases (hafter c).1 hc with hc | ⟨rfl, -⟩
        · exact List.mem_append_left _ (h.done_of_contains hc)
        · simp

theorem exists_firstPass_run (ha : a.Steady) (hg : g.Mirrored) (state : σ) (bound : Nat) :
    a.Balanced g state (a.run g bound (start state g)) ∧
      ∃ done rest, FirstPass g (a.run g bound (start state g)) done rest :=
  run_invariant (P := fun s => a.Balanced g state s ∧ ∃ done rest, FirstPass g s done rest)
    (fun hq ⟨hs, _, _, h⟩ hvisit => ⟨hs.visited ha hg hq hvisit, h.visited hg hs hq hvisit⟩)
    bound ⟨balanced_start a g state, _, _, firstPass_start state g⟩

/-- After as many visits as there are blocks in the order, there are facts at all blocks that can be
reached, and at every time there are facts at such blocks only. -/
theorem contains_after_of_order_length_le (ha : a.Steady) (hg : g.Mirrored) {bound : Nat}
    (hbound : g.order.length ≤ bound) {block : Block} (hblock : g.block? b = some block) :
    (a.solve g bound state).after.contains b = true ↔ g.Reachable b := by
  obtain ⟨hs, done, rest, h⟩ := exists_firstPass_run ha hg state bound
  constructor
  · exact fun hc => (hs.reached hc).2
  · intro hreach
    have hnil : rest = [] := by
      by_contra hne
      have hvisits := h.visits_eq hne
      have hlength : done.length < g.order.length := by
        rw [h.order_eq, List.length_append]
        exact Nat.lt_add_of_pos_right (List.length_pos_iff.2 hne)
      rcases visits_run a g bound (start state g) with hqueue | hmade
      · exact hne (List.prefix_nil.1 (hqueue ▸ h.queue_eq))
      · have hzero : (start state g : Progress σ α).visits = 0 := rfl
        omega
    have hmem := Graph.mem_order_iff.2 hreach
    rw [h.order_eq, hnil, List.append_nil] at hmem
    exact h.contains_of_done hmem hblock

end Dataflow

end Disclosure
