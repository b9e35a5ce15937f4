import Disclosure.Proofs.Dataflow.Recurrence

/-!
# What every visit keeps

An invariant of a dataflow problem is a kind of states together with a kind of facts: the initial
fact is of the kind, and so is what a join or a block makes of facts of the kind in a state of the
kind.  Blocks that control does not come to need not respect it, because the solver never goes
through them.  Nothing is asked of the edges: a predecessor that was not visited gives no fact.

Every state and every fact that the solver leaves behind is then of the kind, whether it has stopped
by itself or not.
-/

namespace Disclosure

namespace Dataflow

variable {σ α : Type} {a : Dataflow σ α} {g : Graph} {S : σ → Prop} {F : α → Prop}

/-- Where control can come to, states of the kind `S` and facts of the kind `F` lead to such states
and facts. -/
structure Maintains (a : Dataflow σ α) (g : Graph) (S : σ → Prop) (F : α → Prop) : Prop where
  initial : ∀ {st}, S st → F (a.initial st)
  join : ∀ {st xs}, S st → xs ≠ [] → (∀ x ∈ xs, F x) → F (a.join st xs)
  transfer : ∀ {b block st x}, g.Reachable b → g.block? b = some block → S st → F x →
    F (a.transfer st block x).1 ∧ S (a.transfer st block x).2

structure Progress.Holds (S : σ → Prop) (F : α → Prop) (s : Progress σ α) : Prop where
  state : S s.state
  before : ∀ {b fact}, s.before.get? b = some fact → F fact
  after : ∀ {b fact}, s.after.get? b = some fact → F fact

theorem holds_start {state : σ} (g : Graph) (hstate : S state) :
    (start state g : Progress σ α).Holds S F where
  state := hstate
  before h := by cases h
  after h := by cases h

theorem Maintains.of_mem_meeting (h : a.Maintains g S F) {s : Progress σ α} (hs : s.Holds S F)
    {block : Block} {b : BlockId} {fact : α}
    (hfact : fact ∈ meeting g (a.initial s.state) s.after.get? block b) : F fact := by
  cases List.mem_append.1 hfact with
  | inl hpred =>
      obtain ⟨p, -, hp⟩ := List.mem_filterMap.1 hpred
      exact hs.after hp
  | inr hentry =>
      split at hentry
      · rw [List.mem_singleton.1 hentry]
        exact h.initial hs.state
      · exact absurd hentry List.not_mem_nil

theorem Maintains.through (h : a.Maintains g S F) {s : Progress σ α} (hs : s.Holds S F)
    {b : BlockId} {block : Block} {input output : α} {st : σ} (hb : g.Reachable b)
    (hblock : g.block? b = some block)
    (hmeet : meeting g (a.initial s.state) s.after.get? block b ≠ [])
    (hinput : input = a.join s.state (meeting g (a.initial s.state) s.after.get? block b))
    (htransfer : a.transfer s.state block input = (output, st)) : F input ∧ F output ∧ S st := by
  have hfact : F input := by
    rw [hinput]
    exact h.join hs.state hmeet fun x hx => h.of_mem_meeting hs hx
  have hthrough := h.transfer hb hblock hs.state hfact
  rw [htransfer] at hthrough
  exact ⟨hfact, hthrough⟩

variable [BEq α] {state : σ}

theorem Progress.Holds.visited (h : a.Maintains g S F) {s s' : Progress σ α} {b : BlockId}
    {rest : List BlockId} (hs : s.Holds S F) (hb : g.Reachable b)
    (hvisit : Visited a g b { s with queue := rest } s') : s'.Holds S F := by
  cases hvisit with
  | idle => exact ⟨hs.state, hs.before, hs.after⟩
  | kept hblock hmeet hinput htransfer hold heq =>
      obtain ⟨hfact, -, hst⟩ := h.through hs hb hblock hmeet hinput htransfer
      exact ⟨hst, fun hc => Table.of_get?_insert hc hfact hs.before, hs.after⟩
  | changed hblock hmeet hinput htransfer hne =>
      obtain ⟨hfact, hout, hst⟩ := h.through hs hb hblock hmeet hinput htransfer
      exact ⟨hst, fun hc => Table.of_get?_insert hc hfact hs.before,
        fun hc => Table.of_get?_insert hc hout hs.after⟩

theorem Maintains.run (h : a.Maintains g S F) (hstate : S state) (bound : Nat) :
    (a.run g bound (start state g)).Holds S F := by
  induction bound with
  | zero => exact holds_start g hstate
  | succ bound ih =>
      have hqueue := (reachable_run a g bound state).1
      rw [run_succ]
      cases hq : (a.run g bound (start state g)).queue with
      | nil =>
          rw [step, hq]
          exact ih
      | cons b rest => exact ih.visited h (hqueue b (by simp [hq])) (visited_step a g hq)

end Dataflow

end Disclosure
