import Disclosure.Dataflow
import Disclosure.Proofs.Graph.Built
import Disclosure.Proofs.Table

/-!
# What one visit does

A visit of a block does one of three things, and `Visited` says everything about each of them: it is
idle, or it goes through the block and finds the fact after it unchanged, or it changes that fact
and queues the successors.  What holds at the start and is kept by every such visit holds when the
solver stops, however many visits it may make.
-/

namespace Disclosure

namespace Dataflow

variable {σ α : Type}

theorem mem_foldl_enqueue {bs queue : List BlockId} {c : BlockId} :
    c ∈ bs.foldl enqueue queue ↔ c ∈ queue ∨ c ∈ bs :=
  Block.mem_foldl_adjoin

/-- The facts that meet at a block, from those after its predecessors and the initial one. -/
def meeting (g : Graph) (initial : α) (after : BlockId → Option α) (block : Block) (b : BlockId) :
    List α :=
  block.preds.filterMap after ++ if b = g.entry then [initial] else []

theorem meeting_ne_nil_of_entry {g : Graph} {initial : α} {after : Table BlockId α}
    {block : Block} : meeting g initial after.get? block g.entry ≠ [] := by
  simp [meeting]

theorem meeting_ne_nil_of_pred {g : Graph} {initial : α} {after : Table BlockId α}
    {block : Block} {b p : BlockId} (hp : p ∈ block.preds) (hafter : after.contains p = true) :
    meeting g initial after.get? block b ≠ [] := by
  obtain ⟨fact, hfact⟩ := Table.contains_iff_exists.1 hafter
  have hmem : fact ∈ block.preds.filterMap after.get? := List.mem_filterMap.2 ⟨p, hp, hfact⟩
  exact List.append_ne_nil_of_left_ne_nil (List.ne_nil_of_mem hmem) _

theorem entry_or_pred_of_meeting {g : Graph} {initial : α} {after : Table BlockId α}
    {block : Block} {b : BlockId} (h : meeting g initial after.get? block b ≠ []) :
    b = g.entry ∨ ∃ p ∈ block.preds, after.contains p = true := by
  obtain ⟨fact, hmem⟩ := List.exists_mem_of_ne_nil _ h
  rcases List.mem_append.1 hmem with hpred | hentry
  · obtain ⟨p, hp, hfact⟩ := List.mem_filterMap.1 hpred
    exact Or.inr ⟨p, hp, Table.contains_iff_exists.2 ⟨fact, hfact⟩⟩
  · by_cases hb : b = g.entry
    · exact Or.inl hb
    · simp [hb] at hentry

theorem meeting_insert_of_not_mem {g : Graph} {initial : α} {after : Table BlockId α}
    {block : Block} {b c : BlockId} (fact : α) (hc : c ∉ block.preds) :
    meeting g initial (after.insert c fact).get? block b =
      meeting g initial after.get? block b := by
  have hpreds : block.preds.filterMap (after.insert c fact).get? =
      block.preds.filterMap after.get? := by
    refine List.filterMap_congr fun p hp => ?_
    have hne : c ≠ p := by
      rintro rfl
      exact hc hp
    exact after.get?_insert_of_ne fact hne
  rw [meeting, meeting, hpreds]

/-- What a visit of `b` may lead to. -/
inductive Visited [BEq α] (a : Dataflow σ α) (g : Graph) (b : BlockId) (s : Progress σ α) :
    Progress σ α → Prop where
  /-- There is no such block, or nothing flows into it. -/
  | idle (hidle : ∀ {block}, g.block? b = some block →
        meeting g (a.initial s.state) s.after.get? block b = []) :
      Visited a g b s { s with visits := s.visits + 1 }
  /-- The fact after the block is equal to the one that was there. -/
  | kept {block : Block} {input output old : α} {state : σ} (hblock : g.block? b = some block)
      (hmeet : meeting g (a.initial s.state) s.after.get? block b ≠ [])
      (hinput : input = a.join s.state (meeting g (a.initial s.state) s.after.get? block b))
      (htransfer : a.transfer s.state block input = (output, state))
      (hold : s.after.get? b = some old) (heq : (old == output) = true) :
      Visited a g b s
        { s with state := state, before := s.before.insert b input, visits := s.visits + 1 }
  /-- There is another fact after the block, or the first one. -/
  | changed {block : Block} {input output : α} {state : σ} (hblock : g.block? b = some block)
      (hmeet : meeting g (a.initial s.state) s.after.get? block b ≠ [])
      (hinput : input = a.join s.state (meeting g (a.initial s.state) s.after.get? block b))
      (htransfer : a.transfer s.state block input = (output, state))
      (hne : ∀ {old}, s.after.get? b = some old → (old == output) = false) :
      Visited a g b s
        { state := state
          before := s.before.insert b input
          after := s.after.insert b output
          queue := block.succs.foldl enqueue s.queue
          visits := s.visits + 1 }

theorem visited_flowThrough [BEq α] (a : Dataflow σ α) {g : Graph} {b : BlockId} {block : Block}
    {s : Progress σ α} (hblock : g.block? b = some block)
    (hmeet : meeting g (a.initial s.state) s.after.get? block b ≠ []) :
    Visited a g b s (a.flowThrough block b (meeting g (a.initial s.state) s.after.get? block b)
      { s with visits := s.visits + 1 }) := by
  rcases htransfer : a.transfer s.state block
    (a.join s.state (meeting g (a.initial s.state) s.after.get? block b)) with ⟨output, state⟩
  simp only [flowThrough, htransfer]
  cases hold : s.after.get? b with
  | none =>
      rw [if_neg (by simp)]
      exact .changed hblock hmeet rfl htransfer (by simp [hold])
  | some old =>
      cases heq : old == output with
      | true =>
          rw [if_pos (by simpa using heq)]
          exact .kept hblock hmeet rfl htransfer hold heq
      | false =>
          rw [if_neg (by simpa using heq)]
          exact .changed hblock hmeet rfl htransfer (by simpa [hold] using heq)

theorem visited_visit [BEq α] (a : Dataflow σ α) (g : Graph) (b : BlockId)
    (s : Progress σ α) : Visited a g b s (a.visit g b s) := by
  rw [visit]
  cases hblock : g.block? b with
  | none => exact .idle fun h => by simp [hblock] at h
  | some block =>
      have hincoming : a.incoming g { s with visits := s.visits + 1 } block b =
          meeting g (a.initial s.state) s.after.get? block b := rfl
      simp only [hincoming]
      cases hmeet : meeting g (a.initial s.state) s.after.get? block b with
      | nil =>
          refine .idle fun {block'} hblock' => ?_
          rw [hblock] at hblock'
          cases hblock'
          exact hmeet
      | cons fact rest =>
          have hthrough := visited_flowThrough a hblock (s := s) (by simp [hmeet])
          rwa [hmeet] at hthrough

theorem visited_step [BEq α] (a : Dataflow σ α) (g : Graph) {s : Progress σ α} {b : BlockId}
    {rest : List BlockId} (h : s.queue = b :: rest) :
    Visited a g b { s with queue := rest } (a.step g s) := by
  rw [step, h]
  exact visited_visit a g b _

theorem run_invariant [BEq α] {a : Dataflow σ α} {g : Graph} {P : Progress σ α → Prop}
    (hvisit : ∀ {s s' : Progress σ α} {b : BlockId} {rest : List BlockId}, s.queue = b :: rest →
      P s → Visited a g b { s with queue := rest } s' → P s') :
    ∀ (bound : Nat) {s : Progress σ α}, P s → P (a.run g bound s) := by
  intro bound
  induction bound with
  | zero => exact fun hs => hs
  | succ bound ih =>
      intro s hs
      cases hq : s.queue with
      | nil =>
          rw [run_of_queue_nil a g _ hq]
          exact hs
      | cons b rest =>
          rw [run_of_queue_cons a g bound hq]
          exact ih (hvisit hq hs (visited_step a g hq))

end Dataflow

end Disclosure
