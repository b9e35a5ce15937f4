import Disclosure.Graph.Lowering
import Disclosure.Proofs.Graph.Uses
import Mathlib.Logic.Relation

/-!
# The steps of the construction of a graph

The construction of a graph adds nodes to the current block, adds blocks for later, ends blocks and
moves on to a block that was added for later.  `Step` says all that such a step may do, so that what
holds of every constructed graph can be shown one step at a time.

The blocks that were added for later are kept in the order in which the construction will move to
them.  They are no part of the draft: the construction knows them by its own local names.
-/

namespace Disclosure

def Terminator.targets (exit : BlockId) : Terminator → List BlockId
  | .goto target => [target]
  | .branch _ thenBlock elseBlock => [thenBlock, elseBlock]
  | .loop _ body done => [body, done]
  | .leave _ => [exit]
  | .stop => []

theorem Terminator.length_targets_le (exit : BlockId) (t : Terminator) :
    (t.targets exit).length ≤ 2 := by
  cases t <;> simp [targets]

namespace Block

def targets (exit : BlockId) (b : Block) : List BlockId :=
  match b.terminator with
  | some t => t.targets exit
  | none => []

theorem adjoin_adjoin_self (bs : List BlockId) (b : BlockId) :
    adjoin (adjoin bs b) b = adjoin bs b :=
  if_pos (mem_adjoin.2 (Or.inr rfl))

theorem foldl_adjoin_eq_append {targets bs : List BlockId} (h : (bs ++ targets).Nodup) :
    targets.foldl adjoin bs = bs ++ targets := by
  induction targets generalizing bs with
  | nil => simp
  | cons target rest ih =>
      have hnew : target ∉ bs := by
        intro hmem
        exact (List.nodup_append.1 h).2.2 target hmem target List.mem_cons_self rfl
      have hadjoin : adjoin bs target = bs ++ [target] := if_neg hnew
      rw [List.append_cons] at h
      rw [List.foldl_cons, hadjoin, ih h, ← List.append_cons]

end Block

namespace Graph

open Block (adjoin)

/-- The graph after a block has ended and was linked to its targets. -/
def endWith (g : Graph) (b : BlockId) (t : Terminator) : Graph :=
  (t.targets g.exit).foldl (fun g target => g.addEdge b target) (g.terminate b t)

theorem block?_foldl_addEdge (g : Graph) (b c : BlockId) (targets : List BlockId) :
    (targets.foldl (fun g target => g.addEdge b target) g).block? c =
      (g.block? c).map fun block =>
        { block with
          preds := if c ∈ targets then adjoin block.preds b else block.preds
          succs := if b = c then targets.foldl adjoin block.succs else block.succs } := by
  induction targets generalizing g with
  | nil => simp
  | cons target rest ih =>
      rw [List.foldl_cons, ih, block?_addEdge, Option.map_map]
      congr 1
      funext block
      by_cases hbc : b = c <;> by_cases htc : target = c <;> by_cases hrest : c ∈ rest <;>
        simp [hbc, htc, hrest, Block.adjoin_adjoin_self, Ne.symm]

theorem block?_endWith (g : Graph) (b c : BlockId) (t : Terminator) :
    (g.endWith b t).block? c = (g.block? c).map fun block =>
      { block with
        terminator := if b = c then some t else block.terminator
        preds := if c ∈ t.targets g.exit then adjoin block.preds b else block.preds
        succs := if b = c then (t.targets g.exit).foldl adjoin block.succs else block.succs } := by
  rw [endWith, block?_foldl_addEdge, block?_terminate]
  by_cases hbc : b = c <;> simp [hbc, Function.comp_def]

theorem block?_endWith_self {g : Graph} {b : BlockId} {block : Block}
    (hblock : g.block? b = some block) (t : Terminator) :
    ∃ preds, (g.endWith b t).block? b = some
      { block with
        terminator := some t
        preds := preds
        succs := (t.targets g.exit).foldl adjoin block.succs } := by
  rw [block?_endWith, hblock, Option.map_some]
  simp only [if_true]
  exact ⟨_, rfl⟩

theorem foldl_addEdge_eq (g : Graph) (b : BlockId) (targets : List BlockId) :
    targets.foldl (fun g target => g.addEdge b target) g =
      { g with blocks := (targets.foldl (fun g target => g.addEdge b target) g).blocks } := by
  induction targets generalizing g with
  | nil => rfl
  | cons target rest ih => rw [List.foldl_cons, ih]; rfl

@[simp] theorem nextBlock_addBlock (g : Graph) : g.addBlock.nextBlock = g.nextBlock + 1 := by
  simp [nextBlock, addBlock]

@[simp] theorem nextBlock_addNode (g : Graph) (b : BlockId) (op : Operation) :
    (g.addNode b op).nextBlock = g.nextBlock := by
  simp [nextBlock, addNode, updateBlock]

@[simp] theorem nextNode_addNode (g : Graph) (b : BlockId) (op : Operation) :
    (g.addNode b op).nextNode = g.nextNode + 1 := by
  simp [nextNode, addNode]

@[simp] theorem entry_addBlock (g : Graph) : g.addBlock.entry = g.entry := rfl

@[simp] theorem entry_addNode (g : Graph) (b : BlockId) (op : Operation) :
    (g.addNode b op).entry = g.entry := rfl

@[simp] theorem exit_addBlock (g : Graph) : g.addBlock.exit = g.exit := rfl

@[simp] theorem exit_addNode (g : Graph) (b : BlockId) (op : Operation) :
    (g.addNode b op).exit = g.exit := rfl

@[simp] theorem nodes_endWith (g : Graph) (b : BlockId) (t : Terminator) :
    (g.endWith b t).nodes = g.nodes := by
  rw [endWith, foldl_addEdge_eq]
  rfl

@[simp] theorem entry_endWith (g : Graph) (b : BlockId) (t : Terminator) :
    (g.endWith b t).entry = g.entry := by
  rw [endWith, foldl_addEdge_eq]
  rfl

@[simp] theorem exit_endWith (g : Graph) (b : BlockId) (t : Terminator) :
    (g.endWith b t).exit = g.exit := by
  rw [endWith, foldl_addEdge_eq]
  rfl

@[simp] theorem nextBlock_endWith (g : Graph) (b : BlockId) (t : Terminator) :
    (g.endWith b t).nextBlock = g.nextBlock := by
  have hedges : ∀ (targets : List BlockId) (g : Graph),
      (targets.foldl (fun g target => g.addEdge b target) g).nextBlock = g.nextBlock := by
    intro targets
    induction targets with
    | nil => exact fun _ => rfl
    | cons target rest ih =>
        intro g
        rw [List.foldl_cons, ih]
        simp [nextBlock, addEdge, updateBlock]
  rw [endWith, hedges]
  simp [nextBlock, terminate, updateBlock]

@[simp] theorem succs_addBlock (g : Graph) (b : BlockId) : g.addBlock.succs b = g.succs b := by
  rw [succs, succs, block?_addBlock]
  by_cases hnew : b = g.nextBlock
  · rw [if_pos hnew, block?_eq_none_of_le (Nat.le_of_eq hnew.symm)]
    rfl
  · rw [if_neg hnew]

@[simp] theorem succs_addNode (g : Graph) (b c : BlockId) (op : Operation) :
    (g.addNode b op).succs c = g.succs c := by
  rw [succs, succs, block?_addNode]
  by_cases hbc : b = c
  · cases g.block? c <;> simp [hbc]
  · rw [if_neg hbc]

theorem mem_succs_endWith {g : Graph} {b p c : BlockId} {t : Terminator} :
    c ∈ (g.endWith b t).succs p ↔
      c ∈ g.succs p ∨ (p = b ∧ (g.block? b).isSome = true ∧ c ∈ t.targets g.exit) := by
  rw [succs, succs, block?_endWith]
  by_cases hpb : b = p
  · subst hpb
    cases g.block? b <;> simp [Block.mem_foldl_adjoin]
  · cases g.block? p <;> simp [hpb, Ne.symm hpb]

theorem Built.endWith {g : Graph} (h : g.Built) (b : BlockId) (t : Terminator) :
    (g.endWith b t).Built := by
  have hedges : ∀ (targets : List BlockId) {g : Graph}, g.Built →
      (targets.foldl (fun g target => g.addEdge b target) g).Built := by
    intro targets
    induction targets with
    | nil => exact fun hg => hg
    | cons target rest ih => exact fun hg => ih (hg.addEdge b target)
  exact hedges _ (h.terminate b t)

/-- Every number below the next one is that of a block, and edges lead to blocks and are listed on
both sides. -/
structure Linked (g : Graph) : Prop where
  exists_block : ∀ {b}, b < g.nextBlock → ∃ block, g.block? b = some block
  succs_lt : ∀ {b block c}, g.block? b = some block → c ∈ block.succs → c < g.nextBlock
  preds_lt : ∀ {b block c}, g.block? b = some block → c ∈ block.preds → c < g.nextBlock
  mirrored : g.Mirrored

namespace Linked

variable {g : Graph}

theorem addNode (h : g.Linked) (b : BlockId) (op : Operation) : (g.addNode b op).Linked := by
  have hold : ∀ {c block'}, (g.addNode b op).block? c = some block' → ∃ block,
      g.block? c = some block ∧ block'.preds = block.preds ∧ block'.succs = block.succs := by
    intro c block' hc
    rw [block?_addNode] at hc
    split at hc
    · obtain ⟨block, hblock, rfl⟩ := Option.map_eq_some_iff.1 hc
      exact ⟨block, hblock, rfl, rfl⟩
    · exact ⟨block', hc, rfl, rfl⟩
  refine ⟨fun {c} hc => ?_, fun hc hmem => ?_, fun hc hmem => ?_, fun hp hc => ?_⟩
  · rw [nextBlock_addNode] at hc
    obtain ⟨block, hblock⟩ := h.exists_block hc
    rw [block?_addNode, hblock]
    split
    · exact ⟨_, rfl⟩
    · exact ⟨_, rfl⟩
  · obtain ⟨block, hblock, -, hsuccs⟩ := hold hc
    rw [nextBlock_addNode]
    exact h.succs_lt hblock (hsuccs ▸ hmem)
  · obtain ⟨block, hblock, hpreds, -⟩ := hold hc
    rw [nextBlock_addNode]
    exact h.preds_lt hblock (hpreds ▸ hmem)
  · obtain ⟨pblock, hpblock, -, hsuccs⟩ := hold hp
    obtain ⟨block, hblock, hpreds, -⟩ := hold hc
    rw [hpreds, hsuccs]
    exact h.mirrored hpblock hblock

theorem addBlock (h : g.Linked) : g.addBlock.Linked := by
  have hold : ∀ {c block'}, g.addBlock.block? c = some block' →
      (c = g.nextBlock ∧ block' = .fresh c) ∨ g.block? c = some block' := by
    intro c block' hc
    rw [block?_addBlock] at hc
    split at hc
    · rename_i hnew
      cases hc
      exact Or.inl ⟨hnew, rfl⟩
    · exact Or.inr hc
  refine ⟨fun {c} hc => ?_, fun hc hmem => ?_, fun hc hmem => ?_, fun {p c} _ _ hp hc => ?_⟩
  · rw [block?_addBlock]
    split
    · exact ⟨_, rfl⟩
    · rename_i hne
      rw [nextBlock_addBlock] at hc
      exact h.exists_block (Nat.lt_of_le_of_ne (Nat.le_of_lt_succ hc) hne)
  · rw [nextBlock_addBlock]
    rcases hold hc with ⟨-, rfl⟩ | hblock
    · cases hmem
    · exact Nat.lt_succ_of_lt (h.succs_lt hblock hmem)
  · rw [nextBlock_addBlock]
    rcases hold hc with ⟨-, rfl⟩ | hblock
    · cases hmem
    · exact Nat.lt_succ_of_lt (h.preds_lt hblock hmem)
  · -- no edge of an older block names the new one
    rcases hold hp with ⟨rfl, rfl⟩ | hpblock <;> rcases hold hc with ⟨rfl, rfl⟩ | hblock
    · simp [Block.fresh]
    · have hnot := fun hmem => Nat.lt_irrefl _ (h.preds_lt hblock hmem)
      simpa [Block.fresh] using hnot
    · have hnot := fun hmem => Nat.lt_irrefl _ (h.succs_lt hpblock hmem)
      simpa [Block.fresh] using hnot
    · exact h.mirrored hpblock hblock

theorem endWith (h : g.Linked) {b : BlockId} {t : Terminator} (hb : b < g.nextBlock)
    (htargets : ∀ c ∈ t.targets g.exit, c < g.nextBlock) : (g.endWith b t).Linked := by
  have hold : ∀ {c block'}, (g.endWith b t).block? c = some block' → ∃ block,
      g.block? c = some block ∧
      (∀ p, p ∈ block'.preds ↔ p ∈ block.preds ∨ (c ∈ t.targets g.exit ∧ p = b)) ∧
      ∀ s, s ∈ block'.succs ↔ s ∈ block.succs ∨ (b = c ∧ s ∈ t.targets g.exit) := by
    intro c block' hc
    rw [block?_endWith] at hc
    obtain ⟨block, hblock, rfl⟩ := Option.map_eq_some_iff.1 hc
    refine ⟨block, hblock, fun p => ?_, fun s => ?_⟩
    · by_cases hmem : c ∈ t.targets g.exit <;> simp [hmem, Block.mem_adjoin]
    · by_cases hbc : b = c <;> simp [hbc, Block.mem_foldl_adjoin]
  refine ⟨fun {c} hc => ?_, fun hc hmem => ?_, fun hc hmem => ?_, fun {p c} _ _ hp hc => ?_⟩
  · rw [nextBlock_endWith] at hc
    obtain ⟨block, hblock⟩ := h.exists_block hc
    rw [block?_endWith, hblock]
    exact ⟨_, rfl⟩
  · obtain ⟨block, hblock, -, hsuccs⟩ := hold hc
    rw [nextBlock_endWith]
    rcases (hsuccs _).1 hmem with hmem | ⟨-, hmem⟩
    · exact h.succs_lt hblock hmem
    · exact htargets _ hmem
  · obtain ⟨block, hblock, hpreds, -⟩ := hold hc
    rw [nextBlock_endWith]
    rcases (hpreds _).1 hmem with hmem | ⟨-, rfl⟩
    · exact h.preds_lt hblock hmem
    · exact hb
  · obtain ⟨pblock, hpblock, -, hsuccs⟩ := hold hp
    obtain ⟨block, hblock, hpreds, -⟩ := hold hc
    rw [hpreds, hsuccs, h.mirrored hpblock hblock, eq_comm (b := b), and_comm]

end Linked

/-- Blocks stay, and what they list stays in them; numbers are not given twice. -/
structure Extends (g g' : Graph) : Prop where
  nextNode_le : g.nextNode ≤ g'.nextNode
  nextBlock_le : g.nextBlock ≤ g'.nextBlock
  exit_eq : g'.exit = g.exit
  exists_block : ∀ {b block}, g.block? b = some block → ∃ block',
    g'.block? b = some block' ∧ block.nodes ⊆ block'.nodes ∧ block.succs <+: block'.succs

theorem Extends.refl (g : Graph) : g.Extends g :=
  ⟨Nat.le_refl _, Nat.le_refl _, rfl,
    fun hb => ⟨_, hb, List.Subset.refl _, List.prefix_refl _⟩⟩

theorem Extends.trans {g g' g'' : Graph} (h : g.Extends g') (h' : g'.Extends g'') :
    g.Extends g'' := by
  refine ⟨Nat.le_trans h.nextNode_le h'.nextNode_le, Nat.le_trans h.nextBlock_le h'.nextBlock_le,
    h'.exit_eq.trans h.exit_eq, fun hb => ?_⟩
  obtain ⟨block', hb', hnodes, hsuccs⟩ := h.exists_block hb
  obtain ⟨block'', hb'', hnodes', hsuccs'⟩ := h'.exists_block hb'
  exact ⟨block'', hb'', List.Subset.trans hnodes hnodes', hsuccs.trans hsuccs'⟩

end Graph

namespace Draft

def IsOpen (d : Draft) : Prop :=
  ∃ block, d.graph.block? d.current = some block ∧ block.terminator = none

def IsClosed (d : Draft) : Prop :=
  ∃ block t, d.graph.block? d.current = some block ∧ block.terminator = some t

def Lists (d : Draft) (n : NodeId) : Prop :=
  ∃ block, d.graph.block? d.current = some block ∧ n ∈ block.nodes

end Draft

/-- How careful a construction is. -/
structure Mode where
  /-- Only the current block ends, and only when it has not ended before; the construction leaves it
  only afterwards. -/
  tidy : Prop
  /-- A node takes its inputs from the current block. -/
  flat : Prop

/-- A draft with the blocks that were added for later. -/
structure Stage where
  draft : Draft
  reserved : List BlockId

namespace Stage

/-- What a step of the construction may do. -/
inductive Step (m : Mode) : Stage → Stage → Prop where
  | emit {d : Draft} {reserved : List BlockId} (op : Operation)
      (hoperands : ∀ n ∈ op.operands, n < d.graph.nextNode)
      (hflat : m.flat → ∀ n ∈ op.inputs, d.Lists n) :
      Step m ⟨d, reserved⟩
        ⟨{ d with graph := d.graph.addNode d.current op }, reserved⟩
  /-- The new block is put at any place among those that were added for later. -/
  | reserve {d : Draft} (before after : List BlockId) :
      Step m ⟨d, before ++ after⟩
        ⟨{ d with graph := d.graph.addBlock }, before ++ d.graph.nextBlock :: after⟩
  | close {d : Draft} {reserved : List BlockId} (b : BlockId) (t : Terminator)
      (hb : b < d.graph.nextBlock) (hreserved : b ∉ reserved)
      (htargets : ∀ c ∈ t.targets d.graph.exit, c < d.graph.nextBlock)
      (hnodup : (t.targets d.graph.exit).Nodup) (htidy : m.tidy → b = d.current ∧ d.IsOpen) :
      Step m ⟨d, reserved⟩ ⟨{ d with graph := d.graph.endWith b t }, reserved⟩
  /-- The construction goes on in the first of the blocks that were added for later. -/
  | move {d : Draft} {b : BlockId} {reserved : List BlockId} (htidy : m.tidy → d.IsClosed) :
      Step m ⟨d, b :: reserved⟩ ⟨{ d with current := b }, reserved⟩
  | retarget {d : Draft} {reserved : List BlockId} (loops : List JumpTargets)
      (hloops : ∀ t ∈ loops, t.next < d.graph.nextBlock ∧ t.done < d.graph.nextBlock) :
      Step m ⟨d, reserved⟩ ⟨{ d with loops := loops }, reserved⟩

abbrev Run (m : Mode) : Stage → Stage → Prop := Relation.ReflTransGen (Step m)

/-! ## What every step keeps -/

/-- The graph is linked, and what the stage names are blocks of it; those that were added for later
have not ended. -/
structure Sound (s : Stage) : Prop where
  built : s.draft.graph.Built
  linked : s.draft.graph.Linked
  entry_lt : s.draft.graph.entry < s.draft.graph.nextBlock
  exit_lt : s.draft.graph.exit < s.draft.graph.nextBlock
  current_lt : s.draft.current < s.draft.graph.nextBlock
  loops_lt : ∀ {t}, t ∈ s.draft.loops →
    t.next < s.draft.graph.nextBlock ∧ t.done < s.draft.graph.nextBlock
  reserved_nodup : s.reserved.Nodup
  reserved_ne : ∀ {b}, b ∈ s.reserved → b ≠ s.draft.current
  reserved_open : ∀ {b}, b ∈ s.reserved →
    ∃ block, s.draft.graph.block? b = some block ∧ block.terminator = none

variable {m : Mode} {s s' : Stage}

theorem Sound.reserved_lt (h : s.Sound) {b : BlockId} (hb : b ∈ s.reserved) :
    b < s.draft.graph.nextBlock := by
  obtain ⟨block, hblock, -⟩ := h.reserved_open hb
  exact Graph.lt_nextBlock_of_block? hblock

theorem Sound.step (h : s.Sound) (hstep : Step m s s') : s'.Sound := by
  cases hstep with
  | @emit d reserved op _ _ =>
      refine ⟨h.built.addNode _ _, h.linked.addNode _ _, ?_, ?_, ?_, ?_, h.reserved_nodup,
        h.reserved_ne, ?_⟩
      · simpa using h.entry_lt
      · simpa using h.exit_lt
      · simpa using h.current_lt
      · intro t ht
        simpa using h.loops_lt ht
      · intro b hb
        obtain ⟨block, hblock, hopen⟩ := h.reserved_open hb
        simp only [Graph.block?_addNode, hblock]
        split
        · exact ⟨_, rfl, hopen⟩
        · exact ⟨_, rfl, hopen⟩
  | @reserve d before after =>
      have hlt := fun {b} (hb : b ∈ before ++ after) => h.reserved_lt hb
      have hnew : d.graph.nextBlock ∉ before ++ after := fun hb => Nat.lt_irrefl _ (hlt hb)
      have hmem : ∀ {b}, b ∈ before ++ d.graph.nextBlock :: after →
          b = d.graph.nextBlock ∨ b ∈ before ++ after := by
        intro b hb
        simpa [or_left_comm] using hb
      refine ⟨h.built.addBlock, h.linked.addBlock, ?_, ?_, ?_, ?_, ?_, ?_, ?_⟩
      · simpa using Nat.lt_succ_of_lt h.entry_lt
      · simpa using Nat.lt_succ_of_lt h.exit_lt
      · simpa using Nat.lt_succ_of_lt h.current_lt
      · intro t ht
        have hold := h.loops_lt ht
        rw [Graph.nextBlock_addBlock]
        exact ⟨Nat.lt_succ_of_lt hold.1, Nat.lt_succ_of_lt hold.2⟩
      · exact List.nodup_middle.2 (List.nodup_cons.2 ⟨hnew, h.reserved_nodup⟩)
      · intro b hb
        rcases hmem hb with rfl | hb
        · exact Nat.ne_of_gt h.current_lt
        · exact h.reserved_ne hb
      · intro b hb
        simp only [Graph.block?_addBlock]
        split
        · exact ⟨_, rfl, rfl⟩
        · rename_i hne
          exact h.reserved_open ((hmem hb).resolve_left hne)
  | @close d reserved b t hb hreserved htargets _ _ =>
      refine ⟨h.built.endWith b t, h.linked.endWith hb htargets, ?_, ?_, ?_, ?_,
        h.reserved_nodup, h.reserved_ne, ?_⟩
      · simpa using h.entry_lt
      · simpa using h.exit_lt
      · simpa using h.current_lt
      · intro t ht
        simpa using h.loops_lt ht
      · intro c hc
        obtain ⟨block, hblock, hopen⟩ := h.reserved_open hc
        have hne : b ≠ c := fun hbc => hreserved (hbc ▸ hc)
        simp only [Graph.block?_endWith, hblock]
        exact ⟨_, rfl, by simpa [hne] using hopen⟩
  | @move d b reserved _ =>
      have hnodup := List.nodup_cons.1 h.reserved_nodup
      refine ⟨h.built, h.linked, h.entry_lt, h.exit_lt, h.reserved_lt List.mem_cons_self,
        h.loops_lt, hnodup.2, ?_, fun hc => h.reserved_open (List.mem_cons_of_mem _ hc)⟩
      rintro c hc rfl
      exact hnodup.1 hc
  | retarget loops hloops =>
      exact ⟨h.built, h.linked, h.entry_lt, h.exit_lt, h.current_lt, fun ht => hloops _ ht,
        h.reserved_nodup, h.reserved_ne, h.reserved_open⟩

theorem Sound.run (h : s.Sound) (hrun : Run m s s') : s'.Sound := by
  induction hrun with
  | refl => exact h
  | tail _ hstep ih => exact ih.step hstep

theorem Step.extends (hstep : Step m s s') :
    s.draft.graph.Extends s'.draft.graph := by
  cases hstep with
  | @emit d _ op _ _ =>
      refine ⟨by simp, by simp, rfl, fun {b block} hb => ?_⟩
      simp only [Graph.block?_addNode, hb]
      split
      · exact ⟨_, rfl, List.subset_append_left _ _, List.prefix_refl _⟩
      · exact ⟨_, rfl, List.Subset.refl _, List.prefix_refl _⟩
  | @reserve d before after =>
      refine ⟨Nat.le_refl _, by simp, rfl, fun {b block} hb => ?_⟩
      have hne : b ≠ d.graph.nextBlock := Nat.ne_of_lt (Graph.lt_nextBlock_of_block? hb)
      simp only [Graph.block?_addBlock, if_neg hne]
      exact ⟨_, hb, List.Subset.refl _, List.prefix_refl _⟩
  | @close d _ b t _ _ _ _ _ =>
      refine ⟨by simp [Graph.nextNode], by simp, by simp, fun {c block} hc => ?_⟩
      simp only [Graph.block?_endWith, hc]
      refine ⟨_, rfl, List.Subset.refl _, ?_⟩
      split
      · exact Block.prefix_foldl_adjoin _ _
      · exact List.prefix_refl _
  | move => exact Graph.Extends.refl _
  | retarget => exact Graph.Extends.refl _

theorem Run.extends (hrun : Run m s s') : s.draft.graph.Extends s'.draft.graph := by
  induction hrun with
  | refl => exact Graph.Extends.refl _
  | tail _ hstep ih => exact ih.trans hstep.extends

end Stage

end Disclosure
