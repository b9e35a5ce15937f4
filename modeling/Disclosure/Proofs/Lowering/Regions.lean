import Disclosure.Proofs.Graph.Growth
import Disclosure.Proofs.Lowering.Composition

/-!
# The blocks that an expression adds

The blocks of the conditionals in an expression form a region.  Control enters it only from the
block in which the lowering of the expression starts, and can come from there to every block of it;
the blocks outside of it, other than that block, are left as they were.

The arms of a conditional are parts of this kind as well: each of them is entered from the block in
which the condition is known, and so is the block in which they meet.
-/

namespace Disclosure

def Graph.IsOpenAt (g : Graph) (b : BlockId) : Prop :=
  ∃ block, g.block? b = some block ∧ block.terminator = none

theorem Graph.isOpenAt_addBlock (g : Graph) : g.addBlock.IsOpenAt g.nextBlock :=
  ⟨.fresh g.nextBlock, by rw [block?_addBlock, if_pos rfl], rfl⟩

theorem Graph.IsOpenAt.addBlock {g : Graph} {b : BlockId} (h : g.IsOpenAt b) :
    g.addBlock.IsOpenAt b := by
  obtain ⟨block, hblock, hterm⟩ := h
  have hne : b ≠ g.nextBlock := Nat.ne_of_lt (lt_nextBlock_of_block? hblock)
  exact ⟨block, by rw [block?_addBlock, if_neg hne, hblock], hterm⟩

theorem Graph.IsOpenAt.addNode {g : Graph} {b : BlockId} (h : g.IsOpenAt b) (c : BlockId)
    (op : Operation) : (g.addNode c op).IsOpenAt b := by
  obtain ⟨block, hblock, hterm⟩ := h
  rw [IsOpenAt, block?_addNode, hblock]
  split
  · exact ⟨_, rfl, hterm⟩
  · exact ⟨_, rfl, hterm⟩

theorem Graph.IsOpenAt.endWith {g : Graph} {b c : BlockId} (h : g.IsOpenAt b) (hne : c ≠ b)
    (t : Terminator) : (g.endWith c t).IsOpenAt b := by
  obtain ⟨block, hblock, hterm⟩ := h
  rw [IsOpenAt, block?_endWith, hblock]
  exact ⟨_, rfl, by simpa [hne] using hterm⟩

theorem Graph.IsOpenAt.isSome {g : Graph} {b : BlockId} (h : g.IsOpenAt b) :
    (g.block? b).isSome = true := by
  obtain ⟨block, hblock, -⟩ := h
  rw [hblock]
  rfl

/-- The entry is a block, and edges lead to blocks. -/
structure Graph.Enclosed (g : Graph) : Prop where
  entry_lt : g.entry < g.nextBlock
  succs_lt : ∀ {p b}, b ∈ g.succs p → b < g.nextBlock

theorem Graph.Enclosed.ne_entry {g : Graph} (h : g.Enclosed) {b : BlockId}
    (hb : g.nextBlock ≤ b) : b ≠ g.entry := by
  rintro rfl
  exact absurd h.entry_lt (Nat.not_lt_of_le hb)

theorem Graph.Grows.addBlock (closed : Set BlockId) (g : Graph) : g.Grows closed g.addBlock :=
  ⟨rfl, fun p => by simp, fun _ hedge => by simpa using hedge⟩

theorem Graph.Grows.endWith {g : Graph} {b : BlockId} {t : Terminator} {closed : Set BlockId}
    (ht : ∀ c ∈ t.targets g.exit, c ∉ closed) : g.Grows closed (g.endWith b t) where
  entry_eq := by simp
  succs_subset _ _ hc := mem_succs_endWith.2 (Or.inl hc)
  source {p c} hc hedge := by
    rcases mem_succs_endWith.1 hedge with hold | ⟨-, -, htarget⟩
    · exact hold
    · exact absurd hc (ht c htarget)

namespace Draft

def Added (d d' : Draft) : Set BlockId := {b | d.graph.nextBlock ≤ b ∧ b < d'.graph.nextBlock}

theorem mem_added {d d' : Draft} {b : BlockId} :
    b ∈ d.Added d' ↔ d.graph.nextBlock ≤ b ∧ b < d'.graph.nextBlock :=
  Iff.rfl

/-- From `d` to `d'` only the current block and new blocks were worked on, and edges were added to
new blocks only. -/
structure Spans (d d' : Draft) : Prop where
  nextBlock_le : d.graph.nextBlock ≤ d'.graph.nextBlock
  entry_eq : d'.graph.entry = d.graph.entry
  node?_eq : ∀ {n node}, d.graph.node? n = some node → d'.graph.node? n = some node
  current_mem : d'.current = d.current ∨ d'.current ∈ d.Added d'
  block?_eq : ∀ {b}, b < d.graph.nextBlock → b ≠ d.current → d'.graph.block? b = d.graph.block? b
  succs_subset : ∀ p, d.graph.succs p ⊆ d'.graph.succs p
  edge : ∀ {p b}, b ∈ d'.graph.succs p →
    b ∈ d.graph.succs p ∨ (b ∈ d.Added d' ∧ (p = d.current ∨ p ∈ d.Added d'))

namespace Spans

variable {d d' d'' : Draft} {b : BlockId}

theorem refl (d : Draft) : d.Spans d :=
  ⟨Nat.le_refl _, rfl, fun h => h, Or.inl rfl, fun _ _ => rfl, fun _ => List.Subset.refl _, Or.inl⟩

theorem current_ne (h : d.Spans d') (hb : b < d.graph.nextBlock) (hne : b ≠ d.current) :
    d'.current ≠ b := by
  rintro rfl
  rcases h.current_mem with hcurrent | hadded
  · exact hne hcurrent
  · exact absurd hb (Nat.not_lt_of_le hadded.1)

theorem added_trans (h : d.Spans d') (h' : d'.Spans d'') :
    b ∈ d.Added d' ∨ b ∈ d'.Added d'' → b ∈ d.Added d'' := by
  have hle := h.nextBlock_le
  have hle' := h'.nextBlock_le
  rintro (hb | hb)
  · exact ⟨hb.1, Nat.lt_of_lt_of_le hb.2 hle'⟩
  · exact ⟨Nat.le_trans hle hb.1, hb.2⟩

theorem added_union (h : d.Spans d') (h' : d'.Spans d'') :
    d.Added d' ∪ d'.Added d'' = d.Added d'' := by
  ext b
  refine ⟨h.added_trans h', fun hb => ?_⟩
  by_cases hold : b < d'.graph.nextBlock
  · exact Or.inl ⟨hb.1, hold⟩
  · exact Or.inr ⟨Nat.le_of_not_lt hold, hb.2⟩

theorem trans (h : d.Spans d') (h' : d'.Spans d'') : d.Spans d'' where
  nextBlock_le := Nat.le_trans h.nextBlock_le h'.nextBlock_le
  entry_eq := h'.entry_eq.trans h.entry_eq
  node?_eq hn := h'.node?_eq (h.node?_eq hn)
  current_mem := by
    rcases h'.current_mem with hcurrent | hadded
    · rw [hcurrent]
      exact h.current_mem.imp_right fun hb => h.added_trans h' (Or.inl hb)
    · exact Or.inr (h.added_trans h' (Or.inr hadded))
  block?_eq hb hne := by
    rw [h'.block?_eq (Nat.lt_of_lt_of_le hb h.nextBlock_le) (h.current_ne hb hne).symm,
      h.block?_eq hb hne]
  succs_subset p := List.Subset.trans (h.succs_subset p) (h'.succs_subset p)
  edge {p b} hedge := by
    rcases h'.edge hedge with hold | ⟨hb, hp⟩
    · rcases h.edge hold with hold | ⟨hb, hp⟩
      · exact Or.inl hold
      · exact Or.inr ⟨h.added_trans h' (Or.inl hb),
          hp.imp_right fun hp => h.added_trans h' (Or.inl hp)⟩
    · refine Or.inr ⟨h.added_trans h' (Or.inr hb), ?_⟩
      rcases hp with rfl | hp
      · exact h.current_mem.imp_right fun hp => h.added_trans h' (Or.inl hp)
      · exact Or.inr (h.added_trans h' (Or.inr hp))

theorem emit (h : d.Spans d') (op : Operation) :
    d.Spans { d' with graph := d'.graph.addNode d'.current op } where
  nextBlock_le := by simpa using h.nextBlock_le
  entry_eq := h.entry_eq
  node?_eq {n node} hn := by
    have hold := h.node?_eq hn
    rw [Graph.node?_addNode, if_neg (Nat.ne_of_lt (Graph.lt_nextNode_of_node? hold)), hold]
  current_mem := by simpa [Added] using h.current_mem
  block?_eq hb hne := by
    rw [Graph.block?_addNode, if_neg (h.current_ne hb hne), h.block?_eq hb hne]
  succs_subset p := by simpa using h.succs_subset p
  edge hedge := by simpa [Added] using h.edge (by simpa using hedge)

theorem addBlock (h : d.Spans d') : d.Spans { d' with graph := d'.graph.addBlock } := by
  have hadded : ∀ {b}, b ∈ d.Added d' → b ∈ d.Added { d' with graph := d'.graph.addBlock } :=
    fun hb => ⟨hb.1, by simpa using Nat.lt_succ_of_lt hb.2⟩
  refine ⟨by simpa using Nat.le_succ_of_le h.nextBlock_le, h.entry_eq, h.node?_eq,
    h.current_mem.imp_right hadded, fun {b} hb hne => ?_, fun p => by simpa using h.succs_subset p,
    fun hedge => ?_⟩
  · have hold : b ≠ d'.graph.nextBlock := Nat.ne_of_lt (Nat.lt_of_lt_of_le hb h.nextBlock_le)
    rw [Graph.block?_addBlock, if_neg hold, h.block?_eq hb hne]
  · rw [Graph.succs_addBlock] at hedge
    exact (h.edge hedge).imp_right fun ⟨hb, hp⟩ => ⟨hadded hb, hp.imp_right hadded⟩

theorem endCurrent (h : d.Spans d') {t : Terminator}
    (ht : ∀ c ∈ t.targets d'.graph.exit, c ∈ d.Added d') :
    d.Spans { d' with graph := d'.graph.endWith d'.current t } where
  nextBlock_le := by simpa using h.nextBlock_le
  entry_eq := by simpa using h.entry_eq
  node?_eq hn := by simpa [Graph.node?] using h.node?_eq hn
  current_mem := by simpa [Added] using h.current_mem
  block?_eq {b} hb hne := by
    have htargets : b ∉ t.targets d'.graph.exit := fun hmem =>
      absurd hb (Nat.not_lt_of_le (ht b hmem).1)
    rw [Graph.block?_endWith, ← h.block?_eq hb hne]
    cases d'.graph.block? b <;> simp [h.current_ne hb hne, htargets]
  succs_subset p b hb := Graph.mem_succs_endWith.2 (Or.inl (h.succs_subset p hb))
  edge {p b} hedge := by
    rcases Graph.mem_succs_endWith.1 hedge with hold | ⟨rfl, -, hb⟩
    · simpa [Added] using h.edge hold
    · refine Or.inr ⟨by simpa [Added] using ht b hb, by simpa [Added] using h.current_mem⟩

theorem moveTo (h : d.Spans d') (hb : b ∈ d.Added d') : d.Spans { d' with current := b } :=
  { h with current_mem := Or.inr hb }

theorem isOpenAt (h : d.Spans d') (hne : b ≠ d.current) (hopen : d.graph.IsOpenAt b) :
    d'.graph.IsOpenAt b := by
  obtain ⟨block, hblock, hterm⟩ := hopen
  exact ⟨block, (h.block?_eq (Graph.lt_nextBlock_of_block? hblock) hne).trans hblock, hterm⟩

theorem grows (h : d.Spans d') {closed : Set BlockId}
    (hlt : ∀ b ∈ closed, b < d.graph.nextBlock) : d.graph.Grows closed d'.graph where
  entry_eq := h.entry_eq
  succs_subset := h.succs_subset
  source {p b} hb hedge := by
    rcases h.edge hedge with hold | ⟨hadded, -⟩
    · exact hold
    · exact absurd (hlt b hb) (Nat.not_lt_of_le hadded.1)

theorem enclosed (h : d.Spans d') (hg : d.graph.Enclosed) : d'.graph.Enclosed where
  entry_lt := h.entry_eq ▸ Nat.lt_of_lt_of_le hg.entry_lt h.nextBlock_le
  succs_lt {p b} hedge := by
    rcases h.edge hedge with hold | ⟨hadded, -⟩
    · exact Nat.lt_of_lt_of_le (hg.succs_lt hold) h.nextBlock_le
    · exact hadded.2

theorem enteredFrom (h : d.Spans d') (hg : d.graph.Enclosed) :
    d'.graph.EnteredFrom d.current (d.Added d') where
  entry_notMem hentry := absurd (h.entry_eq ▸ hg.entry_lt) (Nat.not_lt_of_le hentry.1)
  source {p b} hb hedge := by
    rcases h.edge hedge with hold | ⟨-, hp⟩
    · exact absurd (hg.succs_lt hold) (Nat.not_lt_of_le hb.1)
    · exact hp.symm

/-- Together with the block that was current they are entered from where that one is entered. -/
theorem enteredFrom_insert (h : d.Spans d') (hg : d.graph.Enclosed) {c : BlockId}
    (hcurrent : d.current < d.graph.nextBlock) (hentry : d.current ≠ d.graph.entry)
    (hsource : ∀ {p}, d.current ∈ d.graph.succs p → p = c) :
    d'.graph.EnteredFrom c (insert d.current (d.Added d')) where
  entry_notMem hmem := by
    rcases hmem with heq | hadded
    · exact hentry (heq.symm.trans h.entry_eq)
    · exact (h.enteredFrom hg).entry_notMem hadded
  source {p b} hb hedge := by
    rcases hb with rfl | hb
    · rcases h.edge hedge with hold | ⟨hadded, -⟩
      · exact Or.inr (hsource hold)
      · exact absurd hcurrent (Nat.not_lt_of_le hadded.1)
    · rcases (h.enteredFrom hg).source hb hedge with hp | rfl
      · exact Or.inl (Set.mem_insert_of_mem _ hp)
      · exact Or.inl (Set.mem_insert _ _)

end Spans

end Draft

namespace Lowering

open Draft (Added Spans)

theorem jumpIfOpen_eq {d : Draft} (hopen : d.IsOpen) (target : BlockId) :
    jumpIfOpen target d =
      ((), { d with graph := d.graph.endWith d.current (.goto target) }) := by
  obtain ⟨⟨id, nodes, term, preds, succs⟩, hblock, hterm⟩ := hopen
  cases hterm
  simp only [jumpIfOpen, hblock]
  rfl

/-- What is known after the current block has branched to two new ones. -/
structure Forked (d : Draft) (thenBlock elseBlock merge : BlockId) (d' : Draft) : Prop where
  thenBlock_eq : thenBlock = d.graph.nextBlock
  elseBlock_eq : elseBlock = d.graph.nextBlock + 1
  merge_eq : merge = d.graph.nextBlock + 2
  nextBlock_eq : d'.graph.nextBlock = d.graph.nextBlock + 3
  current_eq : d'.current = d.current
  spans : d.Spans d'
  edge_iff : ∀ {p b}, b ∈ d'.graph.succs p ↔
    b ∈ d.graph.succs p ∨ (p = d.current ∧ (b = thenBlock ∨ b = elseBlock))
  isOpenAt : ∀ {b}, b ∈ d.Added d' → d'.graph.IsOpenAt b
  node?_eq : ∀ n, d'.graph.node? n = d.graph.node? n

namespace Forked

variable {d d' : Draft} {thenBlock elseBlock merge : BlockId}
  (h : Forked d thenBlock elseBlock merge d')

include h

theorem thenBlock_mem : thenBlock ∈ d.Added d' := by
  rw [Draft.mem_added, h.thenBlock_eq, h.nextBlock_eq]
  lia

theorem elseBlock_mem : elseBlock ∈ d.Added d' := by
  rw [Draft.mem_added, h.elseBlock_eq, h.nextBlock_eq]
  lia

theorem merge_mem : merge ∈ d.Added d' := by
  rw [Draft.mem_added, h.merge_eq, h.nextBlock_eq]
  lia

theorem elseBlock_ne : elseBlock ≠ thenBlock := by
  rw [h.thenBlock_eq, h.elseBlock_eq]
  lia

theorem merge_ne_thenBlock : merge ≠ thenBlock := by
  rw [h.thenBlock_eq, h.merge_eq]
  lia

theorem merge_ne_elseBlock : merge ≠ elseBlock := by
  rw [h.elseBlock_eq, h.merge_eq]
  lia

theorem isOpenAt_elseBlock {d'' : Draft} (h' : Spans { d' with current := thenBlock } d'') :
    (d''.graph.endWith d''.current (.goto merge)).IsOpenAt elseBlock :=
  Graph.IsOpenAt.endWith (h'.isOpenAt h.elseBlock_ne (h.isOpenAt h.elseBlock_mem))
    (h'.current_ne h.elseBlock_mem.2 h.elseBlock_ne) _

end Forked

theorem branchOn_eq (c : NodeId) (d : Draft) :
    branchOn c d =
      ((d.graph.nextBlock, d.graph.nextBlock + 1, d.graph.nextBlock + 2),
        { d with
          graph := d.graph.addBlock.addBlock.addBlock.endWith d.current
            (.branch c d.graph.nextBlock (d.graph.nextBlock + 1)) }) := by
  have hsecond : d.graph.addBlock.nextBlock = d.graph.nextBlock + 1 := d.graph.nextBlock_addBlock
  have hthird : d.graph.addBlock.addBlock.nextBlock = d.graph.nextBlock + 2 := by
    rw [Graph.nextBlock_addBlock, hsecond]
  rw [← hthird, ← hsecond]
  rfl

theorem forked_branchOn {d d' : Draft} {c : NodeId} {thenBlock elseBlock merge : BlockId}
    (hopen : d.IsOpen) (h : branchOn c d = ((thenBlock, elseBlock, merge), d')) :
    Forked d thenBlock elseBlock merge d' := by
  rw [branchOn_eq] at h
  cases h
  have hlt : d.current < d.graph.nextBlock := by
    obtain ⟨block, hblock, -⟩ := hopen
    exact Graph.lt_nextBlock_of_block? hblock
  have hnext : d.graph.addBlock.addBlock.addBlock.nextBlock = d.graph.nextBlock + 3 := by simp
  have hcurrent : d.graph.addBlock.addBlock.addBlock.IsOpenAt d.current :=
    Graph.IsOpenAt.addBlock (Graph.IsOpenAt.addBlock (Graph.IsOpenAt.addBlock hopen))
  refine ⟨rfl, rfl, rfl, by simp, rfl, ?_, ?_, ?_, fun n => by simp [Graph.node?, Graph.addBlock]⟩
  · refine (Spans.refl d).addBlock.addBlock.addBlock.endCurrent fun b hb => ?_
    simp only [Terminator.targets, List.mem_cons, List.not_mem_nil, or_false] at hb
    simp only [Draft.mem_added, hnext]
    lia
  · intro p b
    simp [Graph.mem_succs_endWith, Terminator.targets, hcurrent.isSome]
  · intro b hb
    simp only [Draft.mem_added, Graph.nextBlock_endWith, hnext] at hb
    have hnew : d.graph.addBlock.addBlock.addBlock.IsOpenAt b := by
      obtain rfl | rfl | rfl : b = d.graph.nextBlock ∨ b = d.graph.nextBlock + 1 ∨
          b = d.graph.nextBlock + 2 := by lia
      · exact d.graph.isOpenAt_addBlock.addBlock.addBlock
      · have hsecond := d.graph.addBlock.isOpenAt_addBlock.addBlock
        simpa using hsecond
      · have hthird := d.graph.addBlock.addBlock.isOpenAt_addBlock
        simpa using hthird
    exact hnew.endWith (by lia) _

/-- The blocks that were added form a region: control can come to all of them from the block that
was current, and the lowering ends in an open block. -/
structure Region (d d' : Draft) : Prop extends d.Spans d' where
  isOpen : d'.IsOpen
  leads : ∀ {b}, b ∈ d.Added d' → d'.graph.Leads d.current b

namespace Region

variable {d d' d'' : Draft}

theorem refl (hopen : d.IsOpen) : Region d d where
  toSpans := .refl d
  isOpen := hopen
  leads hb := absurd hb.2 (Nat.not_lt_of_le hb.1)

theorem leads_current (h : Region d d') : d'.graph.Leads d.current d'.current := by
  rcases h.current_mem with hcurrent | hadded
  · rw [hcurrent]
    exact .refl
  · exact h.leads hadded

theorem trans (h : Region d d') (h' : Region d' d'') : Region d d'' where
  toSpans := h.toSpans.trans h'.toSpans
  isOpen := h'.isOpen
  leads {b} hb := by
    by_cases hold : b < d'.graph.nextBlock
    · exact (h.leads ⟨hb.1, hold⟩).grows h'.succs_subset
    · exact (h.leads_current.grows h'.succs_subset).trans
        (h'.leads ⟨Nat.le_of_not_lt hold, hb.2⟩)

theorem emit (h : Region d d') (op : Operation) :
    Region d { d' with graph := d'.graph.addNode d'.current op } where
  toSpans := h.toSpans.emit op
  isOpen := Graph.IsOpenAt.addNode h.isOpen _ _
  leads hb := (h.leads (by simpa [Added] using hb)).grows fun p => by simp

end Region

/-- The drafts on the way through a conditional, from the one in which its condition is known. -/
structure Conditional (thenBlock elseBlock merge : BlockId) (d₁ d₂ d₃ d₄ d₅ d₆ : Draft) :
    Prop where
  fork : Forked d₁ thenBlock elseBlock merge d₂
  thenArm : Region { d₂ with current := thenBlock } d₃
  jump : d₄ = { d₃ with graph := d₃.graph.endWith d₃.current (.goto merge) }
  elseArm : Region { d₄ with current := elseBlock } d₅
  jump' : d₆ = { d₅ with graph := d₅.graph.endWith d₅.current (.goto merge) }

namespace Conditional

variable {c : NodeId} {thenBlock elseBlock merge : BlockId} {d₁ d₂ d₃ d₄ d₅ d₆ : Draft}

theorem of_isOpen (hopen : d₁.IsOpen)
    (hbranch : branchOn c d₁ = ((thenBlock, elseBlock, merge), d₂))
    (hthen : Draft.IsOpen { d₂ with current := thenBlock } →
      Region { d₂ with current := thenBlock } d₃)
    (hjump : jumpIfOpen merge d₃ = ((), d₄))
    (helse : Draft.IsOpen { d₄ with current := elseBlock } →
      Region { d₄ with current := elseBlock } d₅)
    (hjump' : jumpIfOpen merge d₅ = ((), d₆)) :
    Conditional thenBlock elseBlock merge d₁ d₂ d₃ d₄ d₅ d₆ := by
  have hfork := forked_branchOn hopen hbranch
  have hx := hthen (hfork.isOpenAt hfork.thenBlock_mem)
  rw [jumpIfOpen_eq hx.isOpen] at hjump
  obtain rfl : _ = d₄ := (Prod.mk.inj hjump).2
  have hy := helse (hfork.isOpenAt_elseBlock hx.toSpans)
  rw [jumpIfOpen_eq hy.isOpen] at hjump'
  exact ⟨hfork, hx, rfl, hy, (Prod.mk.inj hjump').2.symm⟩

variable (h : Conditional thenBlock elseBlock merge d₁ d₂ d₃ d₄ d₅ d₆)

include h

theorem isOpen_thenBlock : Draft.IsOpen { d₂ with current := thenBlock } :=
  h.fork.isOpenAt h.fork.thenBlock_mem

theorem isOpen_elseBlock : Draft.IsOpen { d₄ with current := elseBlock } := by
  rw [h.jump]
  exact h.fork.isOpenAt_elseBlock h.thenArm.toSpans

theorem spans_thenArm : d₁.Spans d₃ :=
  (h.fork.spans.moveTo h.fork.thenBlock_mem).trans h.thenArm.toSpans

theorem merge_mem_thenArm : merge ∈ d₁.Added d₃ :=
  ⟨h.fork.merge_mem.1, Nat.lt_of_lt_of_le h.fork.merge_mem.2 h.thenArm.nextBlock_le⟩

theorem spans_jump : d₁.Spans d₄ := by
  rw [h.jump]
  exact h.spans_thenArm.endCurrent (by simpa [Terminator.targets] using h.merge_mem_thenArm)

theorem elseBlock_mem_jump : elseBlock ∈ d₁.Added d₄ := by
  refine ⟨h.fork.elseBlock_mem.1, Nat.lt_of_lt_of_le h.fork.elseBlock_mem.2 ?_⟩
  rw [h.jump, Graph.nextBlock_endWith]
  exact h.thenArm.nextBlock_le

theorem spans_elseArm : d₁.Spans d₅ :=
  (h.spans_jump.moveTo h.elseBlock_mem_jump).trans h.elseArm.toSpans

theorem nextBlock_jump : d₄.graph.nextBlock = d₃.graph.nextBlock := by
  rw [h.jump, Graph.nextBlock_endWith]

theorem merge_mem_elseArm : merge ∈ d₁.Added d₅ := by
  refine ⟨h.fork.merge_mem.1, Nat.lt_of_lt_of_le h.merge_mem_thenArm.2 ?_⟩
  rw [← h.nextBlock_jump]
  exact h.elseArm.nextBlock_le

theorem nextBlock_end : d₆.graph.nextBlock = d₅.graph.nextBlock := by
  rw [h.jump', Graph.nextBlock_endWith]

theorem merge_mem_end : merge ∈ d₁.Added d₆ :=
  ⟨h.fork.merge_mem.1, h.nextBlock_end ▸ h.merge_mem_elseArm.2⟩

theorem spans : d₁.Spans { d₆ with current := merge } := by
  have hend := h.spans_elseArm.endCurrent (t := .goto merge)
    (by simpa [Terminator.targets] using h.merge_mem_elseArm)
  rw [← h.jump'] at hend
  exact hend.moveTo h.merge_mem_end

theorem edge_thenArm : merge ∈ d₄.graph.succs d₃.current := by
  rw [h.jump]
  exact Graph.mem_succs_endWith.2
    (Or.inr ⟨rfl, Graph.IsOpenAt.isSome h.thenArm.isOpen, by simp [Terminator.targets]⟩)

theorem edge_elseArm : merge ∈ d₆.graph.succs d₅.current := by
  rw [h.jump']
  exact Graph.mem_succs_endWith.2
    (Or.inr ⟨rfl, Graph.IsOpenAt.isSome h.elseArm.isOpen, by simp [Terminator.targets]⟩)

theorem grows_jump {closed : Set BlockId} (hmerge : merge ∉ closed) :
    d₃.graph.Grows closed d₄.graph := by
  rw [h.jump]
  exact .endWith fun b hb => List.mem_singleton.1 hb ▸ hmerge

theorem grows_elseArm {closed : Set BlockId} (hmerge : merge ∉ closed) :
    d₅.graph.Grows closed d₆.graph := by
  rw [h.jump']
  exact .endWith fun b hb => List.mem_singleton.1 hb ▸ hmerge

theorem grows_thenArm {closed : Set BlockId} (hlt : ∀ b ∈ closed, b < d₃.graph.nextBlock)
    (hmerge : merge ∉ closed) : d₃.graph.Grows closed d₆.graph :=
  ((h.grows_jump hmerge).trans (h.elseArm.grows fun b hb => h.nextBlock_jump ▸ hlt b hb)).trans
    (h.grows_elseArm hmerge)

theorem node?_jump (n : NodeId) : d₄.graph.node? n = d₃.graph.node? n := by
  rw [h.jump]
  simp [Graph.node?]

theorem node?_end (n : NodeId) : d₆.graph.node? n = d₅.graph.node? n := by
  rw [h.jump']
  simp [Graph.node?]

theorem nextBlock_thenArm_le : d₃.graph.nextBlock ≤ d₆.graph.nextBlock := by
  rw [h.nextBlock_end, ← h.nextBlock_jump]
  exact h.elseArm.nextBlock_le

theorem succs_subset_thenArm (p : BlockId) : d₃.graph.succs p ⊆ d₆.graph.succs p := by
  have hgrows : d₃.graph.Grows ∅ d₆.graph := h.grows_thenArm (fun _ hb => hb.elim) id
  exact hgrows.succs_subset p

theorem succs_subset_elseArm (p : BlockId) : d₅.graph.succs p ⊆ d₆.graph.succs p := by
  have hgrows : d₅.graph.Grows ∅ d₆.graph := h.grows_elseArm id
  exact hgrows.succs_subset p

theorem leads_thenBlock : d₆.graph.Leads d₁.current thenBlock :=
  .single (h.succs_subset_thenArm _ (h.thenArm.succs_subset _
    (h.fork.edge_iff.2 (Or.inr ⟨rfl, Or.inl rfl⟩))))

theorem leads_elseBlock : d₆.graph.Leads d₁.current elseBlock :=
  .single (h.succs_subset_thenArm _ (h.thenArm.succs_subset _
    (h.fork.edge_iff.2 (Or.inr ⟨rfl, Or.inr rfl⟩))))

theorem leads_thenArm : d₆.graph.Leads d₁.current d₃.current :=
  h.leads_thenBlock.trans (h.thenArm.leads_current.grows h.succs_subset_thenArm)

theorem leads_elseArm : d₆.graph.Leads d₁.current d₅.current :=
  h.leads_elseBlock.trans (h.elseArm.leads_current.grows h.succs_subset_elseArm)

theorem region : Region d₁ { d₆ with current := merge } where
  toSpans := h.spans
  isOpen := by
    -- neither of the arms works on the block in which they meet
    have hthen : d₃.graph.IsOpenAt merge :=
      h.thenArm.isOpenAt h.fork.merge_ne_thenBlock (h.fork.isOpenAt h.fork.merge_mem)
    have hjump : d₄.graph.IsOpenAt merge := by
      rw [h.jump]
      exact hthen.endWith
        (h.thenArm.current_ne h.fork.merge_mem.2 h.fork.merge_ne_thenBlock) _
    have helse : d₅.graph.IsOpenAt merge := h.elseArm.isOpenAt h.fork.merge_ne_elseBlock hjump
    have hlt : merge < d₄.graph.nextBlock := h.nextBlock_jump ▸ h.merge_mem_thenArm.2
    have hend : d₆.graph.IsOpenAt merge := by
      rw [h.jump']
      exact helse.endWith (h.elseArm.current_ne hlt h.fork.merge_ne_elseBlock) _
    exact hend
  leads {b} hb := by
    have hlast : b < d₅.graph.nextBlock := h.nextBlock_end ▸ hb.2
    by_cases hfork : b < d₂.graph.nextBlock
    · have hcases : b = thenBlock ∨ b = elseBlock ∨ b = merge := by
        have hfirst : d₁.graph.nextBlock ≤ b := hb.1
        rw [h.fork.nextBlock_eq] at hfork
        rw [h.fork.thenBlock_eq, h.fork.elseBlock_eq, h.fork.merge_eq]
        lia
      rcases hcases with rfl | rfl | rfl
      · exact h.leads_thenBlock
      · exact h.leads_elseBlock
      · exact h.leads_elseArm.tail h.edge_elseArm
    · by_cases hthen : b < d₃.graph.nextBlock
      · have hin := h.thenArm.leads ⟨Nat.le_of_not_lt hfork, hthen⟩
        exact h.leads_thenBlock.trans (hin.grows h.succs_subset_thenArm)
      · have hle : d₄.graph.nextBlock ≤ b := h.nextBlock_jump ▸ Nat.le_of_not_lt hthen
        have hin := h.elseArm.leads ⟨hle, hlast⟩
        exact h.leads_elseBlock.trans (hin.grows h.succs_subset_elseArm)

end Conditional

theorem Composed.region {straight : Prop} {d d' : Draft} {ns : List NodeId}
    (h : Composed straight d ns d') (hopen : d.IsOpen) : Region d d' := by
  induction h with
  | nil d => exact .refl hopen
  | emit op _ _ ih => exact (ih hopen).emit op
  | append _ _ ih ih' => exact (ih hopen).trans (ih' (ih hopen).isOpen)
  | subset _ _ ih => exact ih hopen
  | choice _ hbranch _ hjump _ hjump' ih ihthen ihelse =>
      have hcondition := ih hopen
      exact hcondition.trans
        (Conditional.of_isOpen hcondition.isOpen hbranch ihthen hjump ihelse hjump').region

end Lowering

end Disclosure
