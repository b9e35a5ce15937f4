import Disclosure.Proofs.Graph.WellFormed
import Disclosure.Proofs.Lowering.Composition

/-!
# Where the construction works

While statements are lowered, nodes are added to the current block and to blocks that are new; these
are also the only blocks that end.  Edges lead to new blocks, to the exit and to the targets of
jumps.  So if `own` is a set with the current block and all blocks that are still to come, and
`landing` one with the targets and the blocks still to come, then the construction works in `own`
and its edges lead into `landing`.  All other blocks stay as they are, but for the predecessors that
they get (`Graph.Alters`).

Whatever a node or a terminator names has been added before (`Graph.Coherent`).
-/

namespace Disclosure

open Relation (ReflTransGen)

namespace Draft

/-- What a step of the construction may do that works in `own` and adds edges into `landing`. -/
inductive Work (own landing : Set BlockId) : Draft → Draft → Prop where
  | emit {d : Draft} (op : Operation) (hcurrent : d.current ∈ own)
      (hoperands : ∀ n ∈ op.operands, n < d.graph.nextNode) :
      Work own landing d { d with graph := d.graph.addNode d.current op }
  | addBlock {d : Draft} : Work own landing d { d with graph := d.graph.addBlock }
  | close {d : Draft} (b : BlockId) (t : Terminator) (hb : b ∈ own)
      (htargets : ∀ c ∈ t.targets d.graph.exit, c ∈ landing)
      (hoperands : ∀ n ∈ t.operands, n < d.graph.nextNode) :
      Work own landing d { d with graph := d.graph.endWith b t }
  | move {d : Draft} (b : BlockId) (hb : b ∈ own) : Work own landing d { d with current := b }
  | retarget {d : Draft} (loops : List JumpTargets)
      (hloops : ∀ {t}, t ∈ loops → t.next ∈ landing ∧ t.done ∈ landing) :
      Work own landing d { d with loops := loops }

/-- The construction is in a block of `own`, it may jump into `landing`, and the blocks that are
still to come are in both. -/
structure Fits (own landing : Set BlockId) (d : Draft) : Prop where
  current_mem : d.current ∈ own
  exit_mem : d.graph.exit ∈ landing
  loops_mem : ∀ {t}, t ∈ d.loops → t.next ∈ landing ∧ t.done ∈ landing
  young_mem : ∀ {b}, d.graph.nextBlock ≤ b → b ∈ own ∧ b ∈ landing

variable {own landing : Set BlockId} {d d' d'' : Draft}

theorem Fits.step (h : d.Fits own landing) (hstep : Work own landing d d') :
    d'.Fits own landing := by
  cases hstep with
  | emit op hcurrent hoperands =>
      exact ⟨hcurrent, h.exit_mem, h.loops_mem, fun hb => h.young_mem (by simpa using hb)⟩
  | addBlock =>
      refine ⟨h.current_mem, h.exit_mem, h.loops_mem, fun hb => h.young_mem ?_⟩
      rw [Graph.nextBlock_addBlock] at hb
      exact Nat.le_of_succ_le hb
  | close b t hb htargets hoperands =>
      refine ⟨h.current_mem, ?_, h.loops_mem, fun hc => h.young_mem (by simpa using hc)⟩
      rw [Graph.exit_endWith]
      exact h.exit_mem
  | move b hb => exact ⟨hb, h.exit_mem, h.loops_mem, h.young_mem⟩
  | retarget loops hloops => exact ⟨h.current_mem, h.exit_mem, hloops, h.young_mem⟩

theorem Work.nextNode_le (hstep : Work own landing d d') :
    d.graph.nextNode ≤ d'.graph.nextNode := by
  cases hstep with
  | emit => simp
  | close => simp [Graph.nextNode]
  | addBlock | move | retarget => exact Nat.le_refl _

/-- Steps that work in `own` and add edges into `landing` have led from `d` to `d'`. -/
structure WorksIn (own landing : Set BlockId) (d d' : Draft) : Prop where
  run : ReflTransGen (Work own landing) d d'
  fits : d'.Fits own landing

namespace WorksIn

theorem refl (h : d.Fits own landing) : d.WorksIn own landing d := ⟨.refl, h⟩

theorem trans (h : d.WorksIn own landing d') (h' : d'.WorksIn own landing d'') :
    d.WorksIn own landing d'' :=
  ⟨h.run.trans h'.run, h'.fits⟩

theorem step (h : d.WorksIn own landing d') (hstep : Work own landing d' d'') :
    d.WorksIn own landing d'' :=
  ⟨h.run.tail hstep, h.fits.step hstep⟩

theorem nextNode_le (h : d.WorksIn own landing d') : d.graph.nextNode ≤ d'.graph.nextNode := by
  obtain ⟨hrun, -⟩ := h
  induction hrun with
  | refl => exact Nat.le_refl _
  | tail _ hstep ih => exact Nat.le_trans ih hstep.nextNode_le

end WorksIn

end Draft

/-! ## What work keeps -/

namespace Graph

/-- The second graph comes from the first by work in `own` that adds edges into `landing`. -/
structure Alters (own landing : Set BlockId) (g g' : Graph) : Prop where
  entry_eq : g'.entry = g.entry
  exit_eq : g'.exit = g.exit
  method_eq : g'.method = g.method
  params_eq : g'.params = g.params
  nodes_prefix : g.nodes.toList <+: g'.nodes.toList
  nextBlock_le : g.nextBlock ≤ g'.nextBlock
  /-- Blocks that are not worked in get predecessors only. -/
  outside : ∀ {b block}, b ∉ own → g.block? b = some block → ∃ more, (∀ p ∈ more, p ∈ own) ∧
    g'.block? b = some { block with preds := block.preds ++ more }
  preds_eq : ∀ {b block}, b ∉ landing → g.block? b = some block → ∃ block',
    g'.block? b = some block' ∧ block'.preds = block.preds

/-- Nodes and terminators name nodes that were added before them, and the blocks that a terminator
names are successors. -/
structure Coherent (g : Graph) : Prop where
  operandsEarlier : g.OperandsEarlier
  tests_lt : ∀ {b block t n}, g.block? b = some block → block.terminator = some t →
    n ∈ t.operands → n < g.nextNode
  targets_subset : ∀ {b block}, g.block? b = some block → block.targets g.exit ⊆ block.succs

variable {own landing : Set BlockId} {g g' g'' : Graph}

namespace Alters

theorem refl (own landing : Set BlockId) (g : Graph) : g.Alters own landing g where
  entry_eq := rfl
  exit_eq := rfl
  method_eq := rfl
  params_eq := rfl
  nodes_prefix := List.prefix_refl _
  nextBlock_le := Nat.le_refl _
  outside _ hb := ⟨[], by simp, by simpa using hb⟩
  preds_eq _ hb := ⟨_, hb, rfl⟩

theorem trans (h : g.Alters own landing g') (h' : g'.Alters own landing g'') :
    g.Alters own landing g'' where
  entry_eq := h'.entry_eq.trans h.entry_eq
  exit_eq := h'.exit_eq.trans h.exit_eq
  method_eq := h'.method_eq.trans h.method_eq
  params_eq := h'.params_eq.trans h.params_eq
  nodes_prefix := h.nodes_prefix.trans h'.nodes_prefix
  nextBlock_le := Nat.le_trans h.nextBlock_le h'.nextBlock_le
  outside hb hblock := by
    obtain ⟨more, hmore, hmid⟩ := h.outside hb hblock
    obtain ⟨more', hmore', hend⟩ := h'.outside hb hmid
    refine ⟨more ++ more', fun p hp => ?_, by rw [hend, List.append_assoc]⟩
    exact (List.mem_append.1 hp).elim (hmore p) (hmore' p)
  preds_eq hb hblock := by
    obtain ⟨block', hmid, hpreds⟩ := h.preds_eq hb hblock
    obtain ⟨block'', hend, hpreds'⟩ := h'.preds_eq hb hmid
    exact ⟨block'', hend, hpreds'.trans hpreds⟩

theorem addNode (g : Graph) {b : BlockId} (hb : b ∈ own) (op : Operation) :
    g.Alters own landing (g.addNode b op) where
  entry_eq := rfl
  exit_eq := rfl
  method_eq := rfl
  params_eq := rfl
  nodes_prefix := by simp [Graph.addNode]
  nextBlock_le := by simp
  outside hc hblock := by
    refine ⟨[], by simp, ?_⟩
    rw [block?_addNode, if_neg (ne_of_mem_of_not_mem hb hc), hblock, List.append_nil]
  preds_eq _ hblock := by
    rw [block?_addNode, hblock]
    split
    · exact ⟨_, rfl, rfl⟩
    · exact ⟨_, rfl, rfl⟩

theorem addBlock (own landing : Set BlockId) (g : Graph) : g.Alters own landing g.addBlock := by
  have hsame : ∀ {b block}, g.block? b = some block → g.addBlock.block? b = some block := by
    intro b block hblock
    rw [block?_addBlock, if_neg (Nat.ne_of_lt (lt_nextBlock_of_block? hblock)), hblock]
  exact ⟨rfl, rfl, rfl, rfl, List.prefix_refl _, by simp,
    fun _ hblock => ⟨[], by simp, by simpa using hsame hblock⟩,
    fun _ hblock => ⟨_, hsame hblock, rfl⟩⟩

theorem endWith (g : Graph) {b : BlockId} (hb : b ∈ own) {t : Terminator}
    (ht : ∀ c ∈ t.targets g.exit, c ∈ landing) : g.Alters own landing (g.endWith b t) where
  entry_eq := g.entry_endWith b t
  exit_eq := g.exit_endWith b t
  method_eq := by rw [Graph.endWith, foldl_addEdge_eq]; rfl
  params_eq := by rw [Graph.endWith, foldl_addEdge_eq]; rfl
  nodes_prefix := by simp
  nextBlock_le := by simp
  outside {c block} hc hblock := by
    have hne : b ≠ c := ne_of_mem_of_not_mem hb hc
    have hadjoin : ∃ more, (∀ p ∈ more, p ∈ own) ∧
        (if c ∈ t.targets g.exit then Block.adjoin block.preds b else block.preds) =
          block.preds ++ more := by
      by_cases hnew : c ∈ t.targets g.exit ∧ b ∉ block.preds
      · exact ⟨[b], by simpa using hb, by simp [hnew.1, hnew.2, Block.adjoin]⟩
      · refine ⟨[], by simp, ?_⟩
        by_cases hc : c ∈ t.targets g.exit
        · simp [hc, Block.adjoin, not_not.1 fun hmem => hnew ⟨hc, hmem⟩]
        · simp [hc]
    obtain ⟨more, hmore, hpreds⟩ := hadjoin
    refine ⟨more, hmore, ?_⟩
    rw [block?_endWith, hblock, Option.map_some]
    simp only [if_neg hne, hpreds]
  preds_eq {c block} hc hblock := by
    have hnot : c ∉ t.targets g.exit := fun hmem => hc (ht c hmem)
    rw [block?_endWith, hblock, Option.map_some]
    exact ⟨_, rfl, if_neg hnot⟩

end Alters

namespace Coherent

theorem addNode (h : g.Coherent) (b : BlockId) {op : Operation}
    (hop : ∀ n ∈ op.operands, n < g.nextNode) : (g.addNode b op).Coherent := by
  have hold : ∀ {c block'}, (g.addNode b op).block? c = some block' → ∃ block,
      g.block? c = some block ∧ block'.terminator = block.terminator ∧
        block'.succs = block.succs := by
    intro c block' hc
    rw [block?_addNode] at hc
    split at hc
    · obtain ⟨block, hblock, rfl⟩ := Option.map_eq_some_iff.1 hc
      exact ⟨block, hblock, rfl, rfl⟩
    · exact ⟨block', hc, rfl, rfl⟩
  refine ⟨fun n node hn o ho => ?_, fun hc ht hn => ?_, fun hc => ?_⟩
  · rw [node?_addNode] at hn
    split at hn
    · rename_i hnew
      cases hn
      exact hnew ▸ hop o ho
    · exact h.operandsEarlier n node hn o ho
  · obtain ⟨block, hblock, hterm, -⟩ := hold hc
    rw [nextNode_addNode]
    exact Nat.lt_succ_of_lt (h.tests_lt hblock (hterm ▸ ht) hn)
  · obtain ⟨block, hblock, hterm, hsuccs⟩ := hold hc
    have hsub := h.targets_subset hblock
    rw [Block.targets] at hsub ⊢
    rwa [hterm, hsuccs]

theorem addBlock (h : g.Coherent) : g.addBlock.Coherent := by
  have hold : ∀ {c block'}, g.addBlock.block? c = some block' →
      block' = .fresh c ∨ g.block? c = some block' := by
    intro c block' hc
    rw [block?_addBlock] at hc
    split at hc
    · cases hc
      exact Or.inl rfl
    · exact Or.inr hc
  refine ⟨h.operandsEarlier, fun hc ht hn => ?_, fun hc => ?_⟩
  · rcases hold hc with rfl | hblock
    · cases ht
    · exact h.tests_lt hblock ht hn
  · rcases hold hc with rfl | hblock
    · exact List.nil_subset _
    · exact h.targets_subset hblock

theorem endWith (h : g.Coherent) (b : BlockId) {t : Terminator}
    (ht : ∀ n ∈ t.operands, n < g.nextNode) : (g.endWith b t).Coherent := by
  have hnext : (g.endWith b t).nextNode = g.nextNode := by simp [nextNode]
  refine ⟨?_, fun {c block' t' n} hc ht' hn => ?_, fun {c block'} hc => ?_⟩
  · intro n node hn
    rw [node?, nodes_endWith] at hn
    exact h.operandsEarlier n node hn
  · rw [block?_endWith] at hc
    obtain ⟨block, hblock, rfl⟩ := Option.map_eq_some_iff.1 hc
    rw [hnext]
    by_cases hbc : b = c
    · simp only [if_pos hbc, Option.some.injEq] at ht'
      exact ht n (ht' ▸ hn)
    · simp only [if_neg hbc] at ht'
      exact h.tests_lt hblock ht' hn
  · rw [block?_endWith] at hc
    obtain ⟨block, hblock, rfl⟩ := Option.map_eq_some_iff.1 hc
    rw [exit_endWith]
    by_cases hbc : b = c
    · intro x hx
      simp only [Block.targets, if_pos hbc] at hx ⊢
      exact Block.mem_foldl_adjoin.2 (Or.inr hx)
    · have hsub := h.targets_subset hblock
      simp only [Block.targets, if_neg hbc] at hsub ⊢
      exact hsub

end Coherent

end Graph

namespace Draft

variable {own landing : Set BlockId} {d d' : Draft}

theorem Work.alters (hstep : Work own landing d d') : d.graph.Alters own landing d'.graph := by
  cases hstep with
  | emit op hcurrent hoperands => exact .addNode _ hcurrent op
  | addBlock => exact .addBlock own landing _
  | close b t hb htargets hoperands => exact .endWith _ hb htargets
  | move | retarget => exact .refl own landing _

theorem WorksIn.alters (h : d.WorksIn own landing d') : d.graph.Alters own landing d'.graph := by
  obtain ⟨hrun, -⟩ := h
  induction hrun with
  | refl => exact .refl own landing _
  | tail _ hstep ih => exact ih.trans hstep.alters

theorem Work.coherent (hstep : Work own landing d d') (h : d.graph.Coherent) :
    d'.graph.Coherent := by
  cases hstep with
  | emit op hcurrent hoperands => exact h.addNode _ hoperands
  | addBlock => exact h.addBlock
  | close b t hb htargets hoperands => exact h.endWith b hoperands
  | move | retarget => exact h

theorem WorksIn.coherent (h : d.WorksIn own landing d') (hd : d.graph.Coherent) :
    d'.graph.Coherent := by
  obtain ⟨hrun, -⟩ := h
  induction hrun with
  | refl => exact hd
  | tail _ hstep ih => exact hstep.coherent ih

end Draft

/-! ## The building blocks -/

namespace Lowering

open Draft (Fits WorksIn Work)

variable {own landing : Set BlockId} {d d' : Draft}

theorem newBlock_worksIn (h : d.Fits own landing) :
    Ensures d newBlock fun b d' => d.WorksIn own landing d' ∧ b ∈ own ∧ b ∈ landing :=
  ⟨(WorksIn.refl h).step .addBlock, h.young_mem (Nat.le_refl _)⟩

theorem newBlocks_worksIn (n : Nat) (h : d.Fits own landing) :
    Ensures d (newBlocks n) fun bs d' =>
      d.WorksIn own landing d' ∧ ∀ b ∈ bs, b ∈ own ∧ b ∈ landing := by
  induction n generalizing d with
  | zero => exact ⟨.refl h, fun b hb => absurd hb List.not_mem_nil⟩
  | succ n ih =>
      rw [newBlocks]
      refine (newBlock_worksIn h).bind ?_
      rintro b d₁ ⟨h₁, hb⟩
      refine (ih h₁.fits).bind ?_
      rintro bs d₂ ⟨h₂, hbs⟩
      refine ⟨h₁.trans h₂, fun c hc => ?_⟩
      rcases List.mem_cons.1 hc with rfl | hc
      · exact hb
      · exact hbs c hc

theorem emit_worksIn (h : d.Fits own landing) {op : Operation}
    (hop : ∀ n ∈ op.operands, n < d.graph.nextNode) :
    Ensures d (emit op) fun n d' => d.WorksIn own landing d' ∧ n < d'.graph.nextNode :=
  ⟨(WorksIn.refl h).step (.emit op h.current_mem hop), by simp [emit]⟩

theorem moveTo_worksIn (h : d.Fits own landing) {b : BlockId} (hb : b ∈ own) :
    Ensures d (moveTo b) fun _ d' => d.WorksIn own landing d' :=
  (WorksIn.refl h).step (.move b hb)

theorem endBlock_worksIn (h : d.Fits own landing) {b : BlockId} (hb : b ∈ own) (t : Terminator)
    (ht : ∀ c ∈ t.targets d.graph.exit, c ∈ landing)
    (hoperands : ∀ n ∈ t.operands, n < d.graph.nextNode) :
    Ensures d (endBlock b t (t.targets d.graph.exit)) fun _ d' => d.WorksIn own landing d' :=
  (WorksIn.refl h).step (.close b t hb ht hoperands)

theorem endCurrent_worksIn (h : d.Fits own landing) (t : Terminator)
    (ht : ∀ c ∈ t.targets d.graph.exit, c ∈ landing)
    (hoperands : ∀ n ∈ t.operands, n < d.graph.nextNode) :
    Ensures d (endCurrent t (t.targets d.graph.exit)) fun _ d' => d.WorksIn own landing d' :=
  endBlock_worksIn h h.current_mem t ht hoperands

theorem jumpIfOpen_worksIn (h : d.Fits own landing) {target : BlockId} (ht : target ∈ landing) :
    Ensures d (jumpIfOpen target) fun _ d' => d.WorksIn own landing d' := by
  have hjump := endCurrent_worksIn h (.goto target) (by simpa [Terminator.targets] using ht)
    (by simp [Terminator.operands])
  rw [Ensures, jumpIfOpen]
  split
  · exact hjump
  · exact .refl h

theorem branchOn_worksIn (h : d.Fits own landing) {condition : NodeId}
    (hcondition : condition < d.graph.nextNode) :
    Ensures d (branchOn condition) fun targets d' => d.WorksIn own landing d' ∧
      ∀ b ∈ [targets.1, targets.2.1, targets.2.2], b ∈ own ∧ b ∈ landing := by
  refine (newBlock_worksIn h).bind ?_
  rintro thenBlock d₁ ⟨h₁, hthen⟩
  refine (newBlock_worksIn h₁.fits).bind ?_
  rintro elseBlock d₂ ⟨h₂, helse⟩
  refine (newBlock_worksIn h₂.fits).bind ?_
  rintro merge d₃ ⟨h₃, hmerge⟩
  have hstart := (h₁.trans h₂).trans h₃
  refine (endCurrent_worksIn h₃.fits (.branch condition thenBlock elseBlock) ?_ ?_).bind ?_
  · simpa [Terminator.targets] using ⟨hthen.2, helse.2⟩
  · simpa [Terminator.operands] using Nat.lt_of_lt_of_le hcondition hstart.nextNode_le
  · intro _ d₄ h₄
    exact ⟨hstart.trans h₄, by simpa using ⟨hthen, helse, hmerge⟩⟩

theorem moveToNew_worksIn (h : d.Fits own landing) :
    Ensures d moveToNew fun _ d' => d.WorksIn own landing d' := by
  refine (newBlock_worksIn h).bind ?_
  rintro b d₁ ⟨h₁, hb⟩
  exact (moveTo_worksIn h₁.fits hb.1).mono fun _ _ h₂ => h₁.trans h₂

theorem jumpOut_worksIn (h : d.Fits own landing) {target : JumpTargets → BlockId}
    (ht : ∀ t ∈ d.loops, target t ∈ landing) :
    Ensures d (jumpOut target) fun _ d' => d.WorksIn own landing d' := by
  rw [Ensures, jumpOut]
  cases hloops : d.loops with
  | nil => exact moveToNew_worksIn h
  | cons t rest =>
      have hland : target t ∈ landing := ht t (by simp [hloops])
      show Ensures d (do endCurrent (.goto (target t)) [target t]; moveToNew) fun _ d' =>
        d.WorksIn own landing d'
      refine (endCurrent_worksIn h (.goto (target t)) (by simpa [Terminator.targets] using hland)
        (by simp [Terminator.operands])).bind ?_
      intro _ d₁ h₁
      exact (moveToNew_worksIn h₁.fits).mono fun _ _ h₂ => h₁.trans h₂

theorem enclosingNext_mem (h : d.Fits own landing) {done : BlockId} (hdone : done ∈ landing) :
    Ensures d (enclosingNext done) fun next d' => d' = d ∧ next ∈ landing := by
  rw [Ensures, enclosingNext]
  cases hloops : d.loops with
  | nil => exact ⟨rfl, hdone⟩
  | cons t rest => exact ⟨rfl, (h.loops_mem (t := t) (by simp [hloops])).1⟩

theorem insideLoop_worksIn (h : d.Fits own landing) {t : JumpTargets} {body : Lowering Unit}
    (hnext : t.next ∈ landing) (hdone : t.done ∈ landing)
    (hbody : ∀ {d}, d.Fits own landing → Ensures d body fun _ d' => d.WorksIn own landing d') :
    Ensures d (insideLoop t body) fun _ d' => d.WorksIn own landing d' := by
  have henter : d.WorksIn own landing { d with loops := t :: d.loops } := by
    refine (WorksIn.refl h).step (.retarget _ fun ht' => ?_)
    rcases List.mem_cons.1 ht' with rfl | ht'
    · exact ⟨hnext, hdone⟩
    · exact h.loops_mem ht'
  have hinner := hbody henter.fits
  exact (henter.trans hinner).step
    (.retarget _ fun ht' => hinner.fits.loops_mem (List.mem_of_mem_tail ht'))

theorem finish_worksIn (h : d.Fits own landing) :
    Ensures d finish fun _ d' => d.WorksIn own landing d' := by
  have hleave := endCurrent_worksIn h (.leave none)
    (by simpa [Terminator.targets] using h.exit_mem) (by simp [Terminator.operands])
  rw [Ensures, finish]
  split
  · split
    · exact hleave
    · exact .refl h
  · exact .refl h

theorem Composed.worksIn {straight : Prop} {ns : List NodeId} (hc : Composed straight d ns d')
    (h : d.Fits own landing) :
    d.WorksIn own landing d' ∧ ∀ n ∈ ns, n < d'.graph.nextNode := by
  induction hc with
  | nil d => exact ⟨.refl h, by simp⟩
  | emit op _ hoperands ih =>
      obtain ⟨hwork, hns⟩ := ih h
      obtain ⟨hemit, hnew⟩ := emit_worksIn hwork.fits fun n hn => hns n (hoperands hn)
      refine ⟨hwork.trans hemit, fun n hn => ?_⟩
      rcases List.mem_cons.1 hn with rfl | hn
      · exact hnew
      · exact Nat.lt_of_lt_of_le (hns n hn) hemit.nextNode_le
  | append _ _ ih ih' =>
      obtain ⟨hwork, hns⟩ := ih h
      obtain ⟨hwork', hms⟩ := ih' hwork.fits
      refine ⟨hwork.trans hwork', fun n hn => ?_⟩
      rcases List.mem_append.1 hn with hn | hn
      · exact Nat.lt_of_lt_of_le (hns n hn) hwork'.nextNode_le
      · exact hms n hn
  | subset _ hsub ih => exact ⟨(ih h).1, fun n hn => (ih h).2 n (hsub hn)⟩
  | @choice _ _ _ d d₁ d₂ d₃ d₄ d₅ d₆ c x y thenBlock elseBlock merge _ hbranch _ hjump _ hjump'
      ihc iht ihe =>
      obtain ⟨hwork₁, hc⟩ := ihc h
      have hfork := branchOn_worksIn hwork₁.fits (hc c (by simp))
      rw [Ensures, hbranch] at hfork
      obtain ⟨hwork₂, hnew⟩ := hfork
      have hmove₃ := moveTo_worksIn hwork₂.fits (hnew thenBlock (by simp)).1
      obtain ⟨hwork₃, hx⟩ := iht hmove₃.fits
      have hwork₄ := jumpIfOpen_worksIn hwork₃.fits (hnew merge (by simp)).2
      rw [Ensures, hjump] at hwork₄
      have hmove₅ := moveTo_worksIn hwork₄.fits (hnew elseBlock (by simp)).1
      obtain ⟨hwork₅, hy⟩ := ihe hmove₅.fits
      have hwork₆ := jumpIfOpen_worksIn hwork₅.fits (hnew merge (by simp)).2
      rw [Ensures, hjump'] at hwork₆
      have hlast := moveTo_worksIn hwork₆.fits (hnew merge (by simp)).1
      have hrest := ((hwork₄.trans hmove₅).trans hwork₅).trans (hwork₆.trans hlast)
      refine ⟨((hwork₁.trans hwork₂).trans hmove₃).trans (hwork₃.trans hrest), fun n hn => ?_⟩
      simp only [List.mem_cons, List.not_mem_nil, or_false] at hn
      rcases hn with rfl | rfl | rfl
      · exact Nat.lt_of_lt_of_le (hc n (by simp))
          (((hwork₂.trans hmove₃).trans hwork₃).trans hrest).nextNode_le
      · exact Nat.lt_of_lt_of_le (hx n (by simp)) hrest.nextNode_le
      · exact Nat.lt_of_lt_of_le (hy n (by simp)) (hwork₆.trans hlast).nextNode_le

end Lowering

/-! ## Statements -/

open Lowering Draft

theorem Expr.lower_worksIn (p : Program) (e : Expr) {own landing : Set BlockId} {d : Draft}
    (h : d.Fits own landing) :
    Ensures d (e.lower p) fun n d' => d.WorksIn own landing d' ∧ n < d'.graph.nextNode :=
  (e.lower_composed p d).mono fun n _ hc => ⟨(hc.worksIn h).1, (hc.worksIn h).2 n (by simp)⟩

theorem Expr.lowerOption_worksIn (p : Program) (e : Option Expr) {own landing : Set BlockId}
    {d : Draft} (h : d.Fits own landing) :
    Ensures d (Expr.lowerOption p e) fun n d' =>
      d.WorksIn own landing d' ∧ ∀ o ∈ n.toList, o < d'.graph.nextNode :=
  (Expr.lowerOption_composed p e d).mono fun _ _ hc => hc.worksIn h

theorem Case.lowerTests_worksIn (p : Program) {selector : NodeId} (cases : List Case)
    (bodies : List BlockId) {own landing : Set BlockId} {d : Draft} (h : d.Fits own landing)
    (hselector : selector < d.graph.nextNode) (hbodies : ∀ b ∈ bodies, b ∈ landing) :
    Ensures d (Case.lowerTests p selector cases bodies) fun _ d' => d.WorksIn own landing d' := by
  induction cases generalizing bodies d with
  | nil => exact .refl h
  | cons first rest ih =>
      cases bodies with
      | nil => exact .refl h
      | cons b bodies =>
          rw [Case.lowerTests]
          refine (Expr.lower_worksIn p first.label h).bind ?_
          rintro label d₁ ⟨h₁, hlabel⟩
          refine (emit_worksIn h₁.fits ?_).bind ?_
          · simpa [Operation.operands] using
              ⟨Nat.lt_of_lt_of_le hselector h₁.nextNode_le, hlabel⟩
          rintro test d₂ ⟨h₂, htest⟩
          refine (newBlock_worksIn h₂.fits).bind ?_
          rintro next d₃ ⟨h₃, hnext⟩
          refine (endCurrent_worksIn h₃.fits (.branch test b next) ?_ ?_).bind ?_
          · simpa [Terminator.targets] using ⟨hbodies b List.mem_cons_self, hnext.2⟩
          · simpa [Terminator.operands] using Nat.lt_of_lt_of_le htest h₃.nextNode_le
          intro _ d₄ h₄
          refine (moveTo_worksIn h₄.fits hnext.1).bind ?_
          intro _ d₅ h₅
          have hstart := ((h₁.trans h₂).trans h₃).trans (h₄.trans h₅)
          exact (ih bodies h₅.fits (Nat.lt_of_lt_of_le hselector hstart.nextNode_le)
            fun c hc => hbodies c (List.mem_cons_of_mem b hc)).mono fun _ _ h₆ => hstart.trans h₆

mutual

theorem Stmt.lower_worksIn (p : Program) (s : Stmt) {own landing : Set BlockId} {d : Draft}
    (h : d.Fits own landing) :
    Ensures d (s.lower p) fun _ d' => d.WorksIn own landing d' := by
  match s with
  | .declare var init =>
      simp only [Stmt.lower]
      refine (emit_worksIn h (by simp [Operation.operands])).bind ?_
      rintro n d₁ ⟨h₁, -⟩
      cases init with
      | none => exact h₁
      | some e =>
          refine (Expr.lower_worksIn p e h₁.fits).bind ?_
          rintro v d₂ ⟨h₂, hv⟩
          refine (emit_worksIn h₂.fits (by simp [Operation.operands])).bind ?_
          rintro t d₃ ⟨h₃, ht⟩
          refine (emit_worksIn h₃.fits ?_).bind ?_
          · simpa [Operation.operands] using ⟨ht, Nat.lt_of_lt_of_le hv h₃.nextNode_le⟩
          · rintro a d₄ ⟨h₄, -⟩
            exact ((h₁.trans h₂).trans h₃).trans h₄
  | .eval e =>
      rw [Stmt.lower]
      exact (Expr.lower_worksIn p e h).bind fun _ _ h₁ => h₁.1
  | .branch condition thenBody elseBody =>
      rw [Stmt.lower]
      refine (Expr.lower_worksIn p condition h).bind ?_
      rintro c d₁ ⟨h₁, hc⟩
      refine (branchOn_worksIn h₁.fits hc).bind ?_
      rintro ⟨thenBlock, elseBlock, merge⟩ d₂ ⟨h₂, hnew⟩
      refine (moveTo_worksIn h₂.fits (hnew thenBlock (by simp)).1).bind ?_
      intro _ d₃ h₃
      refine (Stmt.lowerBody_worksIn p thenBody h₃.fits).bind ?_
      intro _ d₄ h₄
      refine (jumpIfOpen_worksIn h₄.fits (hnew merge (by simp)).2).bind ?_
      intro _ d₅ h₅
      refine (moveTo_worksIn h₅.fits (hnew elseBlock (by simp)).1).bind ?_
      intro _ d₆ h₆
      refine (Stmt.lowerOption_worksIn p elseBody h₆.fits).bind ?_
      intro _ d₇ h₇
      refine (jumpIfOpen_worksIn h₇.fits (hnew merge (by simp)).2).bind ?_
      intro _ d₈ h₈
      refine (moveTo_worksIn h₈.fits (hnew merge (by simp)).1).mono ?_
      intro _ d₉ h₉
      exact (((h₁.trans h₂).trans h₃).trans (h₄.trans h₅)).trans
        (((h₆.trans h₇).trans h₈).trans h₉)
  | .loop condition body =>
      rw [Stmt.lower]
      refine (newBlock_worksIn h).bind ?_
      rintro head d₁ ⟨h₁, hhead⟩
      refine (newBlock_worksIn h₁.fits).bind ?_
      rintro bodyBlock d₂ ⟨h₂, hbody⟩
      refine (newBlock_worksIn h₂.fits).bind ?_
      rintro done d₃ ⟨h₃, hdone⟩
      refine (jumpIfOpen_worksIn h₃.fits hhead.2).bind ?_
      intro _ d₄ h₄
      refine (moveTo_worksIn h₄.fits hhead.1).bind ?_
      intro _ d₅ h₅
      refine (Expr.lower_worksIn p condition h₅.fits).bind ?_
      rintro c d₆ ⟨h₆, hc⟩
      -- the head ends here even if the condition has left it
      refine (endBlock_worksIn h₆.fits hhead.1 (.loop c bodyBlock done) ?_ ?_).bind ?_
      · simpa [Terminator.targets] using ⟨hbody.2, hdone.2⟩
      · simpa [Terminator.operands] using hc
      intro _ d₇ h₇
      refine (insideLoop_worksIn h₇.fits hhead.2 hdone.2 fun hin => ?_).bind ?_
      · refine (moveTo_worksIn hin hbody.1).bind ?_
        intro _ d' hmove
        exact (Stmt.lowerBody_worksIn p body hmove.fits).mono fun _ _ hin' => hmove.trans hin'
      intro _ d₈ h₈
      refine (jumpIfOpen_worksIn h₈.fits hhead.2).bind ?_
      intro _ d₉ h₉
      refine (moveTo_worksIn h₉.fits hdone.1).mono ?_
      intro _ d₁₀ h₁₀
      exact ((((h₁.trans h₂).trans h₃).trans h₄).trans (h₅.trans h₆)).trans
        (((h₇.trans h₈).trans h₉).trans h₁₀)
  | .select selector cases default =>
      rw [Stmt.lower]
      refine (Expr.lower_worksIn p selector h).bind ?_
      rintro n d₁ ⟨h₁, hn⟩
      refine (newBlock_worksIn h₁.fits).bind ?_
      rintro done d₂ ⟨h₂, hdone⟩
      refine (newBlocks_worksIn cases.length h₂.fits).bind ?_
      rintro bodies d₃ ⟨h₃, hbodies⟩
      refine (newBlocks_worksIn default.toList.length h₃.fits).bind ?_
      rintro defaults d₄ ⟨h₄, hdefaults⟩
      have hreserve := (h₂.trans h₃).trans h₄
      refine (Case.lowerTests_worksIn p cases bodies h₄.fits
        (Nat.lt_of_lt_of_le hn hreserve.nextNode_le) fun b hb => (hbodies b hb).2).bind ?_
      intro _ d₅ h₅
      have hdefault : defaults.headD done ∈ landing := by
        cases defaults with
        | nil => exact hdone.2
        | cons b rest => exact (hdefaults b List.mem_cons_self).2
      refine (jumpIfOpen_worksIn h₅.fits hdefault).bind ?_
      intro _ d₆ h₆
      refine (enclosingNext_mem h₆.fits hdone.2).bind ?_
      rintro next _ ⟨rfl, hnext⟩
      refine (insideLoop_worksIn h₆.fits hnext hdone.2 fun hin => ?_).bind ?_
      · refine (Case.lowerBodies_worksIn p cases (bodies ++ defaults) hin (fun b hb => ?_)
          hdone.2).bind ?_
        · exact (List.mem_append.1 hb).elim (hbodies b) (hdefaults b)
        intro _ d' hin'
        exact (Stmt.lowerDefault_worksIn p default defaults hin'.fits
          (fun b hb => (hdefaults b hb).1) hdone.2).mono fun _ _ hin'' => hin'.trans hin''
      intro _ d₇ h₇
      refine (moveTo_worksIn h₇.fits hdone.1).mono ?_
      intro _ d₈ h₈
      exact ((h₁.trans hreserve).trans (h₅.trans h₆)).trans (h₇.trans h₈)
  | .leave value =>
      rw [Stmt.lower]
      refine (Expr.lowerOption_worksIn p value h).bind ?_
      rintro v d₁ ⟨h₁, hv⟩
      have hoperands : ∀ o ∈ (Operation.leave v).operands, o < d₁.graph.nextNode := hv
      refine (emit_worksIn h₁.fits hoperands).bind ?_
      rintro n d₂ ⟨h₂, -⟩
      have hend : Ensures d₂ (fun d => endCurrent (.leave v) [d.graph.exit] d) fun _ d' =>
          d₂.WorksIn own landing d' :=
        endCurrent_worksIn h₂.fits (.leave v)
          (by simpa [Terminator.targets] using h₂.fits.exit_mem)
          fun o ho => Nat.lt_of_lt_of_le (hv o ho) h₂.nextNode_le
      refine hend.bind ?_
      intro _ d₃ h₃
      exact (moveToNew_worksIn h₃.fits).mono fun _ _ h₄ => ((h₁.trans h₂).trans h₃).trans h₄
  | .raise value =>
      rw [Stmt.lower]
      refine (Expr.lower_worksIn p value h).bind ?_
      rintro v d₁ ⟨h₁, hv⟩
      refine (emit_worksIn h₁.fits (by simpa [Operation.operands] using hv)).bind ?_
      rintro n d₂ ⟨h₂, -⟩
      refine (endCurrent_worksIn h₂.fits .stop (by simp [Terminator.targets])
        (by simp [Terminator.operands])).bind ?_
      intro _ d₃ h₃
      exact (moveToNew_worksIn h₃.fits).mono fun _ _ h₄ => ((h₁.trans h₂).trans h₃).trans h₄
  | .check condition detail =>
      rw [Stmt.lower]
      refine (Expr.lower_worksIn p condition h).bind ?_
      rintro c d₁ ⟨h₁, hc⟩
      refine (Expr.lowerOption_worksIn p detail h₁.fits).bind ?_
      rintro o d₂ ⟨h₂, ho⟩
      refine (emit_worksIn h₂.fits fun n hn => ?_).bind ?_
      · rcases List.mem_cons.1 hn with rfl | hn
        · exact Nat.lt_of_lt_of_le hc h₂.nextNode_le
        · exact ho n hn
      · rintro n d₃ ⟨h₃, -⟩
        exact (h₁.trans h₂).trans h₃
  | .locked lock body =>
      rw [Stmt.lower]
      refine (Expr.lower_worksIn p lock h).bind ?_
      rintro l d₁ ⟨h₁, hl⟩
      refine (emit_worksIn h₁.fits (by simpa [Operation.operands] using hl)).bind ?_
      rintro n d₂ ⟨h₂, -⟩
      exact (Stmt.lowerBody_worksIn p body h₂.fits).mono fun _ _ h₃ => (h₁.trans h₂).trans h₃
  | .block body =>
      rw [Stmt.lower]
      exact Stmt.lowerBody_worksIn p body h
  | .exitLoop =>
      rw [Stmt.lower]
      exact jumpOut_worksIn h fun _ ht => (h.loops_mem ht).2
  | .nextRound =>
      rw [Stmt.lower]
      exact jumpOut_worksIn h fun _ ht => (h.loops_mem ht).1

theorem Stmt.lowerBody_worksIn (p : Program) (body : List Stmt) {own landing : Set BlockId}
    {d : Draft} (h : d.Fits own landing) :
    Ensures d (Stmt.lowerBody p body) fun _ d' => d.WorksIn own landing d' := by
  match body with
  | [] => exact .refl h
  | s :: rest =>
      rw [Stmt.lowerBody]
      refine (Stmt.lower_worksIn p s h).bind ?_
      intro _ d₁ h₁
      exact (Stmt.lowerBody_worksIn p rest h₁.fits).mono fun _ _ h₂ => h₁.trans h₂

theorem Stmt.lowerOption_worksIn (p : Program) (body : Option (List Stmt))
    {own landing : Set BlockId} {d : Draft} (h : d.Fits own landing) :
    Ensures d (Stmt.lowerOption p body) fun _ d' => d.WorksIn own landing d' := by
  match body with
  | none => exact .refl h
  | some body =>
      rw [Stmt.lowerOption]
      exact Stmt.lowerBody_worksIn p body h

theorem Case.lowerBodies_worksIn (p : Program) {done : BlockId} (cases : List Case)
    (bs : List BlockId) {own landing : Set BlockId} {d : Draft} (h : d.Fits own landing)
    (hbs : ∀ b ∈ bs, b ∈ own ∧ b ∈ landing) (hdone : done ∈ landing) :
    Ensures d (Case.lowerBodies p done cases bs) fun _ d' => d.WorksIn own landing d' := by
  match cases, bs with
  | [], _ => exact .refl h
  | .mk _ _ :: _, [] => exact .refl h
  | .mk _ body :: rest, b :: bs =>
      rw [Case.lowerBodies]
      refine (moveTo_worksIn h (hbs b List.mem_cons_self).1).bind ?_
      intro _ d₁ h₁
      refine (Stmt.lowerBody_worksIn p body h₁.fits).bind ?_
      intro _ d₂ h₂
      have hnext : bs.headD done ∈ landing := by
        cases bs with
        | nil => exact hdone
        | cons c bs => exact (hbs c (by simp)).2
      refine (jumpIfOpen_worksIn h₂.fits hnext).bind ?_
      intro _ d₃ h₃
      exact (Case.lowerBodies_worksIn p rest bs h₃.fits
        (fun c hc => hbs c (List.mem_cons_of_mem b hc)) hdone).mono fun _ _ h₄ =>
          ((h₁.trans h₂).trans h₃).trans h₄

theorem Stmt.lowerDefault_worksIn (p : Program) {done : BlockId} (default : Option (List Stmt))
    (bs : List BlockId) {own landing : Set BlockId} {d : Draft} (h : d.Fits own landing)
    (hbs : ∀ b ∈ bs, b ∈ own) (hdone : done ∈ landing) :
    Ensures d (Stmt.lowerDefault p done default bs) fun _ d' => d.WorksIn own landing d' := by
  match default, bs with
  | none, _ => exact .refl h
  | some _, [] => exact .refl h
  | some body, b :: _ =>
      rw [Stmt.lowerDefault]
      refine (moveTo_worksIn h (hbs b List.mem_cons_self)).bind ?_
      intro _ d₁ h₁
      refine (Stmt.lowerBody_worksIn p body h₁.fits).bind ?_
      intro _ d₂ h₂
      exact (jumpIfOpen_worksIn h₂.fits hdone).mono fun _ _ h₃ => (h₁.trans h₂).trans h₃

end

end Disclosure
