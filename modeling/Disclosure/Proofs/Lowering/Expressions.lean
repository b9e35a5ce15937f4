import Disclosure.Proofs.Lowering.Composition

/-!
# Expressions are lowered in runs

The lowering of an expression keeps the blocks left for later and ends in a block that has not
ended.  A straight expression stays in the current block, which lists the node of its value.  Any
other one leaves the current block by a branch to new blocks.
-/

namespace Disclosure

theorem Draft.Lists.of_extends {d d' : Draft} {n : NodeId} (h : d.Lists n)
    (hext : d.graph.Extends d'.graph) (hcurrent : d'.current = d.current) : d'.Lists n := by
  obtain ⟨block, hblock, hn⟩ := h
  obtain ⟨block', hblock', hnodes, -⟩ := hext.exists_block hblock
  exact ⟨block', hcurrent ▸ hblock', hnodes hn⟩

namespace Lowering

section Expressions

variable {m : Mode} {R : List BlockId} {straight straight' : Prop} {d d' d'' : Draft}
  {ns ms : List NodeId}

/-- From `d` to `d'` expressions were lowered, whose values are at the nodes `ns`: in the current
block if they are straight, and otherwise the current block of `d` has a new successor. -/
structure Evaluates (m : Mode) (R : List BlockId) (straight : Prop) (d : Draft)
    (ns : List NodeId) (d' : Draft) : Prop extends Passes m d R d' R where
  isOpen : d'.IsOpen
  result_lt : ∀ {n}, n ∈ ns → n < d'.graph.nextNode
  stays : straight → d'.current = d.current ∧ ∀ n ∈ ns, d'.Lists n
  leaves : ¬ straight → ∃ block b, d'.graph.block? d.current = some block ∧ b ∈ block.succs ∧
    d.graph.nextBlock ≤ b

theorem Evaluates.nil (m : Mode) (hs : Stage.Sound ⟨d, R⟩) (hopen : d.IsOpen) :
    Evaluates m R True d [] d where
  toPasses := .refl hs
  isOpen := hopen
  result_lt h := by cases h
  stays _ := ⟨rfl, by simp⟩
  leaves h := absurd trivial h

theorem Evaluates.append (h : Evaluates m R straight d ns d')
    (h' : Evaluates m R straight' d' ms d'') :
    Evaluates m R (straight ∧ straight') d (ns ++ ms) d'' where
  toPasses := h.toPasses.trans h'.toPasses
  isOpen := h'.isOpen
  result_lt {n} hn := by
    rcases List.mem_append.1 hn with hn | hn
    · exact Nat.lt_of_lt_of_le (h.result_lt hn) h'.run.extends.nextNode_le
    · exact h'.result_lt hn
  stays hstraight := by
    obtain ⟨hcurrent, hlists⟩ := h.stays hstraight.1
    obtain ⟨hcurrent', hlists'⟩ := h'.stays hstraight.2
    refine ⟨hcurrent'.trans hcurrent, fun n hn => ?_⟩
    rcases List.mem_append.1 hn with hn | hn
    · exact (hlists n hn).of_extends h'.run.extends hcurrent'
    · exact hlists' n hn
  leaves hnot := by
    by_cases hstraight : straight
    · obtain ⟨block, b, hblock, hb, hnew⟩ := h'.leaves fun hs' => hnot ⟨hstraight, hs'⟩
      rw [(h.stays hstraight).1] at hblock
      exact ⟨block, b, hblock, hb, Nat.le_trans h.run.extends.nextBlock_le hnew⟩
    · obtain ⟨block, b, hblock, hb, hnew⟩ := h.leaves hstraight
      obtain ⟨block', hblock', -, hsuccs⟩ := h'.run.extends.exists_block hblock
      exact ⟨block', b, hblock', hsuccs.subset hb, hnew⟩

theorem Evaluates.of_subset (h : Evaluates m R straight d ns d') (hsub : ms ⊆ ns) :
    Evaluates m R straight d ms d' :=
  { h with
    result_lt := fun hn => h.result_lt (hsub hn)
    stays := fun hs => ⟨(h.stays hs).1, fun n hn => (h.stays hs).2 n (hsub hn)⟩ }

theorem Evaluates.of_iff (h : Evaluates m R straight d ns d') (hiff : straight ↔ straight') :
    Evaluates m R straight' d ns d' :=
  propext hiff ▸ h

theorem Evaluates.emitWith (h : Evaluates m R straight d ns d') (hflat : m.flat → straight)
    {op : Operation} (hoperands : ∀ n ∈ op.operands, n < d'.graph.nextNode)
    (hinputs : op.inputs ⊆ ns) :
    Ensures d' (emit op) fun n d'' => Evaluates m R straight d (n :: ns) d'' := by
  have hstep : Stage.Step m ⟨d', R⟩
      ⟨{ d' with graph := d'.graph.addNode d'.current op }, R⟩ :=
    .emit op hoperands fun hf n hn => (h.stays (hflat hf)).2 n (hinputs hn)
  have hext := hstep.extends
  have hpass : Passes m d' R { d' with graph := d'.graph.addNode d'.current op } R :=
    .single h.sound hstep rfl
  obtain ⟨block, hblock, hterm⟩ := h.isOpen
  have hadded : (d'.graph.addNode d'.current op).block? d'.current =
      some { block with nodes := block.nodes ++ [d'.graph.nextNode] } := by
    rw [Graph.block?_addNode, if_pos rfl, hblock]
    rfl
  refine ⟨h.toPasses.trans hpass, ⟨_, hadded, hterm⟩, ?_, ?_, ?_⟩
  · intro n hn
    rcases List.mem_cons.1 hn with rfl | hn
    · simp [Lowering.emit]
    · exact Nat.lt_of_lt_of_le (h.result_lt hn) hext.nextNode_le
  · intro hstraight
    obtain ⟨hcurrent, hlists⟩ := h.stays hstraight
    refine ⟨hcurrent, fun n hn => ?_⟩
    rcases List.mem_cons.1 hn with rfl | hn
    · exact ⟨_, hadded, by simp [Lowering.emit]⟩
    · exact (hlists n hn).of_extends hext rfl
  · intro hnot
    obtain ⟨block, b, hblock, hb, hnew⟩ := h.leaves hnot
    obtain ⟨block', hblock', -, hsuccs⟩ := hext.exists_block hblock
    exact ⟨block', b, hblock', hsuccs.subset hb, hnew⟩

theorem Evaluates.emit (h : Evaluates m R straight d ns d') (hflat : m.flat → straight)
    {op : Operation} (hoperands : op.operands ⊆ ns) :
    Ensures d' (emit op) fun n d'' => Evaluates m R straight d (n :: ns) d'' :=
  h.emitWith hflat (fun _ hn => h.result_lt (hoperands hn))
    fun _ hn => hoperands (op.inputs_subset_operands hn)

theorem Evaluates.emitLast (h : Evaluates m R straight d ns d') (hflat : m.flat → straight)
    {op : Operation} (hoperands : op.operands ⊆ ns) :
    Ensures d' (Lowering.emit op) fun n d'' => Evaluates m R straight d [n] d'' :=
  (h.emit hflat hoperands).mono fun n _ h' => h'.of_subset (by simp)

theorem Evaluates.arms {d₁ d₂ d₃ d₄ d₅ d₆ : Draft} {c x y : NodeId}
    {thenBlock elseBlock merge : BlockId} (hs : Stage.Sound ⟨d₁, R⟩) (hopen : d₁.IsOpen)
    (hbranch : branchOn c d₁ = ((thenBlock, elseBlock, merge), d₂))
    (hthen : Stage.Sound ⟨{ d₂ with current := thenBlock }, elseBlock :: merge :: R⟩ →
      Draft.IsOpen { d₂ with current := thenBlock } →
      Evaluates m (elseBlock :: merge :: R) straight { d₂ with current := thenBlock } [x] d₃)
    (hjump : jumpIfOpen merge d₃ = ((), d₄))
    (helse : Stage.Sound ⟨{ d₄ with current := elseBlock }, merge :: R⟩ →
      Draft.IsOpen { d₄ with current := elseBlock } →
      Evaluates m (merge :: R) straight' { d₄ with current := elseBlock } [y] d₅)
    (hjump' : jumpIfOpen merge d₅ = ((), d₆)) :
    Evaluates m R False d₁ [x, y] { d₆ with current := merge } := by
  have hfork := branchOn_passes m hs hopen c
  rw [Ensures, hbranch] at hfork
  obtain ⟨h₂, hclosed₂, block, hblock, hsucc, hnew⟩ := hfork
  obtain ⟨h₃, hopen₃, -⟩ := moveTo_passes m h₂.sound fun _ => hclosed₂
  have hx := hthen h₃.sound hopen₃
  have hleave := jumpIfOpen_passes m hx.sound hx.isOpen
    (hx.sound.reserved_lt (b := merge) (by simp))
  rw [Ensures, hjump] at hleave
  obtain ⟨h₄, hclosed₄⟩ := hleave
  obtain ⟨h₅, hopen₅, -⟩ := moveTo_passes m h₄.sound fun _ => hclosed₄
  have hy := helse h₅.sound hopen₅
  have hleave' := jumpIfOpen_passes m hy.sound hy.isOpen
    (hy.sound.reserved_lt (b := merge) (by simp))
  rw [Ensures, hjump'] at hleave'
  obtain ⟨h₆, hclosed₆⟩ := hleave'
  obtain ⟨h₇, hopen₇, -⟩ := moveTo_passes m h₆.sound fun _ => hclosed₆
  have hlater := ((h₅.trans hy.toPasses).trans h₆).trans h₇
  refine ⟨(((h₂.trans h₃).trans hx.toPasses).trans h₄).trans hlater, hopen₇, ?_, False.elim,
    fun _ => ?_⟩
  · intro n hn
    simp only [List.mem_cons, List.not_mem_nil, or_false] at hn
    rcases hn with rfl | rfl
    · exact Nat.lt_of_lt_of_le (hx.result_lt (by simp)) (h₄.trans hlater).run.extends.nextNode_le
    · exact Nat.lt_of_lt_of_le (hy.result_lt (by simp)) (h₆.trans h₇).run.extends.nextNode_le
  · have hext := ((h₃.trans hx.toPasses).trans (h₄.trans hlater)).run.extends
    obtain ⟨block', hblock', -, hsuccs⟩ := hext.exists_block hblock
    exact ⟨block', thenBlock, hblock', hsuccs.subset hsucc, hnew⟩

theorem Composed.evaluates (m : Mode) (h : Composed straight d ns d') {R : List BlockId}
    (hs : Stage.Sound ⟨d, R⟩) (hopen : d.IsOpen) (hflat : m.flat → straight) :
    Evaluates m R straight d ns d' := by
  induction h generalizing R with
  | nil d => exact Evaluates.nil m hs hopen
  | emit op _ hoperands ih => exact (ih hs hopen hflat).emit hflat hoperands
  | append _ _ ih ih' =>
      have hfirst := ih hs hopen fun hf => (hflat hf).1
      exact hfirst.append (ih' hfirst.sound hfirst.isOpen fun hf => (hflat hf).2)
  | subset _ hsub ih => exact (ih hs hopen hflat).of_subset hsub
  | choice _ hbranch _ hjump _ hjump' ih ihthen ihelse =>
      have hcondition := ih hs hopen fun hf => (hflat hf).elim
      have harms := Evaluates.arms hcondition.sound hcondition.isOpen hbranch
        (fun hs hopen => ihthen hs hopen fun hf => (hflat hf).elim) hjump
        (fun hs hopen => ihelse hs hopen fun hf => (hflat hf).elim) hjump'
      exact (hcondition.append harms).of_iff (by simp)

end Expressions

end Lowering

open Lowering

theorem Expr.lower_evaluates (p : Program) (m : Mode) (e : Expr) {R : List BlockId} {d : Draft}
    (hs : Stage.Sound ⟨d, R⟩) (hopen : d.IsOpen) (hflat : m.flat → e.isStraight = true) :
    Ensures d (e.lower p) fun n d' => Evaluates m R (e.isStraight = true) d [n] d' :=
  (e.lower_composed p d).mono fun _ _ h => h.evaluates m hs hopen hflat

theorem Expr.lowerOption_evaluates (p : Program) (m : Mode) (e : Option Expr) {R : List BlockId}
    {d : Draft} (hs : Stage.Sound ⟨d, R⟩) (hopen : d.IsOpen)
    (hflat : m.flat → e.all Expr.isStraight = true) :
    Ensures d (Expr.lowerOption p e) fun n d' =>
      Evaluates m R (e.all Expr.isStraight = true) d n.toList d' :=
  (Expr.lowerOption_composed p e d).mono fun _ _ h => h.evaluates m hs hopen hflat

end Disclosure
