import Disclosure.Proofs.Lowering.Bridges
import Disclosure.Proofs.Lowering.Operands

/-!
# Operands come first in the graph of a procedure

While statements are lowered, some blocks may still get edges: those that were added for later, the
exit, and the targets of jumps, among them the head of a loop that control comes back to.  All other
blocks are closed, and operands are prior as long as they stay so (`Draft.Orderly`).  A statement
that is lowered leaves the blocks that it has added closed.

In the end only the exit is left.  So in reverse postorder the operands of a node come first: they
are listed before it in its own block, or in a block with an earlier place.
-/

namespace Disclosure

def Mode.free : Mode := ⟨False, False⟩

namespace Draft

variable {landing landing' : Set BlockId} {d d' : Draft}

/-- The blocks that get no more edges, if only those of `landing` do. -/
def closedBut (d : Draft) (landing : Set BlockId) : Set BlockId :=
  {b | b < d.graph.nextBlock ∧ b ∉ landing}

/-- Operands are prior, although the blocks of `landing` may still get edges, and there are bridges
from those that decide over others. -/
structure Orderly (landing : Set BlockId) (d : Draft) : Prop where
  lt : ∀ {b}, b ∈ landing → b < d.graph.nextBlock
  operands : d.graph.OperandsPrior (d.closedBut landing)
  bridged : d.graph.Bridged

theorem Orderly.mono (h : d.Orderly landing) (hsub : landing' ⊆ landing) : d.Orderly landing' where
  lt hb := h.lt (hsub hb)
  operands := h.operands.mono fun _ hb => ⟨hb.1, fun hmem => hb.2 (hsub hmem)⟩
  bridged := h.bridged

theorem Orderly.addBlock (h : d.Orderly landing) :
    Orderly (insert d.graph.nextBlock landing) { d with graph := d.graph.addBlock } where
  lt {b} hb := by
    rw [Graph.nextBlock_addBlock]
    rcases hb with rfl | hb
    · exact Nat.lt_succ_self _
    · exact Nat.lt_succ_of_lt (h.lt hb)
  operands := by
    refine (h.operands.grows (.addBlock _ _) fun _ => rfl).mono fun b hb => ⟨?_, ?_⟩
    · rw [Graph.nextBlock_addBlock]
      exact Nat.lt_succ_of_lt hb.1
    · rintro (rfl | hmem)
      · exact Nat.lt_irrefl _ hb.1
      · exact hb.2 hmem
  bridged := h.bridged.retains (.addBlock _) fun _ => rfl

theorem Orderly.endWith (h : d.Orderly landing) (b : BlockId) {t : Terminator}
    (ht : ∀ c ∈ t.targets d.graph.exit, c ∈ landing) :
    Orderly landing { d with graph := d.graph.endWith b t } where
  lt hb := by simpa using h.lt hb
  operands := by
    have hgrows : d.graph.Grows (d.closedBut landing) (d.graph.endWith b t) :=
      .endWith fun c hc hclosed => hclosed.2 (ht c hc)
    refine (h.operands.grows hgrows fun n => by simp [Graph.node?]).mono fun b hb => ⟨?_, hb.2⟩
    simpa using hb.1
  bridged := h.bridged.retains (.endWith _ _ _) fun n => by simp [Graph.node?]

theorem Orderly.union_added_subset (h : d.Orderly landing)
    (hle : d.graph.nextBlock ≤ d'.graph.nextBlock) :
    d.closedBut landing ∪ d.Added d' ⊆ d'.closedBut landing := by
  rintro b (hb | hb)
  · exact ⟨Nat.lt_of_lt_of_le hb.1 hle, hb.2⟩
  · exact ⟨hb.2, fun hmem => absurd (h.lt hmem) (Nat.not_lt_of_le hb.1)⟩

structure LandsIn (landing : Set BlockId) (d : Draft) : Prop where
  exit_mem : d.graph.exit ∈ landing
  loops_mem : ∀ {t}, t ∈ d.loops → t.next ∈ landing ∧ t.done ∈ landing

theorem LandsIn.passes {m : Mode} {R R' : List BlockId} (h : d.LandsIn landing)
    (hpass : Lowering.Passes m d R d' R') (hsub : landing ⊆ landing') : d'.LandsIn landing' where
  exit_mem := hpass.run.extends.exit_eq ▸ hsub h.exit_mem
  loops_mem ht := by
    rw [hpass.loops_eq] at ht
    exact ⟨hsub (h.loops_mem ht).1, hsub (h.loops_mem ht).2⟩

theorem LandsIn.enclosingNext (h : d.LandsIn landing) {done : BlockId} (hdone : done ∈ landing) :
    Lowering.Ensures d (Lowering.enclosingNext done) fun next d' => d' = d ∧ next ∈ landing := by
  rw [Lowering.Ensures, Lowering.enclosingNext]
  cases hloops : d.loops with
  | nil => exact ⟨rfl, hdone⟩
  | cons t rest => exact ⟨rfl, (h.loops_mem (by simp [hloops])).1⟩

end Draft

theorem Stage.Sound.enclosed {s : Stage} (h : s.Sound) : s.draft.graph.Enclosed where
  entry_lt := h.entry_lt
  succs_lt hedge := by
    obtain ⟨block, hblock, hb⟩ := Graph.mem_succs_iff.1 hedge
    exact h.linked.succs_lt hblock hb

namespace Lowering

open Draft (Orderly LandsIn Supplies closedBut)

variable {landing landing' : Set BlockId} {R R' R'' : List BlockId} {d d' d'' : Draft}

/-- A run after which operands are prior, although the blocks of `landing` may still get edges. -/
structure Lays (landing : Set BlockId) (d : Draft) (R : List BlockId) (d' : Draft)
    (R' : List BlockId) : Prop extends Passes .free d R d' R' where
  orderly : d'.Orderly landing

theorem Lays.of_passes (h : Lays landing d' R' d'' R'') (hpass : Passes .free d R d' R') :
    Lays landing d R d'' R'' :=
  ⟨hpass.trans h.toPasses, h.orderly⟩

theorem Lays.mono (h : Lays landing d R d' R') (hsub : landing' ⊆ landing) :
    Lays landing' d R d' R' :=
  ⟨h.toPasses, h.orderly.mono hsub⟩

section Primitives

theorem newBlock_lays (before after : List BlockId) (hs : Stage.Sound ⟨d, before ++ after⟩)
    (h : d.Orderly landing) :
    Ensures d newBlock fun b d' =>
      Lays (insert b landing) d (before ++ after) d' (before ++ b :: after) ∧
        (d.IsOpen → d'.IsOpen) := by
  have hpass := newBlock_passes .free before after hs
  exact ⟨⟨hpass.1, h.addBlock⟩, hpass.2.1⟩

@[simp] theorem newBlocks_zero (d : Draft) : newBlocks 0 d = ([], d) := rfl

theorem newBlocks_lays (n : Nat) (before after : List BlockId)
    (hs : Stage.Sound ⟨d, before ++ after⟩) (hopen : d.IsOpen) (h : d.Orderly landing) :
    Ensures d (newBlocks n) fun bs d' =>
      Lays ({b | b ∈ bs} ∪ landing) d (before ++ after) d' (before ++ (bs ++ after)) ∧
        d'.IsOpen ∧ bs.length = n := by
  have hpass := newBlocks_passes .free n before after hs hopen
  refine ⟨⟨hpass.1, ?_⟩, hpass.2⟩
  clear hpass hs hopen
  induction n generalizing d landing with
  | zero => exact h.mono (by simp)
  | succ n ih =>
      refine (ih h.addBlock).mono ?_
      rintro b (hb | hb)
      · rcases List.mem_cons.1 hb with rfl | hb
        · exact Or.inr (Set.mem_insert _ _)
        · exact Or.inl hb
      · exact Or.inr (Set.mem_insert_of_mem _ hb)

theorem newBlock_supplies {ns : List NodeId} (hns : d.Supplies (d.closedBut landing) ns) :
    Ensures d newBlock fun b d' => d'.Supplies (d'.closedBut (insert b landing)) ns := by
  refine hns.carry (.addBlock _ _) id (fun b hb => ⟨?_, ?_⟩) (.refl _ _ _)
  · exact Nat.lt_of_lt_of_eq (Nat.lt_succ_of_lt hb.1) (d.graph.nextBlock_addBlock).symm
  · rintro (rfl | hmem)
    · exact Nat.lt_irrefl _ hb.1
    · exact hb.2 hmem

theorem newBlocks_supplies (n : Nat) {ns : List NodeId}
    (hns : d.Supplies (d.closedBut landing) ns) :
    Ensures d (newBlocks n) fun bs d' =>
      d'.Supplies (d'.closedBut ({b | b ∈ bs} ∪ landing)) ns := by
  induction n generalizing d landing with
  | zero => exact hns.mono fun b hb => ⟨hb.1, by simpa using hb.2⟩
  | succ n ih =>
      refine (newBlock_supplies hns).bind ?_
      intro b d₁ hb
      refine (ih hb).bind ?_
      intro bs d₂ hbs
      refine hbs.mono fun c hc => ⟨hc.1, ?_⟩
      rintro (hmem | hmem)
      · rcases List.mem_cons.1 hmem with rfl | hmem
        · exact hc.2 (Or.inr (Set.mem_insert _ _))
        · exact hc.2 (Or.inl hmem)
      · exact hc.2 (Or.inr (Set.mem_insert_of_mem _ hmem))

theorem moveTo_lays {b : BlockId} (hs : Stage.Sound ⟨d, b :: R⟩) (h : d.Orderly landing) :
    Ensures d (moveTo b) fun _ d' => Lays landing d (b :: R) d' R ∧ d'.IsOpen ∧ d'.current = b := by
  have hpass := moveTo_passes .free hs False.elim
  exact ⟨⟨hpass.1, h.lt, h.operands, h.bridged⟩, hpass.2⟩

theorem endBlock_lays (hs : Stage.Sound ⟨d, R⟩) (h : d.Orderly landing) {b : BlockId}
    (hb : b < d.graph.nextBlock) (hreserved : b ∉ R) (t : Terminator)
    (ht : ∀ c ∈ t.targets d.graph.exit, c ∈ landing) (hnodup : (t.targets d.graph.exit).Nodup) :
    Ensures d (endBlock b t (t.targets d.graph.exit)) fun _ d' => Lays landing d R d' R :=
  ⟨.single hs (.close b t hb hreserved (fun c hc => h.lt (ht c hc)) hnodup False.elim) rfl,
    h.endWith b ht⟩

theorem endCurrent_lays (hs : Stage.Sound ⟨d, R⟩) (h : d.Orderly landing) (t : Terminator)
    (ht : ∀ c ∈ t.targets d.graph.exit, c ∈ landing) (hnodup : (t.targets d.graph.exit).Nodup) :
    Ensures d (endCurrent t (t.targets d.graph.exit)) fun _ d' => Lays landing d R d' R :=
  endBlock_lays hs h hs.current_lt (fun hmem => hs.reserved_ne hmem rfl) t ht hnodup

theorem jumpIfOpen_lays (hs : Stage.Sound ⟨d, R⟩) (hopen : d.IsOpen) (h : d.Orderly landing)
    {target : BlockId} (ht : target ∈ landing) :
    Ensures d (jumpIfOpen target) fun _ d' => Lays landing d R d' R := by
  refine ⟨(jumpIfOpen_passes .free hs hopen (h.lt ht)).1, ?_⟩
  rw [jumpIfOpen_eq hopen]
  exact h.endWith d.current (by simpa [Terminator.targets] using ht)

theorem branchOn_lays (hs : Stage.Sound ⟨d, R⟩) (hopen : d.IsOpen) (h : d.Orderly landing)
    (condition : NodeId) :
    Ensures d (branchOn condition) fun targets d' =>
      Lays (insert targets.2.2 (insert targets.2.1 (insert targets.1 landing))) d R d'
        (targets.1 :: targets.2.1 :: targets.2.2 :: R) := by
  refine ⟨(branchOn_passes .free hs hopen condition).1, ?_⟩
  exact h.addBlock.addBlock.addBlock.endWith d.current (by simp [Terminator.targets])

theorem moveToNew_lays (hs : Stage.Sound ⟨d, R⟩) (h : d.Orderly landing) :
    Ensures d moveToNew fun _ d' => Lays landing d R d' R ∧ d'.IsOpen := by
  have hpass := moveToNew_passes .free hs False.elim
  have hnew := h.addBlock.mono (Set.subset_insert d.graph.nextBlock landing)
  exact ⟨⟨hpass.1, hnew.lt, hnew.operands, hnew.bridged⟩, hpass.2⟩

theorem jumpOut_lays (hs : Stage.Sound ⟨d, R⟩) (h : d.Orderly landing)
    {target : JumpTargets → BlockId} (ht : ∀ t ∈ d.loops, target t ∈ landing) :
    Ensures d (jumpOut target) fun _ d' => Lays landing d R d' R ∧ d'.IsOpen := by
  rw [Ensures, jumpOut]
  cases hloops : d.loops with
  | nil => exact moveToNew_lays hs h
  | cons t rest =>
      have hmem : target t ∈ landing := ht t (by simp [hloops])
      show Ensures d (do endCurrent (.goto (target t)) [target t]; moveToNew) fun _ d' =>
        Lays landing d R d' R ∧ d'.IsOpen
      refine (endCurrent_lays hs h (.goto (target t))
        (by simpa [Terminator.targets] using hmem) (by simp [Terminator.targets])).bind ?_
      intro _ d₁ h₁
      exact (moveToNew_lays h₁.sound h₁.orderly).mono fun _ _ h₂ =>
        ⟨h₂.1.of_passes h₁.toPasses, h₂.2⟩

theorem Composed.lays {straight : Prop} {ns : List NodeId} (hc : Composed straight d ns d')
    (hs : Stage.Sound ⟨d, R⟩) (hopen : d.IsOpen) (h : d.Orderly landing) :
    Lays landing d R d' R ∧ d'.IsOpen ∧ d'.Supplies (d'.closedBut landing) ns := by
  have hevaluates := hc.evaluates .free hs hopen False.elim
  have hregion := hc.region hopen
  obtain ⟨hops, hns⟩ := hc.furnishes hopen hs.enclosed _ (fun _ hb => hb.1) h.operands
  have hsub := h.union_added_subset hregion.nextBlock_le
  refine ⟨⟨hevaluates.toPasses, fun hb => ?_, hops.mono hsub,
    (hc.bridges hopen hs.built).bridged h.bridged⟩, hevaluates.isOpen, hns.mono hsub⟩
  exact Nat.lt_of_lt_of_le (h.lt hb) hregion.nextBlock_le

theorem Composed.supplies {straight : Prop} {ns ms : List NodeId} (hc : Composed straight d ns d')
    (hs : Stage.Sound ⟨d, R⟩) (hopen : d.IsOpen) (h : d.Orderly landing)
    (hms : d.Supplies (d.closedBut landing) ms) : d'.Supplies (d'.closedBut landing) ms := by
  have hspans := (hc.region hopen).toSpans
  exact (hspans.supplies hs.enclosed (fun _ hb => hb.1) hms).mono
    (h.union_added_subset hspans.nextBlock_le)

theorem emit_lays {ns : List NodeId} (hs : Stage.Sound ⟨d, R⟩) (hopen : d.IsOpen)
    (h : d.Orderly landing) (hns : d.Supplies (d.closedBut landing) ns) {op : Operation}
    (hop : op.operands ⊆ ns) (hdecider : op.decider? = none) :
    Ensures d (emit op) fun n d' =>
      Lays landing d R d' R ∧ d'.IsOpen ∧ d'.Supplies (d'.closedBut landing) (n :: ns) := by
  have hoperands : ∀ n ∈ op.operands, n < d.graph.nextNode := by
    intro n hn
    obtain ⟨node, hnode, -⟩ := hns n (hop hn)
    exact Graph.lt_nextNode_of_node? hnode
  have hpass : Passes .free d R { d with graph := d.graph.addNode d.current op } R :=
    .single hs (.emit op hoperands False.elim) rfl
  have hclosed : closedBut { d with graph := d.graph.addNode d.current op } landing =
      d.closedBut landing := by
    simp [closedBut]
  obtain ⟨hns', hops⟩ := hns.emit h.operands hop
  rw [← hclosed] at hns' hops
  have hbridged : (d.graph.addNode d.current op).Bridged :=
    h.bridged.addNode hopen fun hsome => by simp [hdecider] at hsome
  exact ⟨⟨hpass, fun hb => by simpa [emit] using h.lt hb, hops, hbridged⟩,
    Graph.IsOpenAt.addNode hopen _ _, hns'⟩

/-- The draft after a test: the next one is in a new block, which the block of the test leads to. -/
def nextTest (test : NodeId) (b : BlockId) (d : Draft) : Draft :=
  { d with
    graph := d.graph.addBlock.endWith d.current (.branch test b d.graph.nextBlock)
    current := d.graph.nextBlock }

theorem nextTest_eq (test : NodeId) (b : BlockId) (rest : Lowering Unit) (d : Draft) :
    (do
      let next ← newBlock
      endCurrent (.branch test b next) [b, next]
      moveTo next
      rest) d = rest (nextTest test b d) := by
  rfl

theorem nextTest_passes (hs : Stage.Sound ⟨d, R⟩) (test : NodeId) {b : BlockId}
    (hb : b < d.graph.nextBlock) :
    Passes .free d R (nextTest test b d) R ∧ (nextTest test b d).IsOpen := by
  have hnew : Passes .free d R { d with graph := d.graph.addBlock } (d.graph.nextBlock :: R) :=
    .single hs (.reserve [] R) rfl
  have htargets : ∀ c ∈ [b, d.graph.nextBlock], c < d.graph.addBlock.nextBlock := by
    intro c hc
    rw [Graph.nextBlock_addBlock]
    obtain rfl | rfl : c = b ∨ c = d.graph.nextBlock := by simpa using hc
    · exact Nat.lt_succ_of_lt hb
    · exact Nat.lt_succ_self _
  have hend : Passes .free { d with graph := d.graph.addBlock } (d.graph.nextBlock :: R)
      { d with graph := d.graph.addBlock.endWith d.current (.branch test b d.graph.nextBlock) }
      (d.graph.nextBlock :: R) :=
    .single hnew.sound (.close d.current _ hnew.sound.current_lt
      (fun hmem => hnew.sound.reserved_ne hmem rfl) htargets
      (by simpa [Terminator.targets] using Nat.ne_of_lt hb) False.elim) rfl
  have hmove : Passes .free
      { d with graph := d.graph.addBlock.endWith d.current (.branch test b d.graph.nextBlock) }
      (d.graph.nextBlock :: R) (nextTest test b d) R :=
    .single hend.sound (.move False.elim) rfl
  exact ⟨(hnew.trans hend).trans hmove, hend.sound.reserved_open List.mem_cons_self⟩

theorem nextTest_lays (hs : Stage.Sound ⟨d, R⟩) (h : d.Orderly landing)
    (test : NodeId) {b : BlockId} (hb : b ∈ landing) :
    Lays landing d R (nextTest test b d) R ∧ (nextTest test b d).IsOpen := by
  have hpass := nextTest_passes hs test (h.lt hb)
  have hlands := h.addBlock.endWith d.current (t := .branch test b d.graph.nextBlock)
    (by simp [Terminator.targets, hb])
  have horderly := hlands.mono (Set.subset_insert _ landing)
  exact ⟨⟨hpass.1, horderly.lt, horderly.operands, horderly.bridged⟩, hpass.2⟩

theorem nextTest_supplies {ms : List NodeId} (hg : d.graph.Enclosed) (h : d.Orderly landing)
    (hms : d.Supplies (d.closedBut landing) ms) (test : NodeId) {b : BlockId} (hb : b ∈ landing) :
    (nextTest test b d).Supplies ((nextTest test b d).closedBut landing) ms := by
  have hgrows : d.graph.Grows (d.closedBut landing) (nextTest test b d).graph := by
    refine (Graph.Grows.addBlock _ _).trans (.endWith fun c hc hclosed => ?_)
    simp only [Terminator.targets, List.mem_cons, List.not_mem_nil, or_false] at hc
    rcases hc with rfl | rfl
    · exact hclosed.2 hb
    · exact Nat.lt_irrefl _ hclosed.1
  -- only the block of the test leads to the new one
  have hentered : (nextTest test b d).graph.EnteredFrom d.current {d.graph.nextBlock} := by
    refine ⟨fun hentry => hg.ne_entry (Nat.le_refl _) ?_, fun {p c} hc hedge => ?_⟩
    · simpa [nextTest, eq_comm] using hentry
    · rcases Graph.mem_succs_endWith.1 hedge with hold | ⟨rfl, -⟩
      · rw [Graph.succs_addBlock, Set.mem_singleton_iff.1 hc] at hold
        exact absurd (hg.succs_lt hold) (Nat.lt_irrefl _)
      · exact Or.inr rfl
  have hnext : (nextTest test b d).graph.nextBlock = d.graph.nextBlock + 1 := by simp [nextTest]
  have hprior : (nextTest test b d).graph.Prior ((nextTest test b d).closedBut landing) d.current
      (nextTest test b d).current := by
    refine hentered.prior ?_ rfl
    rintro c rfl
    refine ⟨?_, fun hmem => Nat.lt_irrefl _ (h.lt hmem)⟩
    rw [hnext]
    exact Nat.lt_succ_self _
  refine hms.carry hgrows (fun hn => ?_) (fun c hc => ?_) hprior
  · simpa [nextTest, Graph.node?, Graph.addBlock] using hn
  · refine ⟨?_, hc.2⟩
    rw [hnext]
    exact Nat.lt_succ_of_lt hc.1

theorem insideLoop_lays (R' : List BlockId) {t : JumpTargets} {body : Lowering Unit}
    (hs : Stage.Sound ⟨d, R⟩) (h : d.Orderly landing) (hland : d.LandsIn landing)
    (hnext : t.next ∈ landing) (hdone : t.done ∈ landing) (Q : Draft → Prop)
    (hQ : ∀ d loops, Q d → Q { d with loops := loops })
    (hbody : ∀ {d}, Stage.Sound ⟨d, R⟩ → d.Orderly landing → d.LandsIn landing →
      Ensures d body fun _ d' => Lays landing d R d' R' ∧ Q d') :
    Ensures d (insideLoop t body) fun _ d' => Lays landing d R d' R' ∧ Q d' := by
  have hinside : LandsIn landing { d with loops := t :: d.loops } := by
    refine ⟨hland.exit_mem, fun {t'} ht' => ?_⟩
    rcases List.mem_cons.1 ht' with rfl | ht'
    · exact ⟨hnext, hdone⟩
    · exact hland.loops_mem ht'
  have hall := insideLoop_passes .free R' (Q := fun d' => d'.Orderly landing ∧ Q d') hs
    (h.lt hnext) (h.lt hdone)
    (fun hs' => (hbody hs' ⟨h.lt, h.operands, h.bridged⟩ hinside).mono fun _ _ hlays =>
      ⟨hlays.1.toPasses, hlays.1.orderly, hlays.2⟩)
    fun d' loops hd' => ⟨⟨hd'.1.lt, hd'.1.operands, hd'.1.bridged⟩, hQ d' loops hd'.2⟩
  exact hall.mono fun _ _ h' => ⟨⟨h'.1, h'.2.1⟩, h'.2.2⟩

end Primitives

end Lowering

open Lowering Draft

/-- The tests of a choice use the value that is chosen by, in blocks that are entered one from the
other. -/
theorem Case.lowerTests_lays (p : Program) {selector : NodeId} (cases : List Case)
    (bodies : List BlockId) {landing : Set BlockId} {R : List BlockId} {d : Draft}
    (hs : Stage.Sound ⟨d, R⟩) (hopen : d.IsOpen) (h : d.Orderly landing)
    (hselector : d.Supplies (d.closedBut landing) [selector])
    (hland : ∀ b ∈ bodies, b ∈ landing) :
    Ensures d (Case.lowerTests p selector cases bodies) fun _ d' =>
      Lays landing d R d' R ∧ d'.IsOpen := by
  induction cases generalizing bodies d with
  | nil => exact ⟨⟨.refl hs, h⟩, hopen⟩
  | cons first rest ih =>
      cases bodies with
      | nil => exact ⟨⟨.refl hs, h⟩, hopen⟩
      | cons b bodies =>
          obtain ⟨label, body⟩ := first
          simp only [Case.lowerTests, Case.label_mk]
          refine (label.lower_composed p d).bind ?_
          intro l d₁ hl
          obtain ⟨h₁, hopen₁, hl₁⟩ := hl.lays hs hopen h
          have hoperands := (hl.supplies hs hopen h hselector).append hl₁
          refine (emit_lays h₁.sound hopen₁ h₁.orderly hoperands
            (by simp [Operation.operands]) rfl).bind ?_
          rintro test d₂ ⟨h₂, -, hsupplies₂⟩
          have hselector₂ : d₂.Supplies (d₂.closedBut landing) [selector] :=
            fun n hn => hsupplies₂ n (by simp [List.mem_singleton.1 hn])
          have hb := hland b List.mem_cons_self
          obtain ⟨h₃, hopen₃⟩ := nextTest_lays h₂.sound h₂.orderly test hb
          have hselector₃ := nextTest_supplies h₂.sound.enclosed h₂.orderly hselector₂ test hb
          rw [Ensures, nextTest_eq]
          obtain ⟨h₄, hopen₄⟩ := ih bodies h₃.sound hopen₃ h₃.orderly hselector₃
            fun c hc => hland c (List.mem_cons_of_mem _ hc)
          exact ⟨h₄.of_passes ((h₁.toPasses.trans h₂.toPasses).trans h₃.toPasses), hopen₄⟩

mutual

/-- Operands are prior in what a statement is lowered to, and only the exit and the targets of
jumps may get more edges. -/
theorem Stmt.lower_lays (p : Program) (s : Stmt) {landing : Set BlockId} {R : List BlockId}
    {d : Draft} (hs : Stage.Sound ⟨d, R⟩) (hopen : d.IsOpen) (h : d.Orderly landing)
    (hland : d.LandsIn landing) :
    Ensures d (s.lower p) fun _ d' => Lays landing d R d' R ∧ d'.IsOpen := by
  match s with
  | .declare var init =>
      simp only [Stmt.lower]
      refine ((Composed.nil d).emitLast (by simp [Operation.operands])).bind ?_
      intro n d₁ hn
      cases init with
      | none => exact (hn.lays hs hopen h).imp_right And.left
      | some e =>
          refine (e.lower_composed p d₁).bind ?_
          intro v d₂ hv
          refine ((hn.append hv).emitNext (by simp [Operation.operands])).bind ?_
          intro t d₃ ht
          refine (ht.emitLast (by simp [Operation.operands])).bind ?_
          intro _ d₄ ha
          exact (ha.lays hs hopen h).imp_right And.left
  | .eval e =>
      rw [Stmt.lower]
      refine (e.lower_composed p d).bind ?_
      intro n d₁ hn
      exact (hn.lays hs hopen h).imp_right And.left
  | .branch condition thenBody elseBody =>
      rw [Stmt.lower]
      refine (condition.lower_composed p d).bind ?_
      intro c d₁ hc
      obtain ⟨h₁, hopen₁, -⟩ := hc.lays hs hopen h
      refine (branchOn_lays h₁.sound hopen₁ h₁.orderly c).bind ?_
      rintro ⟨thenBlock, elseBlock, merge⟩ d₂ h₂
      have hsub : landing ⊆ insert merge (insert elseBlock (insert thenBlock landing)) :=
        fun b hb => by simp [hb]
      refine (moveTo_lays h₂.sound h₂.orderly).bind ?_
      rintro - d₃ ⟨h₃, hopen₃, -⟩
      have hfork := (h₁.toPasses.trans h₂.toPasses).trans h₃.toPasses
      refine (Stmt.lowerBody_lays p thenBody h₃.sound hopen₃ h₃.orderly
        (hland.passes hfork hsub)).bind ?_
      rintro - d₄ ⟨h₄, hopen₄⟩
      refine (jumpIfOpen_lays h₄.sound hopen₄ h₄.orderly (Set.mem_insert _ _)).bind ?_
      intro _ d₅ h₅
      refine (moveTo_lays h₅.sound h₅.orderly).bind ?_
      rintro - d₆ ⟨h₆, hopen₆, -⟩
      have hthen := ((hfork.trans h₄.toPasses).trans h₅.toPasses).trans h₆.toPasses
      refine (Stmt.lowerOption_lays p elseBody h₆.sound hopen₆ h₆.orderly
        (hland.passes hthen hsub)).bind ?_
      rintro - d₇ ⟨h₇, hopen₇⟩
      refine (jumpIfOpen_lays h₇.sound hopen₇ h₇.orderly (Set.mem_insert _ _)).bind ?_
      intro _ d₈ h₈
      refine (moveTo_lays h₈.sound h₈.orderly).mono ?_
      rintro - d₉ ⟨h₉, hopen₉, -⟩
      have helse := (hthen.trans h₇.toPasses).trans h₈.toPasses
      exact ⟨(h₉.of_passes helse).mono hsub, hopen₉⟩
  | .loop condition body =>
      rw [Stmt.lower]
      refine (newBlock_lays [] R hs h).bind ?_
      rintro head d₁ ⟨h₁, hopen₁⟩
      refine (newBlock_lays [head] R h₁.sound h₁.orderly).bind ?_
      rintro bodyBlock d₂ ⟨h₂, hopen₂⟩
      refine (newBlock_lays [head, bodyBlock] R h₂.sound h₂.orderly).bind ?_
      rintro done d₃ ⟨h₃, hopen₃⟩
      have hsub : landing ⊆ insert done (insert bodyBlock (insert head landing)) :=
        fun b hb => by simp [hb]
      have hhead : head ∈ insert done (insert bodyBlock (insert head landing)) := by simp
      refine (jumpIfOpen_lays h₃.sound (hopen₃ (hopen₂ (hopen₁ hopen))) h₃.orderly hhead).bind ?_
      intro _ d₄ h₄
      refine (moveTo_lays h₄.sound h₄.orderly).bind ?_
      rintro - d₅ ⟨h₅, hopen₅, rfl⟩
      refine (condition.lower_composed p d₅).bind ?_
      intro c d₆ hc
      obtain ⟨h₆, hopen₆, -⟩ := hc.lays h₅.sound hopen₅ h₅.orderly
      have hstart := ((((h₁.toPasses.trans h₂.toPasses).trans h₃.toPasses).trans
        h₄.toPasses).trans h₅.toPasses).trans h₆.toPasses
      have hlt : d₅.current < d₆.graph.nextBlock :=
        Nat.lt_of_lt_of_le h₅.sound.current_lt h₆.run.extends.nextBlock_le
      have hnodup : [bodyBlock, done].Nodup :=
        List.Nodup.of_append_left (show ([bodyBlock, done] ++ R).Nodup from
          h₆.sound.reserved_nodup)
      refine (endBlock_lays h₆.sound h₆.orderly hlt (fun hmem => h₅.sound.reserved_ne hmem rfl)
        (.loop c bodyBlock done) (by simp [Terminator.targets]) hnodup).bind ?_
      intro _ d₇ h₇
      refine (insideLoop_lays (done :: R) h₇.sound h₇.orderly
        (hland.passes (hstart.trans h₇.toPasses) hsub) hhead (Set.mem_insert _ _)
        (fun d' => d'.IsOpen) (fun _ _ hQ => hQ) fun hs₇ h₇' hland₇ => ?_).bind ?_
      · refine (moveTo_lays hs₇ h₇').bind ?_
        rintro - d₈ ⟨h₈, hopen₈, -⟩
        refine (Stmt.lowerBody_lays p body h₈.sound hopen₈ h₈.orderly
          (hland₇.passes h₈.toPasses subset_rfl)).mono ?_
        rintro - d₉ ⟨h₉, hopen₉⟩
        exact ⟨h₉.of_passes h₈.toPasses, hopen₉⟩
      · rintro - d₈ ⟨h₈, hopen₈⟩
        refine (jumpIfOpen_lays h₈.sound hopen₈ h₈.orderly hhead).bind ?_
        intro _ d₉ h₉
        refine (moveTo_lays h₉.sound h₉.orderly).mono ?_
        rintro - d₁₀ ⟨h₁₀, hopen₁₀, -⟩
        have hbody := ((hstart.trans h₇.toPasses).trans h₈.toPasses).trans h₉.toPasses
        exact ⟨(h₁₀.of_passes hbody).mono hsub, hopen₁₀⟩
  | .select selector cases default =>
      rw [Stmt.lower]
      refine (selector.lower_composed p d).bind ?_
      intro n d₁ hn
      obtain ⟨h₁, hopen₁, hn₁⟩ := hn.lays hs hopen h
      refine ((newBlock_lays [] R h₁.sound h₁.orderly).and (newBlock_supplies hn₁)).bind ?_
      rintro done d₂ ⟨⟨h₂, hopen₂⟩, hn₂⟩
      refine ((newBlocks_lays cases.length [] (done :: R) h₂.sound (hopen₂ hopen₁) h₂.orderly).and
        (newBlocks_supplies _ hn₂)).bind ?_
      rintro bodies d₃ ⟨⟨h₃, hopen₃, hlength₃⟩, hn₃⟩
      refine ((newBlocks_lays default.toList.length bodies (done :: R) h₃.sound hopen₃
        h₃.orderly).and (newBlocks_supplies _ hn₃)).bind ?_
      rintro defaults d₄ ⟨⟨h₄, hopen₄, hlength₄⟩, hn₄⟩
      have hselect := ((h₁.toPasses.trans h₂.toPasses).trans h₃.toPasses).trans h₄.toPasses
      have hsub : landing ⊆ {b | b ∈ defaults} ∪ ({b | b ∈ bodies} ∪ insert done landing) :=
        fun b hb => by simp [hb]
      have hdone : done ∈ {b | b ∈ defaults} ∪ ({b | b ∈ bodies} ∪ insert done landing) := by simp
      refine (Case.lowerTests_lays p cases bodies h₄.sound hopen₄ h₄.orderly hn₄
        fun b hb => by simp [hb]).bind ?_
      rintro - d₅ ⟨h₅, hopen₅⟩
      have hhead : defaults.headD done ∈
          {b | b ∈ defaults} ∪ ({b | b ∈ bodies} ∪ insert done landing) := by
        cases defaults <;> simp
      refine (jumpIfOpen_lays h₅.sound hopen₅ h₅.orderly hhead).bind ?_
      intro _ d₆ h₆
      have htests := (hselect.trans h₅.toPasses).trans h₆.toPasses
      have hland₆ := hland.passes htests hsub
      refine (hland₆.enclosingNext hdone).bind ?_
      rintro next d₆ ⟨rfl, hnext⟩
      refine (insideLoop_lays (done :: R) h₆.sound h₆.orderly hland₆ hnext hdone
        (fun _ => True) (fun _ _ => id) fun hs₆ h₆' hland₆' => ?_).bind ?_
      · refine (Case.lowerBodies_lays p cases bodies defaults hs₆ hlength₃ h₆' hland₆'
          (fun b hb => ?_) hdone).bind ?_
        · rcases List.mem_append.1 hb with hb | hb <;> simp [hb]
        · intro _ d₇ h₇
          refine (Stmt.lowerDefault_lays p default defaults h₇.sound hlength₄ h₇.orderly
            (hland₆'.passes h₇.toPasses subset_rfl) hdone).mono ?_
          intro _ d₈ h₈
          exact ⟨h₈.of_passes h₇.toPasses, trivial⟩
      · rintro - d₇ ⟨h₇, -⟩
        refine (moveTo_lays h₇.sound h₇.orderly).mono ?_
        rintro - d₈ ⟨h₈, hopen₈, -⟩
        exact ⟨(h₈.of_passes (htests.trans h₇.toPasses)).mono hsub, hopen₈⟩
  | .leave value =>
      rw [Stmt.lower]
      refine (Expr.lowerOption_composed p value d).bind ?_
      intro v d₁ hv
      refine (hv.emitLast (by simp [Operation.operands])).bind ?_
      intro _ d₂ hn
      obtain ⟨h₂, hopen₂, -⟩ := hn.lays hs hopen h
      have hexit : ∀ c ∈ Terminator.targets d₂.graph.exit (.leave v), c ∈ landing := by
        simpa [Terminator.targets] using (hland.passes h₂.toPasses subset_rfl).exit_mem
      have hend : Ensures d₂ (fun d => endCurrent (.leave v) [d.graph.exit] d) fun _ d' =>
          Lays landing d₂ R d' R :=
        endCurrent_lays h₂.sound h₂.orderly (.leave v) hexit (by simp [Terminator.targets])
      refine hend.bind ?_
      intro _ d₃ h₃
      refine (moveToNew_lays h₃.sound h₃.orderly).mono ?_
      rintro - d₄ ⟨h₄, hopen₄⟩
      exact ⟨h₄.of_passes (h₂.toPasses.trans h₃.toPasses), hopen₄⟩
  | .raise value =>
      rw [Stmt.lower]
      refine (value.lower_composed p d).bind ?_
      intro v d₁ hv
      refine (hv.emitLast (by simp [Operation.operands])).bind ?_
      intro _ d₂ hn
      obtain ⟨h₂, hopen₂, -⟩ := hn.lays hs hopen h
      refine (endCurrent_lays h₂.sound h₂.orderly .stop (by simp [Terminator.targets])
        (by simp [Terminator.targets])).bind ?_
      intro _ d₃ h₃
      refine (moveToNew_lays h₃.sound h₃.orderly).mono ?_
      rintro - d₄ ⟨h₄, hopen₄⟩
      exact ⟨h₄.of_passes (h₂.toPasses.trans h₃.toPasses), hopen₄⟩
  | .check condition detail =>
      rw [Stmt.lower]
      refine (condition.lower_composed p d).bind ?_
      intro c d₁ hc
      refine (Expr.lowerOption_composed p detail d₁).bind ?_
      intro n d₂ hn
      refine ((hc.append hn).emitLast (by simp [Operation.operands])).bind ?_
      intro _ d₃ ha
      exact (ha.lays hs hopen h).imp_right And.left
  | .locked lock body =>
      rw [Stmt.lower]
      refine (lock.lower_composed p d).bind ?_
      intro l d₁ hl
      refine (hl.emitLast (by simp [Operation.operands])).bind ?_
      intro _ d₂ hn
      obtain ⟨h₂, hopen₂, -⟩ := hn.lays hs hopen h
      refine (Stmt.lowerBody_lays p body h₂.sound hopen₂ h₂.orderly
        (hland.passes h₂.toPasses subset_rfl)).mono ?_
      rintro - d₃ ⟨h₃, hopen₃⟩
      exact ⟨h₃.of_passes h₂.toPasses, hopen₃⟩
  | .block body =>
      rw [Stmt.lower]
      exact Stmt.lowerBody_lays p body hs hopen h hland
  | .exitLoop =>
      rw [Stmt.lower]
      exact jumpOut_lays hs h fun t ht => (hland.loops_mem ht).2
  | .nextRound =>
      rw [Stmt.lower]
      exact jumpOut_lays hs h fun t ht => (hland.loops_mem ht).1

theorem Stmt.lowerBody_lays (p : Program) (body : List Stmt) {landing : Set BlockId}
    {R : List BlockId} {d : Draft} (hs : Stage.Sound ⟨d, R⟩) (hopen : d.IsOpen)
    (h : d.Orderly landing) (hland : d.LandsIn landing) :
    Ensures d (Stmt.lowerBody p body) fun _ d' => Lays landing d R d' R ∧ d'.IsOpen := by
  match body with
  | [] =>
      rw [Stmt.lowerBody]
      exact ⟨⟨.refl hs, h⟩, hopen⟩
  | s :: rest =>
      rw [Stmt.lowerBody]
      refine (Stmt.lower_lays p s hs hopen h hland).bind ?_
      rintro - d₁ ⟨h₁, hopen₁⟩
      refine (Stmt.lowerBody_lays p rest h₁.sound hopen₁ h₁.orderly
        (hland.passes h₁.toPasses subset_rfl)).mono ?_
      rintro - d₂ ⟨h₂, hopen₂⟩
      exact ⟨h₂.of_passes h₁.toPasses, hopen₂⟩

theorem Stmt.lowerOption_lays (p : Program) (body : Option (List Stmt)) {landing : Set BlockId}
    {R : List BlockId} {d : Draft} (hs : Stage.Sound ⟨d, R⟩) (hopen : d.IsOpen)
    (h : d.Orderly landing) (hland : d.LandsIn landing) :
    Ensures d (Stmt.lowerOption p body) fun _ d' => Lays landing d R d' R ∧ d'.IsOpen := by
  match body with
  | none =>
      rw [Stmt.lowerOption]
      exact ⟨⟨.refl hs, h⟩, hopen⟩
  | some body =>
      rw [Stmt.lowerOption]
      exact Stmt.lowerBody_lays p body hs hopen h hland

theorem Case.lowerBodies_lays (p : Program) {done : BlockId} (cases : List Case)
    (bs rest : List BlockId) {landing : Set BlockId} {R : List BlockId} {d : Draft}
    (hs : Stage.Sound ⟨d, bs ++ (rest ++ done :: R)⟩) (hlength : bs.length = cases.length)
    (h : d.Orderly landing) (hland : d.LandsIn landing) (hbs : ∀ b ∈ bs ++ rest, b ∈ landing)
    (hdone : done ∈ landing) :
    Ensures d (Case.lowerBodies p done cases (bs ++ rest)) fun _ d' =>
      Lays landing d (bs ++ (rest ++ done :: R)) d' (rest ++ done :: R) := by
  match cases, bs with
  | [], [] =>
      simp only [Case.lowerBodies]
      exact ⟨.refl hs, h⟩
  | .mk label body :: cases, b :: bs =>
      rw [List.cons_append, Case.lowerBodies]
      refine (moveTo_lays hs h).bind ?_
      rintro - d₁ ⟨h₁, hopen₁, -⟩
      refine (Stmt.lowerBody_lays p body h₁.sound hopen₁ h₁.orderly
        (hland.passes h₁.toPasses subset_rfl)).bind ?_
      rintro - d₂ ⟨h₂, hopen₂⟩
      have hbs' : ∀ c ∈ bs ++ rest, c ∈ landing := fun c hc => hbs c (List.mem_cons_of_mem b hc)
      have hnext : (bs ++ rest).headD done ∈ landing := by
        cases hblocks : bs ++ rest with
        | nil => exact hdone
        | cons c _ => exact hbs' c (by simp [hblocks])
      refine (jumpIfOpen_lays h₂.sound hopen₂ h₂.orderly hnext).bind ?_
      intro _ d₃ h₃
      have hbody := (h₁.toPasses.trans h₂.toPasses).trans h₃.toPasses
      refine (Case.lowerBodies_lays p cases bs rest h₃.sound (by simpa using hlength) h₃.orderly
        (hland.passes hbody subset_rfl) hbs' hdone).mono ?_
      intro _ d₄ h₄
      exact h₄.of_passes hbody

theorem Stmt.lowerDefault_lays (p : Program) {done : BlockId} (default : Option (List Stmt))
    (bs : List BlockId) {landing : Set BlockId} {R : List BlockId} {d : Draft}
    (hs : Stage.Sound ⟨d, bs ++ done :: R⟩) (hlength : bs.length = default.toList.length)
    (h : d.Orderly landing) (hland : d.LandsIn landing) (hdone : done ∈ landing) :
    Ensures d (Stmt.lowerDefault p done default bs) fun _ d' =>
      Lays landing d (bs ++ done :: R) d' (done :: R) := by
  match default, bs with
  | none, [] =>
      simp only [Stmt.lowerDefault]
      exact ⟨.refl hs, h⟩
  | some body, [b] =>
      rw [Stmt.lowerDefault]
      refine (moveTo_lays hs h).bind ?_
      rintro - d₁ ⟨h₁, hopen₁, -⟩
      refine (Stmt.lowerBody_lays p body h₁.sound hopen₁ h₁.orderly
        (hland.passes h₁.toPasses subset_rfl)).bind ?_
      rintro - d₂ ⟨h₂, hopen₂⟩
      refine (jumpIfOpen_lays h₂.sound hopen₂ h₂.orderly hdone).mono ?_
      intro _ d₃ h₃
      exact h₃.of_passes (h₁.toPasses.trans h₂.toPasses)

end

theorem Lowering.finish_orderly {landing : Set BlockId} {d : Draft} (h : d.Orderly landing)
    (hland : d.LandsIn landing) : Ensures d finish fun _ d' => d'.Orderly landing := by
  rw [Ensures, finish]
  split
  · split
    · exact h.endWith d.current (by simpa [Terminator.targets] using hland.exit_mem)
    · exact h
  · exact h

/-- The graph of a procedure is that of an orderly draft. -/
theorem Procedure.exists_orderly_lower (p : Program) (proc : Procedure) :
    ∃ d landing, Draft.Orderly landing d ∧ d.graph = proc.lower p := by
  have hstart : proc.startDraft.Orderly {proc.startDraft.graph.exit} := by
    refine ⟨fun {b} hb => ?_, fun n node hn => ?_, fun n node a hn => ?_⟩
    · rw [Set.mem_singleton_iff.1 hb]
      exact proc.sound_startDraft.exit_lt
    · simp [Graph.node?, startDraft, Graph.start] at hn
    · simp [Graph.node?, startDraft, Graph.start] at hn
  have hland : proc.startDraft.LandsIn {proc.startDraft.graph.exit} :=
    ⟨rfl, fun ht => by cases ht⟩
  have hbody := Stmt.lowerBody_lays p proc.body proc.sound_startDraft ⟨.fresh 0, rfl, rfl⟩ hstart
    hland
  exact ⟨_, _, Lowering.finish_orderly hbody.1.orderly
    (hland.passes hbody.1.toPasses subset_rfl), rfl⟩

theorem Procedure.operandsPrior_lower (p : Program) (proc : Procedure) :
    (proc.lower p).OperandsPrior Set.univ := by
  obtain ⟨d, landing, horderly, hgraph⟩ := proc.exists_orderly_lower p
  rw [← hgraph]
  exact horderly.operands.mono (Set.subset_univ _)

theorem Procedure.bridged_lower (p : Program) (proc : Procedure) : (proc.lower p).Bridged := by
  obtain ⟨d, landing, horderly, hgraph⟩ := proc.exists_orderly_lower p
  rw [← hgraph]
  exact horderly.bridged

end Disclosure
