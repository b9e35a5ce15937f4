import Disclosure.Proofs.Lowering.Counting
import Disclosure.Proofs.Lowering.Order

/-!
# How control spreads while a graph is built

The blocks that control can come to are known at every moment of the construction.  They change only
when a block ends: if control comes to it, it comes to the targets.  Nothing else follows from that,
because a target is either a block without edges, which was added for later, or control comes to it
already, as to the head of a loop.

`Draft.Marked` records of a draft to which of its nodes control comes, and `Spreads` says of a run
what control comes to in addition among the blocks that were there before.
-/

namespace Disclosure

namespace Graph

variable {g g' : Graph} {b c : BlockId}

theorem Reachable.of_succs_subset (h : g.Reachable b) (hentry : g'.entry = g.entry)
    (hsub : ∀ p, g.succs p ⊆ g'.succs p) : g'.Reachable b := by
  induction h with
  | entry => exact hentry ▸ .entry
  | step _ hedge ih => exact ih.step (hsub _ hedge)

theorem reachable_iff_of_succs_eq (hentry : g'.entry = g.entry)
    (hsuccs : ∀ p, g'.succs p = g.succs p) : g'.Reachable b ↔ g.Reachable b := by
  constructor
  · exact fun h => h.of_succs_subset hentry.symm fun p => by simp [hsuccs]
  · exact fun h => h.of_succs_subset hentry fun p => by simp [hsuccs]

@[simp] theorem reachable_addBlock : g.addBlock.Reachable b ↔ g.Reachable b :=
  reachable_iff_of_succs_eq rfl g.succs_addBlock

theorem Enclosed.lt_of_reachable (hg : g.Enclosed) (h : g.Reachable b) : b < g.nextBlock := by
  cases h with
  | entry => exact hg.entry_lt
  | step _ hedge => exact hg.succs_lt hedge

/-- Control comes to the targets of a block that ends, if it comes to the block, and to nothing else
in addition. -/
theorem reachable_endWith {t : Terminator} (hc : (g.block? c).isSome = true)
    (ht : ∀ b ∈ t.targets g.exit, g.succs b = [] ∨ (g.Reachable c → g.Reachable b)) :
    (g.endWith c t).Reachable b ↔ g.Reachable b ∨ (g.Reachable c ∧ b ∈ t.targets g.exit) := by
  have hold : ∀ {b}, g.Reachable b → (g.endWith c t).Reachable b := fun h =>
    h.of_succs_subset (by simp) fun p b hb => mem_succs_endWith.2 (Or.inl hb)
  constructor
  · intro h
    induction h with
    | entry => exact Or.inl (by simpa using Reachable.entry)
    | @step p b _ hedge ih =>
        rcases mem_succs_endWith.1 hedge with hedge | ⟨rfl, -, hb⟩
        · rcases ih with hp | ⟨hreach, hp⟩
          · exact Or.inl (hp.step hedge)
          · rcases ht p hp with hnil | himp
            · exact absurd hedge (by simp [hnil])
            · exact Or.inl ((himp hreach).step hedge)
        · exact Or.inr ⟨ih.elim id And.left, hb⟩
  · rintro (h | ⟨hreach, hb⟩)
    · exact hold h
    · exact (hold hreach).step (mem_succs_endWith.2 (Or.inr ⟨rfl, hc, hb⟩))

end Graph

namespace Draft

/-- Control comes to the current block if `live` holds, and to the nodes that are marked; it cannot
go on from the blocks of `R`, which have no nodes. -/
structure Marked (R : List BlockId) (live : Bool) (marks : List Bool) (d : Draft) : Prop where
  blank : ∀ {b}, b ∈ R → d.graph.succs b = []
  housed : ∀ {n node}, d.graph.node? n = some node →
    node.block < d.graph.nextBlock ∧ node.block ∉ R
  current_iff : d.graph.Reachable d.current ↔ live = true
  length_eq : marks.length = d.graph.nextNode
  marked_iff : ∀ {n node}, d.graph.node? n = some node →
    (d.graph.Reachable node.block ↔ marks[n]? = some true)

variable {R : List BlockId} {live live' : Bool} {marks : List Bool} {d d' : Draft}

def enter (d : Draft) (t : JumpTargets) : Draft := { d with loops := t :: d.loops }

theorem Marked.retarget (h : d.Marked R live marks) (loops : List JumpTargets) :
    Marked R live marks { d with loops := loops } :=
  ⟨h.blank, h.housed, h.current_iff, h.length_eq, h.marked_iff⟩

theorem Marked.addBlock {before after : List BlockId}
    (h : d.Marked (before ++ after) live marks) :
    Marked (before ++ d.graph.nextBlock :: after) live marks
      { d with graph := d.graph.addBlock } where
  blank {b} hb := by
    rw [Graph.succs_addBlock]
    rcases List.mem_cons.1 (List.perm_middle.mem_iff.1 hb) with rfl | hb
    · exact Graph.succs_eq_nil_of_size_le (Nat.le_refl _)
    · exact h.blank hb
  housed hn := by
    obtain ⟨hlt, hapart⟩ := h.housed hn
    refine ⟨Nat.lt_of_lt_of_eq (Nat.lt_succ_of_lt hlt) d.graph.nextBlock_addBlock.symm,
      fun hmem => ?_⟩
    rcases List.mem_cons.1 (List.perm_middle.mem_iff.1 hmem) with heq | hmem
    · exact Nat.ne_of_lt hlt heq
    · exact hapart hmem
  current_iff := Graph.reachable_addBlock.trans h.current_iff
  length_eq := h.length_eq
  marked_iff hn := Graph.reachable_addBlock.trans (h.marked_iff hn)

theorem Marked.moveTo {b : BlockId} (h : d.Marked (b :: R) live marks)
    (hb : d.graph.Reachable b ↔ live' = true) : Marked R live' marks { d with current := b } where
  blank hc := h.blank (List.mem_cons_of_mem _ hc)
  housed hn := (h.housed hn).imp_right fun hapart hmem => hapart (List.mem_cons_of_mem _ hmem)
  current_iff := hb
  length_eq := h.length_eq
  marked_iff := h.marked_iff

theorem Marked.reachable_endWith (h : d.Marked R live marks) {c : BlockId} {t : Terminator}
    (hc : (d.graph.block? c).isSome = true)
    (ht : ∀ b ∈ t.targets d.graph.exit,
      b ∈ R ∨ (d.graph.Reachable c → d.graph.Reachable b)) {b : BlockId} :
    (d.graph.endWith c t).Reachable b ↔
      d.graph.Reachable b ∨ (d.graph.Reachable c ∧ b ∈ t.targets d.graph.exit) :=
  Graph.reachable_endWith hc fun b hb => (ht b hb).imp_left h.blank

theorem Marked.endWith (h : d.Marked R live marks) {c : BlockId} {t : Terminator}
    (hc : (d.graph.block? c).isSome = true) (hcR : c ∉ R) (hcurrent : d.current ∉ R)
    (ht : ∀ b ∈ t.targets d.graph.exit,
      b ∈ R ∨ (d.graph.Reachable c → d.graph.Reachable b)) :
    Marked R live marks { d with graph := d.graph.endWith c t } := by
  -- only blocks of `R` are new to control
  have hkept : ∀ {b}, b ∉ R → ((d.graph.endWith c t).Reachable b ↔ d.graph.Reachable b) := by
    intro b hb
    rw [h.reachable_endWith hc ht, or_iff_left_iff_imp]
    rintro ⟨hreach, htarget⟩
    exact (ht b htarget).resolve_left hb hreach
  refine ⟨fun {b} hb => ?_, fun {n node} hn => ?_, (hkept hcurrent).trans h.current_iff, ?_,
    fun {n node} hn => ?_⟩
  · rw [List.eq_nil_iff_forall_not_mem]
    intro b' hedge
    rcases Graph.mem_succs_endWith.1 hedge with hold | ⟨rfl, -⟩
    · simp [h.blank hb] at hold
    · exact hcR hb
  · have hn' : d.graph.node? n = some node := by simpa [Graph.node?] using hn
    simpa using h.housed hn'
  · simpa [Graph.nextNode] using h.length_eq
  · have hn' : d.graph.node? n = some node := by simpa [Graph.node?] using hn
    exact (hkept (h.housed hn').2).trans (h.marked_iff hn')

theorem Spans.reachable_iff (h : d.Spans d') {b : BlockId} (hb : b < d.graph.nextBlock) :
    d'.graph.Reachable b ↔ d.graph.Reachable b := by
  refine ⟨fun hreach => ?_, fun hreach => hreach.of_succs_subset h.entry_eq h.succs_subset⟩
  induction hreach with
  | entry => exact h.entry_eq ▸ .entry
  | @step p b _ hedge ih =>
      rcases h.edge hedge with hold | ⟨hadded, -⟩
      · obtain ⟨block, hblock, -⟩ := Graph.mem_succs_iff.1 hold
        exact (ih (Graph.lt_nextBlock_of_block? hblock)).step hold
      · exact absurd hb (Nat.not_lt_of_le hadded.1)

end Draft

namespace Lowering

open Draft (Marked)

/-- A run after which control comes, of the blocks that were there before it, also to those of
`out`; it comes to the current block if `live` holds, and to the nodes that are marked. -/
structure Spreads (out : Set BlockId) (d : Draft) (R : List BlockId) (d' : Draft)
    (R' : List BlockId) (live : Bool) (marks : List Bool) : Prop
    extends Passes .free d R d' R' where
  marked : d'.Marked R' live marks
  reachable_iff : ∀ {b}, b < d.graph.nextBlock →
    (d'.graph.Reachable b ↔ d.graph.Reachable b ∨ b ∈ out)

variable {out out' : Set BlockId} {R R' R'' : List BlockId} {live live' : Bool}
  {marks marks' : List Bool} {d d' d'' : Draft}

namespace Spreads

theorem refl (hs : Stage.Sound ⟨d, R⟩) (h : d.Marked R live marks) :
    Spreads ∅ d R d R live marks :=
  ⟨.refl hs, h, fun _ => by simp⟩

theorem trans (h : Spreads out d R d' R' live marks)
    (h' : Spreads out' d' R' d'' R'' live' marks') :
    Spreads (out ∪ out') d R d'' R'' live' marks' := by
  refine ⟨h.toPasses.trans h'.toPasses, h'.marked, fun {b} hb => ?_⟩
  rw [h'.reachable_iff (Nat.lt_of_lt_of_le hb h.run.extends.nextBlock_le), h.reachable_iff hb,
    or_assoc, Set.mem_union]

theorem reachable (h : Spreads out d R d' R' live marks) {b : BlockId} (hb : b < d.graph.nextBlock)
    (hreach : d.graph.Reachable b) : d'.graph.Reachable b :=
  (h.reachable_iff hb).2 (Or.inl hreach)

theorem reachable_iff_of_notMem (h : Spreads out d R d' R' live marks) {b : BlockId}
    (hb : b < d.graph.nextBlock) (hout : b ∉ out) :
    d'.graph.Reachable b ↔ d.graph.Reachable b := by
  rw [h.reachable_iff hb, or_iff_left hout]

/-- Only the blocks that were there before matter, and among them those that control did not come
to. -/
theorem congr (h : Spreads out d R d' R' live marks)
    (hout : ∀ b < d.graph.nextBlock, ¬ d.graph.Reachable b → (b ∈ out ↔ b ∈ out')) :
    Spreads out' d R d' R' live marks := by
  refine ⟨h.toPasses, h.marked, fun {b} hb => ?_⟩
  rw [h.reachable_iff hb]
  by_cases hreach : d.graph.Reachable b
  · simp [hreach]
  · simp [hreach, hout b hb hreach]

theorem absorb (h : Spreads out d R d' R' live marks) (hout : ∀ b ∈ out, d.graph.Reachable b) :
    Spreads ∅ d R d' R' live marks :=
  h.congr fun b _ hnot => by simpa using fun hb => hnot (hout b hb)

end Spreads

section Primitives

theorem newBlock_spreads (before after : List BlockId) (hs : Stage.Sound ⟨d, before ++ after⟩)
    (h : d.Marked (before ++ after) live marks) :
    Ensures d newBlock fun b d' =>
      Spreads ∅ d (before ++ after) d' (before ++ b :: after) live marks ∧
        (d.IsOpen → d'.IsOpen) ∧ b = d.graph.nextBlock ∧ ¬ d'.graph.Reachable b := by
  have hpass := newBlock_passes .free before after hs
  refine ⟨⟨hpass.1, h.addBlock, fun _ => ?_⟩, hpass.2.1, rfl, fun hreach => ?_⟩
  · rw [Set.mem_empty_iff_false, or_false]
    exact Graph.reachable_addBlock
  · exact Nat.lt_irrefl _ (hs.enclosed.lt_of_reachable (Graph.reachable_addBlock.1 hreach))

theorem newBlocks_spreads (n : Nat) (before after : List BlockId)
    (hs : Stage.Sound ⟨d, before ++ after⟩) (hopen : d.IsOpen)
    (h : d.Marked (before ++ after) live marks) :
    Ensures d (newBlocks n) fun bs d' =>
      Spreads ∅ d (before ++ after) d' (before ++ (bs ++ after)) live marks ∧ d'.IsOpen ∧
        bs.length = n ∧ ∀ b ∈ bs, d.graph.nextBlock ≤ b ∧ ¬ d'.graph.Reachable b := by
  induction n generalizing before d with
  | zero => exact ⟨.refl hs h, hopen, rfl, by simp⟩
  | succ n ih =>
      rw [newBlocks]
      refine (newBlock_spreads before after hs h).bind ?_
      rintro b d₁ ⟨h₁, hopen₁, hb, hnot⟩
      have hs₁ : Stage.Sound ⟨d₁, (before ++ [b]) ++ after⟩ := by simpa using h₁.sound
      refine (ih (before ++ [b]) hs₁ (hopen₁ hopen) (by simpa using h₁.marked)).bind ?_
      rintro bs d₂ ⟨h₂, hopen₂, hlength, hbs⟩
      have hle := h₁.run.extends.nextBlock_le
      rw [List.append_assoc, List.append_assoc] at h₂
      refine ⟨(h₁.trans h₂).congr (by simp), hopen₂, congrArg (· + 1) hlength, fun c hc => ?_⟩
      rcases List.mem_cons.1 hc with rfl | hc
      · have hlt : c < d₁.graph.nextBlock :=
          h₁.sound.reserved_lt (List.mem_append_right _ List.mem_cons_self)
        refine ⟨Nat.le_of_eq hb.symm, fun hreach => hnot ?_⟩
        simpa using (h₂.reachable_iff hlt).1 hreach
      · exact (hbs c hc).imp_left (Nat.le_trans hle)

theorem moveTo_spreads {b : BlockId} (hs : Stage.Sound ⟨d, b :: R⟩)
    (h : d.Marked (b :: R) live marks) (hb : d.graph.Reachable b ↔ live' = true) :
    Ensures d (moveTo b) fun _ d' =>
      Spreads ∅ d (b :: R) d' R live' marks ∧ d'.IsOpen ∧ d'.current = b := by
  have hpass := moveTo_passes .free hs False.elim
  exact ⟨⟨hpass.1, h.moveTo hb, fun _ => by simp [moveTo]⟩, hpass.2⟩

theorem endBlock_spreads (hs : Stage.Sound ⟨d, R⟩) (h : d.Marked R live marks) {c : BlockId}
    (hc : c < d.graph.nextBlock) (hcR : c ∉ R) (t : Terminator)
    (hlt : ∀ b ∈ t.targets d.graph.exit, b < d.graph.nextBlock)
    (hnodup : (t.targets d.graph.exit).Nodup)
    (ht : ∀ b ∈ t.targets d.graph.exit,
      b ∈ R ∨ (d.graph.Reachable c → d.graph.Reachable b)) :
    Ensures d (endBlock c t (t.targets d.graph.exit)) fun _ d' =>
      Spreads {b | d.graph.Reachable c ∧ b ∈ t.targets d.graph.exit} d R d' R live marks := by
  obtain ⟨block, hblock⟩ := hs.linked.exists_block hc
  have hsome : (d.graph.block? c).isSome = true := by rw [hblock]; rfl
  exact ⟨.single hs (.close c t hc hcR hlt hnodup False.elim) rfl,
    h.endWith hsome hcR (fun hmem => hs.reserved_ne hmem rfl) ht,
    fun _ => h.reachable_endWith hsome ht⟩

theorem endCurrent_spreads (hs : Stage.Sound ⟨d, R⟩) (h : d.Marked R live marks) (t : Terminator)
    (hlt : ∀ b ∈ t.targets d.graph.exit, b < d.graph.nextBlock)
    (hnodup : (t.targets d.graph.exit).Nodup)
    (ht : ∀ b ∈ t.targets d.graph.exit, b ∈ R ∨ (live = true → d.graph.Reachable b)) :
    Ensures d (endCurrent t (t.targets d.graph.exit)) fun _ d' =>
      Spreads {b | live = true ∧ b ∈ t.targets d.graph.exit} d R d' R live marks := by
  simp only [← h.current_iff] at ht ⊢
  exact endBlock_spreads hs h hs.current_lt (fun hmem => hs.reserved_ne hmem rfl) t hlt hnodup ht

theorem jumpIfOpen_spreads (hs : Stage.Sound ⟨d, R⟩) (hopen : d.IsOpen) (h : d.Marked R live marks)
    {target : BlockId} (hlt : target < d.graph.nextBlock)
    (ht : target ∈ R ∨ (live = true → d.graph.Reachable target)) :
    Ensures d (jumpIfOpen target) fun _ d' =>
      Spreads {b | live = true ∧ b = target} d R d' R live marks := by
  have hend := endCurrent_spreads hs h (.goto target) (by simpa [Terminator.targets] using hlt)
    (by simp [Terminator.targets]) (by simpa [Terminator.targets] using ht)
  simp only [Terminator.targets, List.mem_singleton] at hend
  rw [Ensures, jumpIfOpen_eq hopen]
  exact hend

theorem moveToNew_spreads (hs : Stage.Sound ⟨d, R⟩) (h : d.Marked R live marks) :
    Ensures d moveToNew fun _ d' => Spreads ∅ d R d' R false marks ∧ d'.IsOpen := by
  refine (newBlock_spreads [] R hs h).bind ?_
  rintro b d₁ ⟨h₁, -, -, hnot⟩
  have hdead : d₁.graph.Reachable b ↔ false = true := by simpa using hnot
  refine (moveTo_spreads h₁.sound h₁.marked hdead).mono ?_
  rintro - d₂ ⟨h₂, hopen₂, -⟩
  exact ⟨(h₁.trans h₂).congr (by simp), hopen₂⟩

theorem threeBlocks_spreads {α : Type} {f : BlockId → BlockId → BlockId → Lowering α}
    {post : α → Draft → Prop} (hs : Stage.Sound ⟨d, R⟩) (h : d.Marked R live marks)
    (hf : ∀ b₁ b₂ b₃ d', Spreads ∅ d R d' (b₁ :: b₂ :: b₃ :: R) live marks →
      (d.IsOpen → d'.IsOpen) →
      (∀ b ∈ [b₁, b₂, b₃], d.graph.nextBlock ≤ b ∧ ¬ d'.graph.Reachable b) →
      Ensures d' (f b₁ b₂ b₃) post) :
    Ensures d (do
      let b₁ ← newBlock
      let b₂ ← newBlock
      let b₃ ← newBlock
      f b₁ b₂ b₃) post := by
  refine (newBlock_spreads [] R hs h).bind ?_
  rintro b₁ d₁ ⟨h₁, hopen₁, heq₁, hnot₁⟩
  refine (newBlock_spreads [b₁] R h₁.sound h₁.marked).bind ?_
  rintro b₂ d₂ ⟨h₂, hopen₂, heq₂, hnot₂⟩
  refine (newBlock_spreads [b₁, b₂] R h₂.sound h₂.marked).bind ?_
  rintro b₃ d₃ ⟨h₃, hopen₃, heq₃, hnot₃⟩
  have hle₁ := h₁.run.extends.nextBlock_le
  have hle₂ := h₂.run.extends.nextBlock_le
  have hlt₁ : b₁ < d₁.graph.nextBlock := h₁.sound.reserved_lt List.mem_cons_self
  have hlt₂ : ∀ {b}, b ∈ [b₁, b₂] → b < d₂.graph.nextBlock :=
    fun hb => h₂.sound.reserved_lt (List.mem_append_left R hb)
  refine hf b₁ b₂ b₃ d₃ (((h₁.trans h₂).trans h₃).congr (by simp))
    (fun hopen => hopen₃ (hopen₂ (hopen₁ hopen))) fun b hb => ?_
  simp only [List.mem_cons, List.not_mem_nil, or_false] at hb
  rcases hb with rfl | rfl | rfl
  · refine ⟨Nat.le_of_eq heq₁.symm, ?_⟩
    rwa [h₃.reachable_iff_of_notMem (hlt₂ (by simp)) (Set.notMem_empty _),
      h₂.reachable_iff_of_notMem hlt₁ (Set.notMem_empty _)]
  · refine ⟨Nat.le_trans hle₁ (Nat.le_of_eq heq₂.symm), ?_⟩
    rwa [h₃.reachable_iff_of_notMem (hlt₂ (by simp)) (Set.notMem_empty _)]
  · exact ⟨Nat.le_trans (Nat.le_trans hle₁ hle₂) (Nat.le_of_eq heq₃.symm), hnot₃⟩

theorem branchOn_spreads (hs : Stage.Sound ⟨d, R⟩) (h : d.Marked R live marks)
    (condition : NodeId) :
    Ensures d (branchOn condition) fun targets d' =>
      Spreads ∅ d R d' (targets.1 :: targets.2.1 :: targets.2.2 :: R) live marks ∧
        (d'.graph.Reachable targets.1 ↔ live = true) ∧
        (d'.graph.Reachable targets.2.1 ↔ live = true) ∧
        ¬ d'.graph.Reachable targets.2.2 ∧ d.graph.nextBlock ≤ targets.2.2 := by
  refine threeBlocks_spreads hs h fun thenBlock elseBlock merge d₁ h₁ _ hnew => ?_
  have hlt : ∀ {b}, b ∈ [thenBlock, elseBlock, merge] → b < d₁.graph.nextBlock :=
    fun hb => h₁.sound.reserved_lt (List.mem_append_left R hb)
  have hnodup : [thenBlock, elseBlock, merge].Nodup :=
    (List.nodup_append.1 (show ([thenBlock, elseBlock, merge] ++ R).Nodup from
      h₁.sound.reserved_nodup)).1
  have hne : merge ≠ thenBlock ∧ merge ≠ elseBlock := by grind
  refine (endCurrent_spreads h₁.sound h₁.marked (.branch condition thenBlock elseBlock)
    (fun b hb => hlt (List.mem_append_left [merge] hb))
    (List.Nodup.of_append_left (show ([thenBlock, elseBlock] ++ [merge]).Nodup from hnodup))
    fun b hb => Or.inl (List.mem_append_left (merge :: R) hb)).bind ?_
  intro _ d₂ h₂
  have hthen : d₂.graph.Reachable thenBlock ↔ live = true := by
    rw [h₂.reachable_iff (hlt (by simp))]
    simp [Terminator.targets, hnew]
  have helse : d₂.graph.Reachable elseBlock ↔ live = true := by
    rw [h₂.reachable_iff (hlt (by simp))]
    simp [Terminator.targets, hnew]
  have hmerge : ¬ d₂.graph.Reachable merge := by
    rw [h₂.reachable_iff (hlt (by simp))]
    simp [Terminator.targets, hnew, hne]
  refine ⟨(h₁.trans h₂).congr fun b hb _ => ?_, hthen, helse, hmerge, (hnew merge (by simp)).1⟩
  have hold : b ∉ [thenBlock, elseBlock] := fun hmem =>
    Nat.not_lt_of_le (hnew b (List.mem_append_left [merge] hmem)).1 hb
  simpa [Terminator.targets] using fun _ => hold

theorem jumpOut_spreads (hs : Stage.Sound ⟨d, R⟩) (h : d.Marked R live marks)
    {target : JumpTargets → BlockId} {t : JumpTargets} {rest : List JumpTargets}
    (hloops : d.loops = t :: rest) (hlt : target t < d.graph.nextBlock)
    (ht : target t ∈ R ∨ (live = true → d.graph.Reachable (target t))) :
    Ensures d (jumpOut target) fun _ d' =>
      Spreads {b | live = true ∧ b = target t} d R d' R false marks ∧ d'.IsOpen := by
  have hjump : Ensures d (do endCurrent (.goto (target t)) [target t]; moveToNew) fun _ d' =>
      Spreads {b | live = true ∧ b = target t} d R d' R false marks ∧ d'.IsOpen := by
    refine (endCurrent_spreads hs h (.goto (target t)) (by simpa [Terminator.targets] using hlt)
      (by simp [Terminator.targets]) (by simpa [Terminator.targets] using ht)).bind ?_
    intro _ d₁ h₁
    refine (moveToNew_spreads h₁.sound h₁.marked).mono ?_
    rintro - d₂ ⟨h₂, hopen₂⟩
    exact ⟨(h₁.trans h₂).congr (by simp [Terminator.targets]), hopen₂⟩
  simp only [Ensures, jumpOut, hloops] at hjump ⊢
  exact hjump

theorem nextTest_spreads (hs : Stage.Sound ⟨d, R⟩) (h : d.Marked R live marks) (test : NodeId)
    {b : BlockId} (hb : b ∈ R) :
    Spreads {c | live = true ∧ c = b} d R (nextTest test b d) R live marks ∧
      (nextTest test b d).IsOpen := by
  have hpass := nextTest_passes hs test (hs.reserved_lt hb)
  have hmarked : d.Marked ([] ++ R) live marks := h
  have hnew : Marked (d.graph.nextBlock :: R) live marks { d with graph := d.graph.addBlock } :=
    hmarked.addBlock
  have hne : ∀ {c}, c < d.graph.nextBlock → c ∉ R → c ∉ d.graph.nextBlock :: R := by
    intro c hc hcR hmem
    rcases List.mem_cons.1 hmem with rfl | hmem
    · exact Nat.lt_irrefl _ hc
    · exact hcR hmem
  have hcurrent : d.current ∉ d.graph.nextBlock :: R :=
    hne hs.current_lt fun hmem => hs.reserved_ne hmem rfl
  obtain ⟨block, hblock⟩ := hs.linked.addBlock.exists_block
    (Nat.lt_of_lt_of_eq (Nat.lt_succ_of_lt hs.current_lt) d.graph.nextBlock_addBlock.symm)
  have hsome : (d.graph.addBlock.block? d.current).isSome = true := by rw [hblock]; rfl
  have htargets : ∀ c ∈ Terminator.targets d.graph.exit (.branch test b d.graph.nextBlock),
      c ∈ d.graph.nextBlock :: R ∨ (d.graph.addBlock.Reachable d.current →
        d.graph.addBlock.Reachable c) := by
    simp [Terminator.targets, hb]
  have hreach : ∀ {c}, (nextTest test b d).graph.Reachable c ↔
      d.graph.Reachable c ∨ (live = true ∧ (c = b ∨ c = d.graph.nextBlock)) := by
    intro c
    have hiff := hnew.reachable_endWith (b := c) hsome htargets
    rwa [Graph.reachable_addBlock, Graph.reachable_addBlock, h.current_iff, Graph.exit_addBlock,
      Terminator.targets, List.mem_pair] at hiff
  have hfresh : ¬ d.graph.Reachable d.graph.nextBlock :=
    fun hr => Nat.lt_irrefl _ (hs.enclosed.lt_of_reachable hr)
  have hb' : b ≠ d.graph.nextBlock := Nat.ne_of_lt (hs.reserved_lt hb)
  refine ⟨⟨hpass.1, (hnew.endWith hsome hcurrent hcurrent htargets).moveTo ?_, fun {c} hc => ?_⟩,
    hpass.2⟩
  · exact hreach.trans (by simp [hfresh])
  · rw [hreach]
    simp [Nat.ne_of_lt hc]

theorem insideLoop_spreads {t : JumpTargets} {body : Lowering Unit} (hs : Stage.Sound ⟨d, R⟩)
    (h : d.Marked R live marks) (hnext : t.next < d.graph.nextBlock)
    (hdone : t.done < d.graph.nextBlock) {Q : Bool → Draft → Prop}
    (hQ : ∀ {atEnd d} loops, Q atEnd d → Q atEnd { d with loops := loops })
    (hbody : Stage.Sound ⟨d.enter t, R⟩ → (d.enter t).Marked R live marks →
      Ensures (d.enter t) body fun _ d' => ∃ atEnd,
        Spreads out (d.enter t) R d' R' atEnd marks' ∧ Q atEnd d') :
    Ensures d (insideLoop t body) fun _ d' => ∃ atEnd,
      Spreads out d R d' R' atEnd marks' ∧ Q atEnd d' := by
  have hall := insideLoop_passes .free R'
    (Q := fun d' => ∃ atEnd, d'.Marked R' atEnd marks' ∧ Q atEnd d' ∧ ∀ b < d.graph.nextBlock,
      (d'.graph.Reachable b ↔ d.graph.Reachable b ∨ b ∈ out)) hs hnext hdone
    (fun hs' => (hbody hs' (h.retarget _)).mono fun _ _ ⟨atEnd, h', hq⟩ =>
      ⟨h'.toPasses, atEnd, h'.marked, hq, fun _ => h'.reachable_iff⟩)
    fun d' loops ⟨atEnd, hmarked, hq, hreach⟩ =>
      ⟨atEnd, hmarked.retarget loops, hQ loops hq, hreach⟩
  exact hall.mono fun _ _ ⟨hpass, atEnd, hmarked, hq, hreach⟩ =>
    ⟨atEnd, ⟨hpass, hmarked, hreach _⟩, hq⟩

/-- Control leaves a body that it can come to the end of: the entry block has no predecessor, but
any other block that control comes to has one. -/
theorem finish_spreads (hs : Stage.Sound ⟨d, R⟩) (hopen : d.IsOpen) (h : d.Marked R live marks)
    (hexit : d.graph.exit ∈ R) :
    Ensures d finish fun _ d' =>
      Spreads {b | live = true ∧ b = d.graph.exit} d R d' R live marks := by
  obtain ⟨⟨id, nodes, term, preds, succs⟩, hblock, hterm⟩ := hopen
  cases hterm
  rw [Ensures, finish]
  simp only [hblock]
  have hentered : live = true → d.current = d.graph.entry ∨ preds ≠ [] := by
    intro hlive
    by_cases hentry : d.current = d.graph.entry
    · exact Or.inl hentry
    · obtain ⟨p, -, hedge, -⟩ := (h.current_iff.2 hlive).exists_pred_place_lt hentry
      obtain ⟨pblock, hpblock, hmem⟩ := Graph.mem_succs_iff.1 hedge
      exact Or.inr (List.ne_nil_of_mem ((hs.linked.mirrored hpblock hblock).2 hmem))
  split
  · have hend := endCurrent_spreads hs h (.leave none)
      (by simpa [Terminator.targets] using hs.exit_lt) (by simp [Terminator.targets])
      (by simp [Terminator.targets, hexit])
    simp only [Terminator.targets, List.mem_singleton] at hend
    exact hend
  · rename_i hnot
    have hdead : ¬ live = true := fun hlive => hnot (hentered hlive)
    exact (Spreads.refl hs h).congr (by simp [hdead])

end Primitives

section Expressions

theorem Region.reachable_iff (h : Region d d') (hs : Stage.Sound ⟨d, R⟩) {b : BlockId}
    (hb : b = d.current ∨ b ∈ d.Added d') :
    d'.graph.Reachable b ↔ d.graph.Reachable d.current := by
  have hcurrent := h.toSpans.reachable_iff hs.current_lt
  rcases hb with rfl | hb
  · exact hcurrent
  · rw [← hcurrent]
    exact ⟨fun hreach => ((h.enteredFrom hs.enclosed).reachable_and_place_lt hb hreach).1,
      fun hreach => hreach.leads (h.leads hb)⟩

theorem Region.spreads {k : Nat} (hregion : Region d d') (hpass : Passes .free d R d' R)
    (hhouses : d.Houses d') (hnext : d'.graph.nextNode = d.graph.nextNode + k)
    (hs : Stage.Sound ⟨d, R⟩) (h : d.Marked R live marks) :
    Spreads ∅ d R d' R live (marks ++ List.replicate k live) := by
  have hold : ∀ {b}, b < d.graph.nextBlock →
      (d'.graph.Reachable b ↔ d.graph.Reachable b) := hregion.toSpans.reachable_iff
  have hnew : ∀ {b}, b = d.current ∨ b ∈ d.Added d' →
      (d'.graph.Reachable b ↔ live = true) :=
    fun hb => (hregion.reachable_iff hs hb).trans h.current_iff
  have hle := hregion.nextBlock_le
  have hnode : ∀ {n node}, d'.graph.node? n = some node →
      (n < d.graph.nextNode ∧ d.graph.node? n = some node) ∨
      (d.graph.nextNode ≤ n ∧ n < d.graph.nextNode + k ∧
        (node.block = d.current ∨ node.block ∈ d.Added d')) := by
    intro n node hn
    by_cases hlt : n < d.graph.nextNode
    · obtain ⟨node', hnode'⟩ : ∃ node', d.graph.node? n = some node' :=
        ⟨_, Array.getElem?_eq_getElem hlt⟩
      exact Or.inl ⟨hlt, hnode'.trans ((hregion.node?_eq hnode').symm.trans hn)⟩
    · exact Or.inr ⟨Nat.le_of_not_lt hlt, hnext ▸ Graph.lt_nextNode_of_node? hn,
        hhouses n node hn (Nat.le_of_not_lt hlt)⟩
  refine ⟨hpass,
    ⟨fun {b} hb => ?_, fun hn => ?_, hnew hregion.current_mem, ?_, fun {n node} hn => ?_⟩,
    fun hb => by simpa using hold hb⟩
  · rw [Graph.succs, hregion.block?_eq (hs.reserved_lt hb) (hs.reserved_ne hb)]
    exact h.blank hb
  · rcases hnode hn with ⟨-, hn⟩ | ⟨-, -, heq | hadded⟩
    · exact (h.housed hn).imp_left fun hlt => Nat.lt_of_lt_of_le hlt hle
    · rw [heq]
      exact ⟨Nat.lt_of_lt_of_le hs.current_lt hle, fun hmem => hs.reserved_ne hmem rfl⟩
    · exact ⟨hadded.2, fun hmem => Nat.not_lt_of_le hadded.1 (hs.reserved_lt hmem)⟩
  · simp [h.length_eq, hnext]
  · rcases hnode hn with ⟨hlt, hn⟩ | ⟨hle, hlt, hblock⟩
    · rw [List.getElem?_append_left (h.length_eq ▸ hlt), hold (h.housed hn).1, h.marked_iff hn]
    · rw [List.getElem?_append_right (h.length_eq ▸ hle), List.getElem?_replicate, hnew hblock,
        h.length_eq, if_pos (by lia), Option.some.injEq]

theorem Makes.spreads {k : Nat} {ns : List NodeId} (hm : Makes k d ns d')
    (hs : Stage.Sound ⟨d, R⟩) (hopen : d.IsOpen) (h : d.Marked R live marks) :
    Spreads ∅ d R d' R live (marks ++ List.replicate k live) ∧ d'.IsOpen ∧
      ∀ n ∈ ns, n < d'.graph.nextNode := by
  obtain ⟨straight, hc⟩ := hm.composed
  have hevaluates := hc.evaluates .free hs hopen False.elim
  exact ⟨(hc.region hopen).spreads hevaluates.toPasses (hc.houses hopen) hm.nextNode_eq hs h,
    hevaluates.isOpen, fun n hn => hevaluates.result_lt hn⟩

theorem emit_spreads (hs : Stage.Sound ⟨d, R⟩) (hopen : d.IsOpen) (h : d.Marked R live marks)
    {op : Operation} (hoperands : ∀ n ∈ op.operands, n < d.graph.nextNode) :
    Ensures d (emit op) fun _ d' =>
      Spreads ∅ d R d' R live (marks ++ List.replicate 1 live) ∧ d'.IsOpen := by
  have hregion := (Region.refl hopen).emit op
  have hpass : Passes .free d R { d with graph := d.graph.addNode d.current op } R :=
    .single hs (.emit op hoperands False.elim) rfl
  have hhouses := (Draft.houses_of_nextNode_eq rfl).emit (Draft.Spans.refl d) op
  exact ⟨hregion.spreads hpass hhouses (d.graph.nextNode_addNode _ op) hs h, hregion.isOpen⟩

end Expressions

end Lowering

end Disclosure
