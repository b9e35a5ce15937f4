import Disclosure.Proofs.Lowering.Steps

/-!
# What the building blocks of the construction do

Each function that changes a draft is a run of steps.  `Passes` says so, together with what the
blocks left for later are before and after it, and `Ensures` puts such facts together along the
construction.
-/

namespace Disclosure

namespace Lowering

/-- A step of the construction from `d` gives a result and a draft that are as stated. -/
def Ensures {α : Type} (d : Draft) (x : Lowering α) (post : α → Draft → Prop) : Prop :=
  post (x d).1 (x d).2

theorem Ensures.bind {α β : Type} {d : Draft} {x : Lowering α} {f : α → Lowering β}
    {mid : α → Draft → Prop} {post : β → Draft → Prop} (hx : Ensures d x mid)
    (hf : ∀ a d', mid a d' → Ensures d' (f a) post) : Ensures d (x >>= f) post :=
  hf _ _ hx

theorem Ensures.mono {α : Type} {d : Draft} {x : Lowering α} {mid post : α → Draft → Prop}
    (hx : Ensures d x mid) (h : ∀ a d', mid a d' → post a d') : Ensures d x post :=
  h _ _ hx

theorem Ensures.and {α : Type} {d : Draft} {x : Lowering α} {post post' : α → Draft → Prop}
    (h : Ensures d x post) (h' : Ensures d x post') :
    Ensures d x fun a d' => post a d' ∧ post' a d' :=
  ⟨h, h'⟩

theorem ensures_eq {α : Type} (d : Draft) (x : Lowering α) :
    Ensures d x fun a d' => x d = (a, d') :=
  rfl

/-- A run from one draft to another that keeps the targets of jumps, where `R` and `R'` are the
blocks left for later. -/
structure Passes (m : Mode) (d : Draft) (R : List BlockId) (d' : Draft)
    (R' : List BlockId) : Prop where
  run : Stage.Run m ⟨d, R⟩ ⟨d', R'⟩
  sound : Stage.Sound ⟨d', R'⟩
  loops_eq : d'.loops = d.loops

section Primitives

variable {m : Mode} {d d' d'' : Draft} {R R' R'' : List BlockId}

theorem Passes.refl (hs : Stage.Sound ⟨d, R⟩) : Passes m d R d R := ⟨.refl, hs, rfl⟩

theorem Passes.trans (h : Passes m d R d' R') (h' : Passes m d' R' d'' R'') :
    Passes m d R d'' R'' :=
  ⟨h.run.trans h'.run, h'.sound, h'.loops_eq.trans h.loops_eq⟩

theorem Passes.single (hs : Stage.Sound ⟨d, R⟩) (hstep : Stage.Step m ⟨d, R⟩ ⟨d', R'⟩)
    (hloops : d'.loops = d.loops) : Passes m d R d' R' :=
  ⟨.single hstep, hs.step hstep, hloops⟩

theorem newBlock_passes (m : Mode) (before after : List BlockId)
    (hs : Stage.Sound ⟨d, before ++ after⟩) :
    Ensures d newBlock fun b d' =>
      Passes m d (before ++ after) d' (before ++ b :: after) ∧ (d.IsOpen → d'.IsOpen) ∧
        (d.IsClosed → d'.IsClosed) ∧ d'.current = d.current ∧ b = d.graph.nextBlock := by
  have hne : d.current ≠ d.graph.nextBlock := Nat.ne_of_lt hs.current_lt
  have hsame : (d.graph.addBlock).block? d.current = d.graph.block? d.current := by
    rw [Graph.block?_addBlock, if_neg hne]
  refine ⟨.single hs (.reserve before after) rfl, ?_, ?_, rfl, rfl⟩
  · rintro ⟨block, hblock, hterm⟩
    exact ⟨block, hsame.trans hblock, hterm⟩
  · rintro ⟨block, t, hblock, hterm⟩
    exact ⟨block, t, hsame.trans hblock, hterm⟩

theorem newBlocks_passes (m : Mode) (n : Nat) (before after : List BlockId)
    (hs : Stage.Sound ⟨d, before ++ after⟩) (hopen : d.IsOpen) :
    Ensures d (newBlocks n) fun bs d' =>
      Passes m d (before ++ after) d' (before ++ (bs ++ after)) ∧ d'.IsOpen ∧ bs.length = n := by
  induction n generalizing before d with
  | zero => exact ⟨.refl hs, hopen, rfl⟩
  | succ n ih =>
      rw [newBlocks]
      refine (newBlock_passes m before after hs).bind ?_
      rintro b d₁ ⟨h₁, hopen₁, -⟩
      have hs₁ : Stage.Sound ⟨d₁, (before ++ [b]) ++ after⟩ := by simpa using h₁.sound
      refine (ih (before ++ [b]) hs₁ (hopen₁ hopen)).bind ?_
      rintro bs d₂ ⟨h₂, hopen₂, hlength⟩
      rw [List.append_assoc, List.append_assoc] at h₂
      exact ⟨h₁.trans h₂, hopen₂, congrArg (· + 1) hlength⟩

theorem moveTo_passes (m : Mode) {b : BlockId} (hs : Stage.Sound ⟨d, b :: R⟩)
    (htidy : m.tidy → d.IsClosed) :
    Ensures d (moveTo b) fun _ d' =>
      Passes m d (b :: R) d' R ∧ d'.IsOpen ∧ d'.current = b :=
  ⟨.single hs (.move htidy) rfl, hs.reserved_open List.mem_cons_self, rfl⟩

theorem endCurrent_passes (m : Mode) (hs : Stage.Sound ⟨d, R⟩) (hopen : d.IsOpen) (t : Terminator)
    (htargets : ∀ c ∈ t.targets d.graph.exit, c < d.graph.nextBlock)
    (hnodup : (t.targets d.graph.exit).Nodup) :
    Ensures d (endCurrent t (t.targets d.graph.exit)) fun _ d' =>
      Passes m d R d' R ∧ d'.IsClosed ∧ ∃ block,
        d'.graph.block? d.current = some block ∧ t.targets d.graph.exit ⊆ block.succs := by
  have hreserved : d.current ∉ R := fun hmem => hs.reserved_ne hmem rfl
  obtain ⟨block, hblock, -⟩ := id hopen
  obtain ⟨preds, hended⟩ := Graph.block?_endWith_self hblock t
  refine ⟨.single hs (.close d.current t hs.current_lt hreserved htargets hnodup
    fun _ => ⟨rfl, hopen⟩) rfl, ⟨_, t, hended, rfl⟩, _, hended, ?_⟩
  intro c hc
  exact Block.mem_foldl_adjoin.2 (Or.inr hc)

theorem jumpIfOpen_passes (m : Mode) (hs : Stage.Sound ⟨d, R⟩) (hopen : d.IsOpen)
    {target : BlockId} (htarget : target < d.graph.nextBlock) :
    Ensures d (jumpIfOpen target) fun _ d' => Passes m d R d' R ∧ d'.IsClosed := by
  have hjump : jumpIfOpen target d = endCurrent (.goto target) [target] d := by
    obtain ⟨⟨id, nodes, term, preds, succs⟩, hblock, hterm⟩ := hopen
    cases hterm
    simp only [jumpIfOpen, hblock]
  have hend : Ensures d (endCurrent (.goto target) [target]) fun _ d' =>
      Passes m d R d' R ∧ d'.IsClosed :=
    (endCurrent_passes m hs hopen (.goto target) (by simpa [Terminator.targets] using htarget)
      (by simp [Terminator.targets])).mono fun _ _ h => ⟨h.1, h.2.1⟩
  rw [Ensures, hjump]
  exact hend

theorem branchOn_passes (m : Mode) (hs : Stage.Sound ⟨d, R⟩) (hopen : d.IsOpen)
    (condition : NodeId) :
    Ensures d (branchOn condition) fun targets d' =>
      Passes m d R d' (targets.1 :: targets.2.1 :: targets.2.2 :: R) ∧ d'.IsClosed ∧
        ∃ block, d'.graph.block? d.current = some block ∧ targets.1 ∈ block.succs ∧
          d.graph.nextBlock ≤ targets.1 := by
  refine (newBlock_passes m [] R hs).bind ?_
  rintro thenBlock d₁ ⟨h₁, hopen₁, -, hcurrent₁, hthen⟩
  refine (newBlock_passes m [thenBlock] R h₁.sound).bind ?_
  rintro elseBlock d₂ ⟨h₂, hopen₂, -, hcurrent₂, -⟩
  refine (newBlock_passes m [thenBlock, elseBlock] R h₂.sound).bind ?_
  rintro merge d₃ ⟨h₃, hopen₃, -, hcurrent₃, -⟩
  have htargets : ∀ c ∈ [thenBlock, elseBlock], c < d₃.graph.nextBlock := by
    intro c hc
    exact h₃.sound.reserved_lt (List.mem_append_left (merge :: R) hc)
  have hnodup : [thenBlock, elseBlock].Nodup :=
    (List.nodup_append.1 h₃.sound.reserved_nodup).1
  refine (endCurrent_passes m h₃.sound (hopen₃ (hopen₂ (hopen₁ hopen)))
    (.branch condition thenBlock elseBlock) htargets hnodup).bind ?_
  rintro - d₄ ⟨h₄, hclosed, block, hblock, hsuccs⟩
  refine ⟨((h₁.trans h₂).trans h₃).trans h₄, hclosed, block, ?_, hsuccs List.mem_cons_self,
    Nat.le_of_eq hthen.symm⟩
  rwa [hcurrent₃, hcurrent₂, hcurrent₁] at hblock

theorem moveToNew_passes (m : Mode) (hs : Stage.Sound ⟨d, R⟩) (htidy : m.tidy → d.IsClosed) :
    Ensures d moveToNew fun _ d' => Passes m d R d' R ∧ d'.IsOpen := by
  refine (newBlock_passes m [] R hs).bind ?_
  rintro b d₁ ⟨h₁, -, hclosed, -⟩
  exact (moveTo_passes m h₁.sound fun ht => hclosed (htidy ht)).mono fun _ _ h₂ =>
    ⟨h₁.trans h₂.1, h₂.2.1⟩

theorem jumpOut_passes (m : Mode) (hs : Stage.Sound ⟨d, R⟩) (hopen : d.IsOpen)
    {target : JumpTargets → BlockId}
    (htarget : ∀ t ∈ d.loops, target t < d.graph.nextBlock) (hland : m.tidy → d.loops ≠ []) :
    Ensures d (jumpOut target) fun _ d' => Passes m d R d' R ∧ d'.IsOpen := by
  rw [Ensures, jumpOut]
  cases hloops : d.loops with
  | nil => exact moveToNew_passes m hs fun ht => absurd hloops (hland ht)
  | cons t rest =>
      have hlt : ∀ c ∈ [target t], c < d.graph.nextBlock := by
        simpa using htarget t (by simp [hloops])
      show Ensures d (do endCurrent (.goto (target t)) [target t]; moveToNew) fun _ d' =>
        Passes m d R d' R ∧ d'.IsOpen
      refine (endCurrent_passes m hs hopen (.goto (target t)) hlt
        (by simp [Terminator.targets])).bind ?_
      rintro - d₁ ⟨h₁, hclosed, -⟩
      exact (moveToNew_passes m h₁.sound fun _ => hclosed).mono fun _ _ h₂ =>
        ⟨h₁.trans h₂.1, h₂.2⟩

theorem enclosingNext_lt (hs : Stage.Sound ⟨d, R⟩) {done : BlockId}
    (hdone : done < d.graph.nextBlock) :
    Ensures d (enclosingNext done) fun next d' => d' = d ∧ next < d.graph.nextBlock := by
  rw [Ensures, enclosingNext]
  cases hloops : d.loops with
  | nil => exact ⟨rfl, hdone⟩
  | cons t rest => exact ⟨rfl, (hs.loops_lt (t := t) (by simp [hloops])).1⟩

theorem insideLoop_passes (m : Mode) (R' : List BlockId) {t : JumpTargets}
    {body : Lowering Unit} {Q : Draft → Prop} (hs : Stage.Sound ⟨d, R⟩)
    (hnext : t.next < d.graph.nextBlock) (hdone : t.done < d.graph.nextBlock)
    (hbody : Stage.Sound ⟨{ d with loops := t :: d.loops }, R⟩ →
      Ensures { d with loops := t :: d.loops } body fun _ d' =>
        Passes m { d with loops := t :: d.loops } R d' R' ∧ Q d')
    (hQ : ∀ d loops, Q d → Q { d with loops := loops }) :
    Ensures d (insideLoop t body) fun _ d' => Passes m d R d' R' ∧ Q d' := by
  have hin : Stage.Step m ⟨d, R⟩ ⟨{ d with loops := t :: d.loops }, R⟩ := by
    refine .retarget _ fun t' ht' => ?_
    rcases List.mem_cons.1 ht' with rfl | ht'
    · exact ⟨hnext, hdone⟩
    · exact hs.loops_lt ht'
  have hleave : ∀ {d'}, Passes m { d with loops := t :: d.loops } R d' R' →
      Passes m d R { d' with loops := d'.loops.tail } R' := by
    intro d' hpass
    have hout : Stage.Step m ⟨d', R'⟩ ⟨{ d' with loops := d'.loops.tail }, R'⟩ :=
      .retarget _ fun t' ht' => hpass.sound.loops_lt (List.mem_of_mem_tail ht')
    exact ⟨(Relation.ReflTransGen.single hin).trans (hpass.run.tail hout),
      hpass.sound.step hout, congrArg List.tail hpass.loops_eq⟩
  have hall := hbody (hs.step hin)
  exact ⟨hleave hall.1, hQ _ _ hall.2⟩

end Primitives

end Lowering

end Disclosure
