import Disclosure.Proofs.Lowering.Expressions
import Mathlib.Data.List.Perm.Subperm

/-!
# Procedures are lowered in runs

The lowering of a statement is a run as well.  It is tidy if every jump lands and no condition of a
loop contains a conditional, and flat if no expression contains one at all.  What every step keeps
therefore holds of the graph of every procedure.

A conditional at the head of a loop does harm: the condition leaves the head by a branch, and then
the loop ends the head once more, which so gets more successors than a terminator has targets.  Such
a graph is spoiled, and it stays so.
-/

namespace Disclosure

/-- A block has more successors than a terminator has targets. -/
def Graph.Spoiled (g : Graph) : Prop :=
  ∃ b block, g.block? b = some block ∧ 2 < block.succs.length

theorem Graph.Spoiled.of_extends {g g' : Graph} (h : g.Spoiled) (hext : g.Extends g') :
    g'.Spoiled := by
  obtain ⟨b, block, hblock, hlong⟩ := h
  obtain ⟨block', hblock', -, hsuccs⟩ := hext.exists_block hblock
  exact ⟨b, block', hblock', Nat.lt_of_lt_of_le hlong hsuccs.length_le⟩

theorem Graph.spoiled_of_not_and {g g' : Graph} {clean clean' : Prop} (hext : g.Extends g')
    (h : ¬ clean → g.Spoiled) (h' : ¬ clean' → g'.Spoiled) (hnot : ¬ (clean ∧ clean')) :
    g'.Spoiled := by
  by_cases hclean : clean
  · exact h' fun hclean' => hnot ⟨hclean, hclean'⟩
  · exact (h hclean).of_extends hext

namespace Lowering

variable {m : Mode} {R R' R'' : List BlockId} {b : BlockId} {clean clean' : Prop}
  {d d' d'' d₀ d₁ d₂ : Draft}

/-- From `d` to `d'` statements were lowered, and if they were not clean the graph is spoiled. -/
structure Completes (m : Mode) (R : List BlockId) (clean : Prop) (d d' : Draft) : Prop
    extends Passes m d R d' R where
  isOpen : d'.IsOpen
  spoils : ¬ clean → d'.graph.Spoiled

theorem Passes.completes (h : Passes m d R d' R) (hopen : d'.IsOpen) : Completes m R True d d' :=
  ⟨h, hopen, fun hnot => absurd trivial hnot⟩

theorem Completes.trans (h : Completes m R clean d d') (h' : Completes m R clean' d' d'') :
    Completes m R (clean ∧ clean') d d'' where
  toPasses := h.toPasses.trans h'.toPasses
  isOpen := h'.isOpen
  spoils := Graph.spoiled_of_not_and h'.run.extends h.spoils h'.spoils

theorem Completes.of_passes (h : Passes m d R d' R) (h' : Completes m R clean d' d'') :
    Completes m R clean d d'' :=
  ⟨h.trans h'.toPasses, h'.isOpen, h'.spoils⟩

theorem Evaluates.completes {straight : Prop} {ns : List NodeId}
    (h : Evaluates m R straight d ns d') : Completes m R True d d' :=
  h.toPasses.completes h.isOpen

/-- Bodies were put into blocks that had been left for them, and if they were not clean the graph is
spoiled. -/
structure Fills (m : Mode) (clean : Prop) (d : Draft) (R : List BlockId) (d' : Draft)
    (R' : List BlockId) : Prop extends Passes m d R d' R' where
  isClosed : m.tidy → d'.IsClosed
  spoils : ¬ clean → d'.graph.Spoiled

theorem Fills.refl (hs : Stage.Sound ⟨d, R⟩) (hclosed : m.tidy → d.IsClosed) :
    Fills m True d R d R :=
  ⟨.refl hs, hclosed, fun h => absurd trivial h⟩

theorem Fills.trans (h : Fills m clean d R d' R') (h' : Fills m clean' d' R' d'' R'') :
    Fills m (clean ∧ clean') d R d'' R'' where
  toPasses := h.toPasses.trans h'.toPasses
  isClosed := h'.isClosed
  spoils := Graph.spoiled_of_not_and h'.run.extends h.spoils h'.spoils

theorem Fills.of_body (hmove : Passes m d (b :: R) d₁ R) (hbody : Completes m R clean d₁ d₂)
    (hjump : Passes m d₂ R d' R) (hclosed : d'.IsClosed) : Fills m clean d (b :: R) d' R :=
  ⟨(hmove.trans hbody.toPasses).trans hjump, fun _ => hclosed,
    fun hnot => (hbody.spoils hnot).of_extends hjump.run.extends⟩

theorem Fills.completes (h : Fills m clean d R' d' (b :: R)) (hbefore : Passes m d₀ R d R')
    (hmove : Passes m d' (b :: R) d'' R) (hopen : d''.IsOpen) : Completes m R clean d₀ d'' :=
  ⟨(hbefore.trans h.toPasses).trans hmove, hopen,
    fun hnot => (h.spoils hnot).of_extends hmove.run.extends⟩

/-- A loop ends its head.  If the condition left the head before, the head gets too many
successors. -/
theorem endBlock_passes {straight : Prop} {c : NodeId} {body done : BlockId} {R : List BlockId}
    (hs : Stage.Sound ⟨d, body :: done :: R⟩)
    (h : Evaluates m (body :: done :: R) straight d [c] d') (htidy : m.tidy → straight) :
    Ensures d' (endBlock d.current (.loop c body done) [body, done]) fun _ d'' =>
      Passes m d' (body :: done :: R) d'' (body :: done :: R) ∧ (m.tidy → d''.IsClosed) ∧
        (¬ straight → d''.graph.Spoiled) := by
  have hext := h.run.extends
  have hne : body ≠ done := by
    rintro rfl
    exact (List.nodup_cons.1 hs.reserved_nodup).1 List.mem_cons_self
  have hlt : ∀ x ∈ [body, done], x < d.graph.nextBlock := fun x hx =>
    hs.reserved_lt (List.mem_append_left R hx)
  have hstep : Stage.Step m ⟨d', body :: done :: R⟩
      ⟨{ d' with graph := d'.graph.endWith d.current (.loop c body done) }, body :: done :: R⟩ := by
    refine .close d.current _ (Nat.lt_of_lt_of_le hs.current_lt hext.nextBlock_le)
      (fun hmem => hs.reserved_ne hmem rfl)
      (fun x hx => Nat.lt_of_lt_of_le (hlt x hx) hext.nextBlock_le) ?_
      fun ht => ⟨(h.stays (htidy ht)).1.symm, h.isOpen⟩
    simp [Terminator.targets, hne]
  have hend : endBlock d.current (.loop c body done) [body, done] d' =
      ((), { d' with graph := d'.graph.endWith d.current (.loop c body done) }) := rfl
  rw [Ensures, hend]
  refine ⟨.single h.sound hstep rfl, fun ht => ?_, fun hnot => ?_⟩
  · have hcurrent := (h.stays (htidy ht)).1
    obtain ⟨block, hblock, -⟩ := h.isOpen
    obtain ⟨preds, hended⟩ := Graph.block?_endWith_self hblock (.loop c body done)
    rw [hcurrent] at hended
    exact ⟨_, _, by rw [hcurrent]; exact hended, rfl⟩
  · obtain ⟨block, b, hblock, hb, hnew⟩ := h.leaves hnot
    obtain ⟨preds, hended⟩ := Graph.block?_endWith_self hblock (.loop c body done)
    refine ⟨d.current, _, hended, ?_⟩
    -- the successor that the condition added is a younger block than the two of the loop
    have hyoung : ∀ x ∈ [body, done], b ≠ x := fun x hx =>
      Nat.ne_of_gt (Nat.lt_of_lt_of_le (hlt x hx) hnew)
    have hnodup : [b, body, done].Nodup := by
      refine List.nodup_cons.2 ⟨fun hmem => hyoung b hmem rfl, ?_⟩
      simpa using hne
    have hsub : [b, body, done] ⊆ [body, done].foldl Block.adjoin block.succs := by
      intro x hx
      rw [Block.mem_foldl_adjoin]
      rcases List.mem_cons.1 hx with rfl | hx
      · exact Or.inl hb
      · exact Or.inr hx
    exact (List.subperm_of_subset hnodup hsub).length_le

end Lowering

open Lowering

theorem Case.lowerTests_passes (p : Program) (m : Mode) {selector : NodeId} (cases : List Case)
    (bodies : List BlockId) {R : List BlockId} {d : Draft} (hs : Stage.Sound ⟨d, R⟩)
    (hopen : d.IsOpen) (hselector : selector < d.graph.nextNode) (hbodies : bodies ⊆ R)
    (hflat : m.flat → Case.everyIn (fun _ e => e.isStraight) cases = true) :
    Ensures d (Case.lowerTests p selector cases bodies) fun _ d' =>
      Passes m d R d' R ∧ d'.IsOpen := by
  induction cases generalizing bodies d with
  | nil => exact ⟨.refl hs, hopen⟩
  | cons first rest ih =>
      cases bodies with
      | nil => exact ⟨.refl hs, hopen⟩
      | cons b bodies =>
          obtain ⟨label, body⟩ := first
          simp only [Case.everyIn, Bool.and_eq_true] at hflat
          simp only [Case.lowerTests, Case.label_mk]
          refine (Expr.lower_evaluates p m label hs hopen fun hf => (hflat hf).1.1).bind ?_
          intro l d₁ hl
          have hoperands : ∀ n ∈ (Operation.caseTest selector l).operands,
              n < d₁.graph.nextNode := by
            intro n hn
            simp only [Operation.operands, List.mem_cons, List.not_mem_nil, or_false] at hn
            rcases hn with rfl | rfl
            · exact Nat.lt_of_lt_of_le hselector hl.run.extends.nextNode_le
            · exact hl.result_lt (by simp)
          refine (hl.emitWith (fun hf => (hflat hf).1.1) hoperands
            (by simp [Operation.inputs])).bind ?_
          intro test d₂ htest
          refine (newBlock_passes m [] R htest.sound).bind ?_
          rintro next d₃ ⟨h₃, hopen₃, -⟩
          have hb : b ∈ R := hbodies List.mem_cons_self
          have htargets : ∀ c ∈ [b, next], c < d₃.graph.nextBlock := by
            intro c hc
            refine h₃.sound.reserved_lt ?_
            simp only [List.mem_cons, List.not_mem_nil, or_false] at hc
            rcases hc with rfl | rfl
            · exact List.mem_cons_of_mem _ hb
            · exact List.mem_cons_self
          have hnodup : [b, next].Nodup := by
            have hne := (List.nodup_cons.1 h₃.sound.reserved_nodup).1
            simp only [List.nodup_cons, List.mem_singleton, List.not_mem_nil, not_false_eq_true,
              List.nodup_nil, and_true]
            rintro rfl
            exact hne hb
          refine (endCurrent_passes m h₃.sound (hopen₃ htest.isOpen) (.branch test b next) htargets
            hnodup).bind ?_
          rintro - d₄ ⟨h₄, hclosed, -⟩
          refine (moveTo_passes m h₄.sound fun _ => hclosed).bind ?_
          rintro - d₅ ⟨h₅, hopen₅, -⟩
          have hpass := ((htest.toPasses.trans h₃).trans h₄).trans h₅
          refine (ih bodies h₅.sound hopen₅
            (Nat.lt_of_lt_of_le hselector hpass.run.extends.nextNode_le)
            (fun c hc => hbodies (List.mem_cons_of_mem _ hc)) fun hf => (hflat hf).2).mono ?_
          rintro - d₆ ⟨h₆, hopen₆⟩
          exact ⟨hpass.trans h₆, hopen₆⟩

mutual

theorem Stmt.lower_completes (p : Program) (m : Mode) (s : Stmt) {R : List BlockId} {d : Draft}
    {inChoice inLoop : Bool} (hs : Stage.Sound ⟨d, R⟩) (hopen : d.IsOpen)
    (htidy : m.tidy → s.jumpsLand inChoice inLoop = true ∧
      Stmt.every Expr.isStraightAtLoop s = true)
    (hloops : (inChoice || inLoop) = true → d.loops ≠ [])
    (hflat : m.flat → Stmt.every (fun _ e => e.isStraight) s = true) :
    Ensures d (s.lower p) fun _ d' =>
      Completes m R (Stmt.every Expr.isStraightAtLoop s = true) d d' := by
  match s with
  | .declare var init =>
      simp only [Stmt.every] at hflat
      have hclean : Stmt.every Expr.isStraightAtLoop (.declare var init) = true := by
        cases init <;> simp [Stmt.every]
      simp only [Stmt.lower, hclean]
      refine ((Evaluates.nil m hs hopen).emitLast (fun _ => trivial)
        (by simp [Operation.operands])).bind ?_
      intro n d₁ hn
      cases init with
      | none => exact hn.completes
      | some e =>
          refine (Expr.lower_evaluates p m e hn.sound hn.isOpen hflat).bind ?_
          intro v d₂ hv
          refine (hv.emit hflat (by simp [Operation.operands])).bind ?_
          intro t d₃ ht
          refine (ht.emitLast hflat (by simp [Operation.operands])).bind ?_
          intro _ d₄ ha
          exact ha.completes.of_passes hn.toPasses
  | .eval e =>
      simp only [Stmt.every] at hflat
      simp only [Stmt.lower, Stmt.every, Expr.isStraightAtLoop_false]
      refine (Expr.lower_evaluates p m e hs hopen hflat).bind ?_
      intro n d₁ hn
      exact hn.completes
  | .branch condition thenBody elseBody =>
      simp only [Stmt.jumpsLand, Stmt.every, Expr.isStraightAtLoop_false, Bool.true_and,
        Bool.and_eq_true] at htidy hflat ⊢
      rw [Stmt.lower]
      refine (Expr.lower_evaluates p m condition hs hopen fun hf => (hflat hf).1.1).bind ?_
      intro c d₁ hc
      refine (branchOn_passes m hc.sound hc.isOpen c).bind ?_
      rintro ⟨thenBlock, elseBlock, merge⟩ d₂ ⟨h₂, hclosed₂, -⟩
      refine (moveTo_passes m h₂.sound fun _ => hclosed₂).bind ?_
      rintro - d₃ ⟨h₃, hopen₃, -⟩
      have hstart := (hc.toPasses.trans h₂).trans h₃
      refine (Stmt.lowerBody_completes p m thenBody h₃.sound hopen₃
        (fun ht => ⟨(htidy ht).1.1, (htidy ht).2.1⟩) (fun hin => hstart.loops_eq ▸ hloops hin)
        fun hf => (hflat hf).1.2).bind ?_
      intro _ d₄ ht
      refine (jumpIfOpen_passes m ht.sound ht.isOpen (ht.sound.reserved_lt (by simp))).bind ?_
      rintro - d₅ ⟨h₅, hclosed₅⟩
      refine (moveTo_passes m h₅.sound fun _ => hclosed₅).bind ?_
      rintro - d₆ ⟨h₆, hopen₆, -⟩
      have hthen : Fills m (Stmt.everyIn Expr.isStraightAtLoop thenBody = true) d₂
          (thenBlock :: elseBlock :: merge :: R) d₅ (elseBlock :: merge :: R) :=
        .of_body h₃ ht h₅ hclosed₅
      have hloops₆ : d₆.loops = d.loops :=
        (((hc.toPasses.trans h₂).trans hthen.toPasses).trans h₆).loops_eq
      refine (Stmt.lowerOption_completes p m elseBody h₆.sound hopen₆
        (fun ht => ⟨(htidy ht).1.2, (htidy ht).2.2⟩) (fun hin => hloops₆ ▸ hloops hin)
        fun hf => (hflat hf).2).bind ?_
      intro _ d₇ he
      refine (jumpIfOpen_passes m he.sound he.isOpen (he.sound.reserved_lt (by simp))).bind ?_
      rintro - d₈ ⟨h₈, hclosed₈⟩
      refine (moveTo_passes m h₈.sound fun _ => hclosed₈).mono ?_
      rintro - d₉ ⟨h₉, hopen₉, -⟩
      have helse : Fills m (Stmt.everyInOption Expr.isStraightAtLoop elseBody = true) d₅
          (elseBlock :: merge :: R) d₈ (merge :: R) :=
        .of_body h₆ he h₈ hclosed₈
      exact (hthen.trans helse).completes (hc.toPasses.trans h₂) h₉ hopen₉
  | .loop condition body =>
      simp only [Stmt.jumpsLand, Stmt.every, Expr.isStraightAtLoop_true, Bool.and_eq_true]
        at htidy hflat ⊢
      rw [Stmt.lower]
      refine (newBlock_passes m [] R hs).bind ?_
      rintro head d₁ ⟨h₁, hopen₁, -⟩
      refine (newBlock_passes m [head] R h₁.sound).bind ?_
      rintro bodyBlock d₂ ⟨h₂, hopen₂, -⟩
      refine (newBlock_passes m [head, bodyBlock] R h₂.sound).bind ?_
      rintro done d₃ ⟨h₃, hopen₃, -⟩
      have hreserve := (h₁.trans h₂).trans h₃
      refine (jumpIfOpen_passes m h₃.sound (hopen₃ (hopen₂ (hopen₁ hopen)))
        (h₃.sound.reserved_lt (by simp))).bind ?_
      rintro - d₄ ⟨h₄, hclosed₄⟩
      refine (moveTo_passes m h₄.sound fun _ => hclosed₄).bind ?_
      rintro - d₅ ⟨h₅, hopen₅, rfl⟩
      refine (Expr.lower_evaluates p m condition h₅.sound hopen₅ fun hf => (hflat hf).1).bind ?_
      intro c d₆ hc
      refine (endBlock_passes h₅.sound hc fun ht => (htidy ht).2.1).bind ?_
      rintro - d₇ ⟨h₇, hclosed₇, hspoiled₇⟩
      have hhead := (((hreserve.trans h₄).trans h₅).trans hc.toPasses).trans h₇
      have hlt : d₅.current < d₇.graph.nextBlock :=
        Nat.lt_of_lt_of_le h₅.sound.current_lt (hc.toPasses.trans h₇).run.extends.nextBlock_le
      refine (insideLoop_passes m (done :: R) (Q := fun d' => d'.IsOpen ∧
        (¬ Stmt.everyIn Expr.isStraightAtLoop body = true → d'.graph.Spoiled)) h₇.sound hlt
        (h₇.sound.reserved_lt (by simp)) (fun hs₇ => ?_) fun _ _ h => h).bind ?_
      · refine (moveTo_passes m hs₇ hclosed₇).bind ?_
        rintro - d₈ ⟨h₈, hopen₈, -⟩
        refine (Stmt.lowerBody_completes p m body h₈.sound hopen₈
          (fun ht => ⟨(htidy ht).1, (htidy ht).2.2⟩) (fun _ => by simp [h₈.loops_eq])
          fun hf => (hflat hf).2).mono ?_
        intro _ d₉ hbody
        exact ⟨h₈.trans hbody.toPasses, hbody.isOpen, hbody.spoils⟩
      · rintro - d₉ ⟨h₉, hopen₉, hspoiled₉⟩
        refine (jumpIfOpen_passes m h₉.sound hopen₉
          (Nat.lt_of_lt_of_le hlt h₉.run.extends.nextBlock_le)).bind ?_
        rintro - d₁₀ ⟨h₁₀, hclosed₁₀⟩
        refine (moveTo_passes m h₁₀.sound fun _ => hclosed₁₀).mono ?_
        rintro - d₁₁ ⟨h₁₁, hopen₁₁, -⟩
        have hend := h₁₀.trans h₁₁
        refine ⟨(hhead.trans h₉).trans hend, hopen₁₁, fun hnot => ?_⟩
        exact (Graph.spoiled_of_not_and h₉.run.extends hspoiled₇ hspoiled₉ hnot).of_extends
          hend.run.extends
  | .select selector cases default =>
      simp only [Stmt.jumpsLand, Stmt.every, Expr.isStraightAtLoop_false, Bool.true_and,
        Bool.and_eq_true] at htidy hflat ⊢
      rw [Stmt.lower]
      refine (Expr.lower_evaluates p m selector hs hopen fun hf => (hflat hf).1.1).bind ?_
      intro n d₁ hn
      refine (newBlock_passes m [] R hn.sound).bind ?_
      rintro done d₂ ⟨h₂, hopen₂, -⟩
      refine (newBlocks_passes m cases.length [] (done :: R) h₂.sound (hopen₂ hn.isOpen)).bind ?_
      rintro bodies d₃ ⟨h₃, hopen₃, hlength₃⟩
      refine (newBlocks_passes m default.toList.length bodies (done :: R) h₃.sound hopen₃).bind ?_
      rintro defaults d₄ ⟨h₄, hopen₄, hlength₄⟩
      have hreserve := (h₂.trans h₃).trans h₄
      refine (Case.lowerTests_passes p m cases bodies h₄.sound hopen₄
        (Nat.lt_of_lt_of_le (hn.result_lt (by simp)) hreserve.run.extends.nextNode_le)
        (List.subset_append_left _ _) fun hf => (hflat hf).1.2).bind ?_
      rintro - d₅ ⟨h₅, hopen₅⟩
      have hhead : defaults.headD done ∈ bodies ++ (defaults ++ done :: R) := by
        cases defaults <;> simp
      refine (jumpIfOpen_passes m h₅.sound hopen₅ (h₅.sound.reserved_lt hhead)).bind ?_
      rintro - d₆ ⟨h₆, hclosed₆⟩
      have hdone : done < d₆.graph.nextBlock := h₆.sound.reserved_lt (by simp)
      refine (enclosingNext_lt h₆.sound hdone).bind ?_
      rintro next d₆ ⟨rfl, hnext⟩
      refine (insideLoop_passes m (done :: R) (Q := fun d' => (m.tidy → d'.IsClosed) ∧
        (¬ (Case.everyIn Expr.isStraightAtLoop cases = true ∧
          Stmt.everyInOption Expr.isStraightAtLoop default = true) → d'.graph.Spoiled))
        h₆.sound hnext hdone (fun hs₆ => ?_) fun _ _ h => h).bind ?_
      · refine (Case.lowerBodies_fills p m done cases bodies defaults hs₆ (fun _ => hclosed₆)
          hlength₃ (fun ht => ⟨(htidy ht).1.1, (htidy ht).2.1⟩) (fun _ => by simp)
          fun hf => (hflat hf).1.2).bind ?_
        intro _ d₇ h₇
        refine (Stmt.lowerDefault_fills p m done default defaults h₇.sound h₇.isClosed hlength₄
          (fun ht => ⟨(htidy ht).1.2, (htidy ht).2.2⟩) (fun _ => by simp [h₇.loops_eq])
          fun hf => (hflat hf).2).mono ?_
        intro _ d₈ h₈
        have hall := h₇.trans h₈
        exact ⟨hall.toPasses, hall.isClosed, hall.spoils⟩
      · rintro - d₇ ⟨h₇, hclosed₇, hspoiled₇⟩
        refine (moveTo_passes m h₇.sound hclosed₇).mono ?_
        rintro - d₈ ⟨h₈, hopen₈, -⟩
        have htests := ((hn.toPasses.trans hreserve).trans h₅).trans h₆
        exact Fills.completes ⟨h₇, hclosed₇, hspoiled₇⟩ htests h₈ hopen₈
  | .leave value =>
      simp only [Stmt.every] at hflat
      have hclean : Stmt.every Expr.isStraightAtLoop (.leave value) = true := by
        cases value <;> simp [Stmt.every]
      simp only [Stmt.lower, hclean]
      refine (Expr.lowerOption_evaluates p m value hs hopen hflat).bind ?_
      intro v d₁ hv
      refine (hv.emitLast hflat (by simp [Operation.operands])).bind ?_
      intro _ d₂ h₂
      have htargets : ∀ c ∈ [d₂.graph.exit], c < d₂.graph.nextBlock := by
        simpa using h₂.sound.exit_lt
      have hend : Ensures d₂ (fun d => endCurrent (.leave v) [d.graph.exit] d) fun _ d' =>
          Passes m d₂ R d' R ∧ d'.IsClosed := by
        have hat := endCurrent_passes m h₂.sound h₂.isOpen (.leave v) htargets
          (by simp [Terminator.targets])
        exact ⟨hat.1, hat.2.1⟩
      refine hend.bind ?_
      rintro - d₃ ⟨h₃, hclosed₃⟩
      refine (moveToNew_passes m h₃.sound fun _ => hclosed₃).mono ?_
      rintro - d₄ ⟨h₄, hopen₄⟩
      exact ((h₂.toPasses.trans h₃).trans h₄).completes hopen₄
  | .raise value =>
      simp only [Stmt.every] at hflat
      simp only [Stmt.lower, Stmt.every, Expr.isStraightAtLoop_false]
      refine (Expr.lower_evaluates p m value hs hopen hflat).bind ?_
      intro v d₁ hv
      refine (hv.emitLast hflat (by simp [Operation.operands])).bind ?_
      intro _ d₂ h₂
      refine (endCurrent_passes m h₂.sound h₂.isOpen .stop (by simp [Terminator.targets])
        (by simp [Terminator.targets])).bind ?_
      rintro - d₃ ⟨h₃, hclosed₃, -⟩
      refine (moveToNew_passes m h₃.sound fun _ => hclosed₃).mono ?_
      rintro - d₄ ⟨h₄, hopen₄⟩
      exact ((h₂.toPasses.trans h₃).trans h₄).completes hopen₄
  | .check condition detail =>
      simp only [Stmt.every, Bool.and_eq_true] at hflat
      have hclean : Stmt.every Expr.isStraightAtLoop (.check condition detail) = true := by
        cases detail <;> simp [Stmt.every]
      simp only [Stmt.lower, hclean]
      refine (Expr.lower_evaluates p m condition hs hopen fun hf => (hflat hf).1).bind ?_
      intro c d₁ hc
      refine (Expr.lowerOption_evaluates p m detail hc.sound hc.isOpen fun hf => (hflat hf).2).bind
        ?_
      intro n d₂ hn
      refine ((hc.append hn).emitLast hflat (by simp [Operation.operands])).bind ?_
      intro _ d₃ h₃
      exact h₃.completes
  | .locked lock body =>
      simp only [Stmt.jumpsLand, Stmt.every, Expr.isStraightAtLoop_false, Bool.true_and,
        Bool.and_eq_true] at htidy hflat ⊢
      rw [Stmt.lower]
      refine (Expr.lower_evaluates p m lock hs hopen fun hf => (hflat hf).1).bind ?_
      intro l d₁ hl
      refine (hl.emitLast (fun hf => (hflat hf).1) (by simp [Operation.operands])).bind ?_
      intro _ d₂ h₂
      refine (Stmt.lowerBody_completes p m body h₂.sound h₂.isOpen htidy
        (fun hin => h₂.loops_eq ▸ hloops hin) fun hf => (hflat hf).2).mono ?_
      intro _ d₃ h₃
      exact h₃.of_passes h₂.toPasses
  | .block body =>
      simp only [Stmt.jumpsLand, Stmt.every] at htidy hflat ⊢
      rw [Stmt.lower]
      exact Stmt.lowerBody_completes p m body hs hopen htidy hloops hflat
  | .exitLoop =>
      simp only [Stmt.jumpsLand, Stmt.every, and_true] at htidy ⊢
      rw [Stmt.lower]
      refine (jumpOut_passes m hs hopen (fun t ht => (hs.loops_lt ht).2)
        fun ht => hloops (by simp [htidy ht])).mono ?_
      rintro - d₁ ⟨h₁, hopen₁⟩
      exact h₁.completes hopen₁
  | .nextRound =>
      simp only [Stmt.jumpsLand, Stmt.every, and_true] at htidy ⊢
      rw [Stmt.lower]
      refine (jumpOut_passes m hs hopen (fun t ht => (hs.loops_lt ht).1)
        fun ht => hloops (by simp [htidy ht])).mono ?_
      rintro - d₁ ⟨h₁, hopen₁⟩
      exact h₁.completes hopen₁

theorem Stmt.lowerBody_completes (p : Program) (m : Mode) (body : List Stmt) {R : List BlockId}
    {d : Draft} {inChoice inLoop : Bool} (hs : Stage.Sound ⟨d, R⟩) (hopen : d.IsOpen)
    (htidy : m.tidy → Stmt.jumpsLandIn inChoice inLoop body = true ∧
      Stmt.everyIn Expr.isStraightAtLoop body = true)
    (hloops : (inChoice || inLoop) = true → d.loops ≠ [])
    (hflat : m.flat → Stmt.everyIn (fun _ e => e.isStraight) body = true) :
    Ensures d (Stmt.lowerBody p body) fun _ d' =>
      Completes m R (Stmt.everyIn Expr.isStraightAtLoop body = true) d d' := by
  match body with
  | [] =>
      simp only [Stmt.lowerBody, Stmt.everyIn]
      exact (Passes.refl hs).completes hopen
  | s :: rest =>
      simp only [Stmt.jumpsLandIn, Stmt.everyIn, Bool.and_eq_true] at htidy hflat ⊢
      rw [Stmt.lowerBody]
      refine (Stmt.lower_completes p m s hs hopen (fun ht => ⟨(htidy ht).1.1, (htidy ht).2.1⟩)
        hloops fun hf => (hflat hf).1).bind ?_
      intro _ d₁ h₁
      refine (Stmt.lowerBody_completes p m rest h₁.sound h₁.isOpen
        (fun ht => ⟨(htidy ht).1.2, (htidy ht).2.2⟩) (fun hin => h₁.loops_eq ▸ hloops hin)
        fun hf => (hflat hf).2).mono ?_
      intro _ d₂ h₂
      exact h₁.trans h₂

theorem Stmt.lowerOption_completes (p : Program) (m : Mode) (body : Option (List Stmt))
    {R : List BlockId} {d : Draft} {inChoice inLoop : Bool} (hs : Stage.Sound ⟨d, R⟩)
    (hopen : d.IsOpen)
    (htidy : m.tidy → Stmt.jumpsLandInOption inChoice inLoop body = true ∧
      Stmt.everyInOption Expr.isStraightAtLoop body = true)
    (hloops : (inChoice || inLoop) = true → d.loops ≠ [])
    (hflat : m.flat → Stmt.everyInOption (fun _ e => e.isStraight) body = true) :
    Ensures d (Stmt.lowerOption p body) fun _ d' =>
      Completes m R (Stmt.everyInOption Expr.isStraightAtLoop body = true) d d' := by
  match body with
  | none =>
      simp only [Stmt.lowerOption, Stmt.everyInOption]
      exact (Passes.refl hs).completes hopen
  | some body =>
      simp only [Stmt.jumpsLandInOption, Stmt.everyInOption] at htidy hflat ⊢
      rw [Stmt.lowerOption]
      exact Stmt.lowerBody_completes p m body hs hopen htidy hloops hflat

theorem Case.lowerBodies_fills (p : Program) (m : Mode) (done : BlockId) (cases : List Case)
    (bs rest : List BlockId) {R : List BlockId} {d : Draft} {inChoice inLoop : Bool}
    (hs : Stage.Sound ⟨d, bs ++ (rest ++ done :: R)⟩) (hclosed : m.tidy → d.IsClosed)
    (hlength : bs.length = cases.length)
    (htidy : m.tidy → Case.jumpsLandIn inChoice inLoop cases = true ∧
      Case.everyIn Expr.isStraightAtLoop cases = true)
    (hloops : (inChoice || inLoop) = true → d.loops ≠ [])
    (hflat : m.flat → Case.everyIn (fun _ e => e.isStraight) cases = true) :
    Ensures d (Case.lowerBodies p done cases (bs ++ rest)) fun _ d' =>
      Fills m (Case.everyIn Expr.isStraightAtLoop cases = true) d (bs ++ (rest ++ done :: R)) d'
        (rest ++ done :: R) := by
  match cases, bs with
  | [], [] =>
      simp only [Case.lowerBodies, Case.everyIn]
      exact Fills.refl hs hclosed
  | .mk label body :: cases, b :: bs =>
      simp only [Case.jumpsLandIn, Case.everyIn, Expr.isStraightAtLoop_false, Bool.true_and,
        Bool.and_eq_true] at htidy hflat ⊢
      rw [List.cons_append, Case.lowerBodies]
      refine (moveTo_passes m hs hclosed).bind ?_
      rintro - d₁ ⟨h₁, hopen₁, -⟩
      refine (Stmt.lowerBody_completes p m body h₁.sound hopen₁
        (fun ht => ⟨(htidy ht).1.1, (htidy ht).2.1⟩) (fun hin => h₁.loops_eq ▸ hloops hin)
        fun hf => (hflat hf).1.2).bind ?_
      intro _ d₂ h₂
      have hnext : (bs ++ rest).headD done ∈ bs ++ (rest ++ done :: R) := by
        rw [← List.append_assoc]
        cases bs ++ rest <;> simp
      refine (jumpIfOpen_passes m h₂.sound h₂.isOpen (h₂.sound.reserved_lt hnext)).bind ?_
      rintro - d₃ ⟨h₃, hclosed₃⟩
      have hbody : Fills m (Stmt.everyIn Expr.isStraightAtLoop body = true) d
          (b :: bs ++ (rest ++ done :: R)) d₃ (bs ++ (rest ++ done :: R)) :=
        .of_body h₁ h₂ h₃ hclosed₃
      refine (Case.lowerBodies_fills p m done cases bs rest h₃.sound (fun _ => hclosed₃)
        (by simpa using hlength) (fun ht => ⟨(htidy ht).1.2, (htidy ht).2.2⟩)
        (fun hin => hbody.loops_eq ▸ hloops hin) fun hf => (hflat hf).2).mono ?_
      intro _ d₄ h₄
      exact hbody.trans h₄

theorem Stmt.lowerDefault_fills (p : Program) (m : Mode) (done : BlockId)
    (default : Option (List Stmt)) (bs : List BlockId) {R : List BlockId} {d : Draft}
    {inChoice inLoop : Bool} (hs : Stage.Sound ⟨d, bs ++ done :: R⟩)
    (hclosed : m.tidy → d.IsClosed) (hlength : bs.length = default.toList.length)
    (htidy : m.tidy → Stmt.jumpsLandInOption inChoice inLoop default = true ∧
      Stmt.everyInOption Expr.isStraightAtLoop default = true)
    (hloops : (inChoice || inLoop) = true → d.loops ≠ [])
    (hflat : m.flat → Stmt.everyInOption (fun _ e => e.isStraight) default = true) :
    Ensures d (Stmt.lowerDefault p done default bs) fun _ d' =>
      Fills m (Stmt.everyInOption Expr.isStraightAtLoop default = true) d (bs ++ done :: R) d'
        (done :: R) := by
  match default, bs with
  | none, [] =>
      simp only [Stmt.lowerDefault, Stmt.everyInOption]
      exact Fills.refl hs hclosed
  | some body, [b] =>
      simp only [Stmt.jumpsLandInOption, Stmt.everyInOption] at htidy hflat ⊢
      rw [Stmt.lowerDefault]
      refine (moveTo_passes m hs hclosed).bind ?_
      rintro - d₁ ⟨h₁, hopen₁, -⟩
      refine (Stmt.lowerBody_completes p m body h₁.sound hopen₁ htidy
        (fun hin => h₁.loops_eq ▸ hloops hin) hflat).bind ?_
      intro _ d₂ h₂
      refine (jumpIfOpen_passes m h₂.sound h₂.isOpen (h₂.sound.reserved_lt (by simp))).mono ?_
      rintro - d₃ ⟨h₃, hclosed₃⟩
      exact .of_body h₁ h₂ h₃ hclosed₃

end

theorem Lowering.finish_passes (m : Mode) {d : Draft} (hs : Stage.Sound ⟨d, []⟩)
    (hopen : d.IsOpen) :
    Ensures d finish fun _ d' => Passes m d [] d' [] ∧ (d'.IsClosed ∨
      (d'.current ≠ d'.graph.entry ∧
        ∃ block, d'.graph.block? d'.current = some block ∧ block.preds = [])) := by
  obtain ⟨⟨id, nodes, term, preds, succs⟩, hblock, hterm⟩ := id hopen
  cases hterm
  rw [Ensures, finish]
  simp only [hblock]
  by_cases hreached : d.current = d.graph.entry ∨ preds ≠ []
  · have htargets : ∀ c ∈ [d.graph.exit], c < d.graph.nextBlock := by simpa using hs.exit_lt
    have hend := endCurrent_passes m hs hopen (.leave none) htargets (by simp [Terminator.targets])
    rw [if_pos hreached]
    exact ⟨hend.1, Or.inl hend.2.1⟩
  · rw [if_neg hreached]
    rw [not_or, not_not] at hreached
    exact ⟨.refl hs, Or.inr ⟨hreached.1, _, hblock, hreached.2⟩⟩

namespace Procedure

def startDraft (proc : Procedure) : Draft :=
  ⟨{ Graph.start with method := some proc.method, params := proc.params }, Graph.start.entry, []⟩

theorem block?_startDraft {proc : Procedure} {b : BlockId} {block : Block}
    (h : proc.startDraft.graph.block? b = some block) : b < 2 ∧ block = .fresh b := by
  match b, h with
  | 0, h =>
      cases h
      exact ⟨by decide, rfl⟩
  | 1, h =>
      cases h
      exact ⟨by decide, rfl⟩
  | b + 2, h => simp [Graph.block?, startDraft, Graph.start] at h

theorem sound_startDraft (proc : Procedure) : Stage.Sound ⟨proc.startDraft, []⟩ where
  built := Graph.Built.start.sign _ _
  linked := by
    refine ⟨fun {b} hb => ?_, fun hb hc => ?_, fun hb hc => ?_, fun hp hb => ?_⟩
    · match b, hb with
      | 0, _ => exact ⟨_, rfl⟩
      | 1, _ => exact ⟨_, rfl⟩
    · rw [(block?_startDraft hb).2] at hc
      cases hc
    · rw [(block?_startDraft hb).2] at hc
      cases hc
    · rw [(block?_startDraft hp).2, (block?_startDraft hb).2]
      simp [Block.fresh]
  entry_lt := Nat.succ_pos 1
  exit_lt := Nat.lt_succ_self 1
  current_lt := Nat.succ_pos 1
  loops_lt h := by cases h
  reserved_nodup := List.nodup_nil
  reserved_ne h := by cases h
  reserved_open h := by cases h

/-- The graph of a procedure comes from the start by a run, which ends with no block left. -/
theorem exists_run (p : Program) (proc : Procedure) (m : Mode)
    (htidy : m.tidy → proc.JumpsLand ∧ proc.LoopsStraight) (hflat : m.flat → proc.IsStraight) :
    ∃ d, d.graph = proc.lower p ∧ Passes m proc.startDraft [] d [] ∧
      (¬ proc.LoopsStraight → d.graph.Spoiled) ∧
      (d.IsClosed ∨ (d.current ≠ d.graph.entry ∧
        ∃ block, d.graph.block? d.current = some block ∧ block.preds = [])) := by
  have hopen : proc.startDraft.IsOpen := ⟨.fresh 0, rfl, rfl⟩
  have hbody := Stmt.lowerBody_completes p m proc.body proc.sound_startDraft hopen htidy
    (fun h => by cases h) hflat
  have hfinish := Lowering.finish_passes m hbody.sound hbody.isOpen
  exact ⟨_, rfl, hbody.toPasses.trans hfinish.1,
    fun hnot => (hbody.spoils hnot).of_extends hfinish.1.run.extends, hfinish.2⟩

theorem built_lower (p : Program) (proc : Procedure) : (proc.lower p).Built := by
  obtain ⟨d, hgraph, hpass, -⟩ := proc.exists_run p ⟨False, False⟩ False.elim False.elim
  exact hgraph ▸ hpass.sound.built

theorem linked_lower (p : Program) (proc : Procedure) : (proc.lower p).Linked := by
  obtain ⟨d, hgraph, hpass, -⟩ := proc.exists_run p ⟨False, False⟩ False.elim False.elim
  exact hgraph ▸ hpass.sound.linked

end Procedure

theorem Stage.usesPrecede_step {m : Mode} (hm : m.flat) {s s' : Stage} (hs : s.Sound)
    (h : s.draft.graph.UsesPrecede Operation.inputs) (hstep : Step m s s') :
    s'.draft.graph.UsesPrecede Operation.inputs := by
  cases hstep with
  | @emit d reserved op _ hflat =>
      refine h.addNode hs.built.wellListed fun hblock n hn => ?_
      obtain ⟨block, hcurrent, hmem⟩ := hflat hm n hn
      rw [hblock] at hcurrent
      cases hcurrent
      exact hmem
  | @reserve d before after =>
      refine h.of_same_nodes (fun _ => rfl) fun hb => ?_
      simp only [Graph.block?_addBlock] at hb
      split at hb
      · cases hb
        exact Or.inl rfl
      · exact Or.inr ⟨_, hb, rfl⟩
  | @close d reserved b t _ _ _ _ _ =>
      refine h.of_same_nodes (fun n => by simp [Graph.node?]) fun hb => ?_
      simp only [Graph.block?_endWith] at hb
      obtain ⟨block, hblock, rfl⟩ := Option.map_eq_some_iff.1 hb
      exact Or.inr ⟨block, hblock, rfl⟩
  | move => exact h
  | retarget => exact h

theorem Stage.usesPrecede_run {m : Mode} (hm : m.flat) {s s' : Stage} (hs : s.Sound)
    (h : s.draft.graph.UsesPrecede Operation.inputs) (hrun : Run m s s') :
    s'.draft.graph.UsesPrecede Operation.inputs := by
  induction hrun with
  | refl => exact h
  | tail hrun hstep ih => exact usesPrecede_step hm (hs.run hrun) ih hstep

theorem Procedure.usesPrecede_lower (p : Program) {proc : Procedure} (h : proc.IsStraight) :
    (proc.lower p).UsesPrecede Operation.inputs := by
  obtain ⟨d, hgraph, hpass, -⟩ := proc.exists_run p ⟨False, True⟩ False.elim fun _ => h
  have hstart : proc.startDraft.graph.UsesPrecede Operation.inputs := by
    intro b block hb pre node post hnodes
    rw [(block?_startDraft hb).2] at hnodes
    simp [Graph.nodesOf, Block.fresh] at hnodes
  exact hgraph ▸ Stage.usesPrecede_run trivial proc.sound_startDraft hstart hpass.run

end Disclosure
