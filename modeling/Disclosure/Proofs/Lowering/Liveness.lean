import Disclosure.Proofs.Lowering.Spread

/-!
# Control comes to the nodes of live statements

A statement is lowered from a block that control comes to or not.  Afterwards control comes to the
current block if it did before and can come to the end of the statement; to the exit also if it can
come to a `leave`; and to where it goes on after the innermost loop or choice also if it can leave
that one.  Of the blocks that were there before, it comes to no others.

In the finished graph control therefore comes to exactly the nodes of the statements that are live.
-/

namespace Disclosure

open Lowering

namespace Draft

variable {R R' : List BlockId} {inChoice inLoop live live' : Bool}
  {leaves leaves' exits exits' : Prop} {d d' : Draft} {b : BlockId}

/-- Where control goes when it leaves the procedure, and when it leaves the innermost loop or
choice. -/
def outlets (d : Draft) (leaves exits : Prop) : Set BlockId :=
  {b | leaves ∧ b = d.graph.exit ∨ exits ∧ ∃ t ∈ d.loops.head?, b = t.done}

theorem mem_outlets_or :
    b ∈ d.outlets leaves exits ∨ b ∈ d.outlets leaves' exits' ↔
      b ∈ d.outlets (leaves ∨ leaves') (exits ∨ exits') := by
  simp only [outlets, Set.mem_ofPred_eq]
  rw [or_and_right, or_and_right, or_or_or_comm]

theorem outlets_union :
    d.outlets leaves exits ∪ d.outlets leaves' exits' =
      d.outlets (leaves ∨ leaves') (exits ∨ exits') :=
  Set.ext fun _ => mem_outlets_or

theorem mem_outlets_enter {t : JumpTargets} :
    b ∈ (d.enter t).outlets leaves exits ↔ leaves ∧ b = d.graph.exit ∨ exits ∧ b = t.done := by
  simp [outlets, enter]

theorem mem_outlets_of_not (hexits : ¬ exits) :
    b ∈ d.outlets leaves exits ↔ leaves ∧ b = d.graph.exit := by
  simp [outlets, hexits]

theorem outlets_eq_empty (hleaves : ¬ leaves) (hexits : ¬ exits) : d.outlets leaves exits = ∅ := by
  simp [outlets, hleaves, hexits]

/-- The targets of jumps out of the statements are among the blocks that were added for later, and
control comes to the next round of the innermost loop if it comes to the statement. -/
structure Lands (R : List BlockId) (inChoice inLoop live : Bool) (d : Draft) : Prop where
  exit_mem : d.graph.exit ∈ R
  done_mem : ∀ {t}, t ∈ d.loops → t.done ∈ R
  inside : inChoice = true → d.loops ≠ []
  next : inLoop = true →
    ∃ t rest, d.loops = t :: rest ∧ (live = true → d.graph.Reachable t.next)

theorem Lands.notMem_outlets (h : d.Lands R inChoice inLoop live) (hb : b ∉ R) :
    b ∉ d.outlets leaves exits := by
  rintro (⟨-, rfl⟩ | ⟨-, t, ht, rfl⟩)
  · exact hb h.exit_mem
  · exact hb (h.done_mem (List.mem_of_mem_head? ht))

theorem Lands.of_subset (h : d.Lands R inChoice inLoop live) (hsub : R ⊆ R') :
    d.Lands R' inChoice inLoop live :=
  ⟨hsub h.exit_mem, fun ht => hsub (h.done_mem ht), h.inside, h.next⟩

theorem Lands.andThen (h : d.Lands R inChoice inLoop live) (completes : Bool) :
    d.Lands R inChoice inLoop (live && completes) where
  exit_mem := h.exit_mem
  done_mem := h.done_mem
  inside := h.inside
  next hloop := by
    obtain ⟨t, rest, hloops, hnext⟩ := h.next hloop
    exact ⟨t, rest, hloops, fun hlive => hnext (Bool.and_eq_true_iff.1 hlive).1⟩

theorem Lands.enclosingNext (h : d.Lands R inChoice inLoop live) (done : BlockId) :
    Ensures d (enclosingNext done) fun next d' =>
      d' = d ∧ (inLoop = true → live = true → d.graph.Reachable next) := by
  rw [Ensures, Lowering.enclosingNext]
  cases hloops : d.loops with
  | nil =>
      refine ⟨rfl, fun hloop => ?_⟩
      obtain ⟨t, rest, hcons, -⟩ := h.next hloop
      rw [hloops] at hcons
      cases hcons
  | cons t rest =>
      refine ⟨rfl, fun hloop => ?_⟩
      obtain ⟨t', rest', hcons, hnext⟩ := h.next hloop
      rw [hloops] at hcons
      cases hcons
      exact hnext

theorem Lands.push (h : d.Lands R inChoice inLoop live) {t : JumpTargets} {inLoop' : Bool}
    (hdone : t.done ∈ R') (hsub : R ⊆ R')
    (hnext : inLoop' = true → live = true → d.graph.Reachable t.next) :
    (d.enter t).Lands R' true inLoop' live where
  exit_mem := hsub h.exit_mem
  done_mem {t'} ht' := by
    rcases List.mem_cons.1 ht' with rfl | ht'
    · exact hdone
    · exact hsub (h.done_mem ht')
  inside _ := List.cons_ne_nil _ _
  next hloop := ⟨t, d.loops, rfl, hnext hloop⟩

end Draft

namespace Lowering

open Draft (outlets Lands Marked)

variable {out : Set BlockId} {R R' : List BlockId} {inChoice inLoop live live' : Bool}
  {marks marks' : List Bool} {d d' d'' : Draft} {b : BlockId}

theorem Passes.outlets_eq {m : Mode} (h : Passes m d R d' R') : d'.outlets = d.outlets := by
  have hexit : d'.graph.exit = d.graph.exit := h.run.extends.exit_eq
  funext leaves exits
  simp only [outlets, h.loops_eq, hexit]

theorem Spreads.lands (h : Spreads out d R d' R' live' marks) {R₀ : List BlockId}
    (hs : Stage.Sound ⟨d, R⟩) (hland : d.Lands R₀ inChoice inLoop live) :
    d'.Lands R₀ inChoice inLoop live where
  exit_mem := h.run.extends.exit_eq ▸ hland.exit_mem
  done_mem ht := hland.done_mem (h.loops_eq ▸ ht)
  inside hin := h.loops_eq ▸ hland.inside hin
  next hloop := by
    obtain ⟨t, rest, hloops, hnext⟩ := hland.next hloop
    have hlt := (hs.loops_lt (t := t) (by simp [hloops])).1
    exact ⟨t, rest, h.loops_eq.trans hloops, fun hlive => h.reachable hlt (hnext hlive)⟩

/-- From `d` to `d'` statements were lowered that control can leave as `ways` says. -/
structure Flows (p : Program) (d : Draft) (R : List BlockId) (live : Bool) (marks : List Bool)
    (occurrences : List (Stmt × Bool)) (ways : Ways) (d' : Draft) : Prop
    extends Spreads (d.outlets (Stmt.Leaves occurrences) (live = true ∧ ways.exits = true)) d R d' R
      (live && ways.completes) (marks ++ Stmt.nodeMarks p occurrences) where
  isOpen : d'.IsOpen

namespace Flows

variable {p : Program} {occurrences occurrences' : List (Stmt × Bool)} {ways ways' : Ways}
  {s : Stmt}

theorem nil (hs : Stage.Sound ⟨d, R⟩) (hopen : d.IsOpen) (h : d.Marked R live marks) :
    Flows p d R live marks [] ⟨true, false⟩ d := by
  refine ⟨?_, hopen⟩
  have hrefl := Spreads.refl hs h
  rw [Draft.outlets_eq_empty (by simp) (by simp)]
  simpa using hrefl

theorem andThen (h : Flows p d R live marks occurrences ways d')
    (h' : Flows p d' R (live && ways.completes) (marks ++ Stmt.nodeMarks p occurrences) occurrences'
      ways' d'') :
    Flows p d R live marks (occurrences ++ occurrences') (ways.andThen ways') d'' := by
  refine ⟨?_, h'.isOpen⟩
  have hexits : (live = true ∧ ways.exits = true ∨
      (live && ways.completes) = true ∧ ways'.exits = true) ↔
      live = true ∧ (ways.andThen ways').exits = true := by
    simp only [Ways.andThen, Bool.and_eq_true, Bool.or_eq_true, and_or_left, and_assoc]
  have hboth := h.toSpreads.trans h'.toSpreads
  rwa [h.toPasses.outlets_eq, Draft.outlets_union, ← Stmt.leaves_append, hexits, List.append_assoc,
    ← Stmt.nodeMarks_append, Bool.and_assoc] at hboth

theorem afterNodes (hleave : ∀ value, s ≠ .leave value)
    (h : Spreads ∅ d R d' R live (marks ++ List.replicate (s.ownNodes p) live))
    (h' : Flows p d' R live (marks ++ List.replicate (s.ownNodes p) live) occurrences ways d'') :
    Flows p d R live marks ((s, live) :: occurrences) ways d'' := by
  refine ⟨?_, h'.isOpen⟩
  have hboth := h.trans h'.toSpreads
  rw [h.toPasses.outlets_eq, Set.empty_union, List.append_assoc, ← Stmt.nodeMarks_cons] at hboth
  have hleaves : Stmt.Leaves ((s, live) :: occurrences) ↔ Stmt.Leaves occurrences := by
    rw [Stmt.leaves_cons, or_iff_right]
    rintro ⟨⟨value, rfl⟩, -⟩
    exact hleave value rfl
  rwa [hleaves]

theorem ofJump {exits : Bool}
    (h : Spreads out d R d' R false (marks ++ List.replicate (s.ownNodes p) live))
    (hopen : d'.IsOpen)
    (hout : ∀ b, b ∈ out ↔ b ∈ d.outlets (Stmt.Leaves [(s, live)]) (live = true ∧ exits = true)) :
    Flows p d R live marks [(s, live)] ⟨false, exits⟩ d' := by
  refine ⟨?_, hopen⟩
  rw [Bool.and_false, Stmt.nodeMarks_cons, Stmt.nodeMarks_nil, List.append_nil]
  exact h.congr fun b _ _ => hout b

end Flows

end Lowering

open Draft (Lands Marked)

theorem Case.lowerTests_spreads (p : Program) {selector : NodeId} (cases : List Case)
    (bodies : List BlockId) {R : List BlockId} {live : Bool} {marks : List Bool} {d : Draft}
    (hlength : bodies.length = cases.length) (hs : Stage.Sound ⟨d, R⟩) (hopen : d.IsOpen)
    (h : d.Marked R live marks) (hselector : selector < d.graph.nextNode)
    (hbodies : ∀ b ∈ bodies, b ∈ R) :
    Ensures d (Case.lowerTests p selector cases bodies) fun _ d' =>
      Spreads {b | live = true ∧ b ∈ bodies} d R d' R live
        (marks ++ List.replicate (Case.testNodes p cases) live) ∧ d'.IsOpen := by
  induction cases generalizing bodies d marks with
  | nil =>
      obtain rfl := List.length_eq_zero_iff.1 hlength
      have hrefl : Spreads {b | live = true ∧ b ∈ []} d R d R live
          (marks ++ List.replicate (Case.testNodes p []) live) := by
        simpa [Case.testNodes] using Spreads.refl hs h
      exact ⟨hrefl, hopen⟩
  | cons first rest ih =>
      cases bodies with
      | nil => simp at hlength
      | cons b bodies =>
          obtain ⟨label, body⟩ := first
          simp only [Case.lowerTests, Case.label_mk]
          refine (label.lower_makes p d).bind ?_
          intro l d₁ hl
          obtain ⟨h₁, hopen₁, hl₁⟩ := hl.spreads hs hopen h
          have hselector₁ := Nat.lt_of_lt_of_le hselector h₁.run.extends.nextNode_le
          have hoperands : ∀ n ∈ (Operation.caseTest selector l).operands,
              n < d₁.graph.nextNode := by
            simp [Operation.operands, hselector₁, hl₁ l]
          refine (emit_spreads h₁.sound hopen₁ h₁.marked hoperands).bind ?_
          rintro test d₂ ⟨h₂, -⟩
          obtain ⟨h₃, hopen₃⟩ := nextTest_spreads h₂.sound h₂.marked test
            (hbodies b List.mem_cons_self)
          rw [Ensures, nextTest_eq]
          have htests := (h₁.trans h₂).trans h₃
          have hselector₃ := Nat.lt_of_lt_of_le hselector htests.run.extends.nextNode_le
          obtain ⟨h₄, hopen₄⟩ := ih bodies (by simpa using hlength) h₃.sound hopen₃ h₃.marked
            hselector₃ fun c hc => hbodies c (List.mem_cons_of_mem _ hc)
          refine ⟨?_, hopen₄⟩
          rw [Case.testNodes, List.replicate_add, List.replicate_add, ← List.append_assoc,
            ← List.append_assoc]
          exact (htests.trans h₄).congr fun c _ _ => by simp [and_or_left]

theorem Lowering.openLoop_spreads {α : Type} (p : Program) (condition : Expr)
    {f : BlockId → BlockId → BlockId → Lowering α} {post : α → Draft → Prop} {R : List BlockId}
    {live : Bool} {marks : List Bool} {d : Draft} (hs : Stage.Sound ⟨d, R⟩) (hopen : d.IsOpen)
    (h : d.Marked R live marks)
    (hf : ∀ head body done d',
      Spreads ∅ d R d' (body :: done :: R) live
        (marks ++ List.replicate (condition.nodeCount p) live) →
      (∀ {b}, b ∈ [head, body, done] → d.graph.nextBlock ≤ b ∧ b < d'.graph.nextBlock ∧
        (d'.graph.Reachable b ↔ live = true)) →
      (head :: body :: done :: R).Nodup → Ensures d' (f head body done) post) :
    Ensures d (do
      let head ← newBlock
      let body ← newBlock
      let done ← newBlock
      jumpIfOpen head
      moveTo head
      let c ← condition.lower p
      endBlock head (.loop c body done) [body, done]
      f head body done) post := by
  refine threeBlocks_spreads hs h fun head body done d₁ h₁ hopen₁ hnew => ?_
  have hlt : ∀ {b}, b ∈ [head, body, done] → b < d₁.graph.nextBlock :=
    fun hb => h₁.sound.reserved_lt (List.mem_append_left R hb)
  have hnodup := h₁.sound.reserved_nodup
  obtain ⟨hheadR, htargets⟩ := List.nodup_cons.1 hnodup
  refine (jumpIfOpen_spreads h₁.sound (hopen₁ hopen) h₁.marked (hlt (by simp))
    (Or.inl (by simp))).bind ?_
  intro _ d₂ h₂
  have hhead₂ : d₂.graph.Reachable head ↔ live = true := by
    rw [h₂.reachable_iff (hlt (by simp))]
    simp [hnew]
  refine (moveTo_spreads h₂.sound h₂.marked hhead₂).bind ?_
  rintro - d₃ ⟨h₃, hopen₃, -⟩
  refine (condition.lower_makes p d₃).bind ?_
  intro c d₄ hc
  obtain ⟨h₄, -, -⟩ := hc.spreads h₃.sound hopen₃ h₃.marked
  have htest := (h₂.trans h₃).trans h₄
  have hlt₄ : ∀ {b}, b ∈ [head, body, done] → b < d₄.graph.nextBlock :=
    fun hb => Nat.lt_of_lt_of_le (hlt hb) htest.run.extends.nextBlock_le
  have hhead₄ : d₄.graph.Reachable head ↔ live = true := by
    rw [htest.reachable_iff (hlt (by simp))]
    simp [hnew]
  refine (endBlock_spreads h₄.sound h₄.marked (hlt₄ (by simp)) hheadR (.loop c body done)
    (fun b hb => hlt₄ (List.mem_cons_of_mem head hb))
    (List.Nodup.of_append_left (show ([body, done] ++ R).Nodup from htargets))
    fun b hb => Or.inl (List.mem_append_left R hb)).bind ?_
  intro _ d₅ h₅
  have hrest := htest.trans h₅
  refine hf head body done d₅ ((h₁.trans hrest).congr fun b hb _ => ⟨?_, False.elim⟩)
    (fun {b} hb => ⟨(hnew b hb).1, ?_, ?_⟩) hnodup
  · have hold : ∀ c ∈ [head, body, done], b ≠ c := fun c hc heq =>
      Nat.not_lt_of_le (hnew c hc).1 (heq ▸ hb)
    simp only [List.mem_cons, List.not_mem_nil, or_false, forall_eq_or_imp, forall_eq] at hold
    simp [Terminator.targets, hold]
  · exact Nat.lt_of_lt_of_le (hlt₄ hb) h₅.run.extends.nextBlock_le
  · have hcases : b = head ∨ b = body ∨ b = done := by simpa using hb
    rw [hrest.reachable_iff (hlt hb), hhead₄]
    simp [Terminator.targets, (hnew b hb).2, ← and_or_left, hcases]

/-- From `d` to `d'` the blocks of a choice were added and its tests made: control comes to every
body, and to what follows the choice if there is no default. -/
structure Lowering.OpensChoice (p : Program) (selector : Expr) (cases : List Case)
    (default : Option (List Stmt)) (d : Draft) (R : List BlockId) (live : Bool) (marks : List Bool)
    (done : BlockId) (bodies defaults : List BlockId) (d' : Draft) : Prop
    extends Spreads ∅ d R d' (bodies ++ (defaults ++ done :: R)) live
      (marks ++ List.replicate (Stmt.ownNodes p (.select selector cases default)) live) where
  length_bodies : bodies.length = cases.length
  length_defaults : defaults.length = default.toList.length
  nextBlock_le : d.graph.nextBlock ≤ done
  body_iff : ∀ b ∈ bodies ++ defaults, d'.graph.Reachable b ↔ live = true
  done_iff : d'.graph.Reachable done ↔ live = true ∧ default = none

theorem Lowering.openChoice_spreads {α : Type} (p : Program) (selector : Expr) (cases : List Case)
    (default : Option (List Stmt)) {f : BlockId → List BlockId → List BlockId → Lowering α}
    {post : α → Draft → Prop} {R : List BlockId} {live : Bool} {marks : List Bool} {d : Draft}
    (hs : Stage.Sound ⟨d, R⟩) (hopen : d.IsOpen) (h : d.Marked R live marks)
    (hf : ∀ done bodies defaults d',
      OpensChoice p selector cases default d R live marks done bodies defaults d' →
      Ensures d' (f done bodies defaults) post) :
    Ensures d (do
      let s ← selector.lower p
      let done ← newBlock
      let bodies ← newBlocks cases.length
      let defaults ← newBlocks default.toList.length
      Case.lowerTests p s cases bodies
      jumpIfOpen (defaults.headD done)
      f done bodies defaults) post := by
  refine (selector.lower_makes p d).bind ?_
  intro n d₁ hn
  obtain ⟨h₁, hopen₁, hn₁⟩ := hn.spreads hs hopen h
  refine (newBlock_spreads [] R h₁.sound h₁.marked).bind ?_
  rintro done d₂ ⟨h₂, hopen₂, hdone, hdone₂⟩
  refine (newBlocks_spreads cases.length [] (done :: R) h₂.sound (hopen₂ hopen₁) h₂.marked).bind ?_
  rintro bodies d₃ ⟨h₃, hopen₃, hlength₃, hbodies⟩
  refine (newBlocks_spreads default.toList.length bodies (done :: R) h₃.sound hopen₃
    h₃.marked).bind ?_
  rintro defaults d₄ ⟨h₄, hopen₄, hlength₄, hdefaults⟩
  have hselect := ((h₁.trans h₂).trans h₃).trans h₄
  refine (Case.lowerTests_spreads p cases bodies hlength₃ h₄.sound hopen₄ h₄.marked
    (Nat.lt_of_lt_of_le (hn₁ n (by simp)) ((h₂.trans h₃).trans h₄).run.extends.nextNode_le)
    fun b hb => List.mem_append_left _ hb).bind ?_
  rintro - d₅ ⟨h₅, hopen₅⟩
  have hdefault : defaults.headD done ∈ bodies ++ (defaults ++ done :: R) := by
    cases defaults <;> simp
  refine (jumpIfOpen_spreads h₅.sound hopen₅ h₅.marked (h₅.sound.reserved_lt hdefault)
    (Or.inl hdefault)).bind ?_
  intro _ d₆ h₆
  rw [List.append_assoc, ← List.replicate_add] at h₆
  have htests := h₅.trans h₆
  have hlt : ∀ {b}, b ∈ bodies ++ (defaults ++ done :: R) → b < d₄.graph.nextBlock :=
    h₄.sound.reserved_lt
  have hfresh : ∀ {b}, b ∈ bodies ++ defaults ∨ b = done →
      d.graph.nextBlock ≤ b ∧ ¬ d₄.graph.Reachable b := by
    rintro b (hb | rfl)
    · rcases List.mem_append.1 hb with hb | hb
      · have hnew := hbodies b hb
        refine ⟨Nat.le_trans (h₁.trans h₂).run.extends.nextBlock_le hnew.1, ?_⟩
        rw [h₄.reachable_iff_of_notMem (h₃.sound.reserved_lt (by simp [hb])) (Set.notMem_empty b)]
        exact hnew.2
      · have hnew := hdefaults b hb
        exact hnew.imp_left (Nat.le_trans ((h₁.trans h₂).trans h₃).run.extends.nextBlock_le)
    · refine ⟨Nat.le_trans h₁.run.extends.nextBlock_le (Nat.le_of_eq hdone.symm), ?_⟩
      rwa [h₄.reachable_iff_of_notMem (h₃.sound.reserved_lt (by simp)) (Set.notMem_empty b),
        h₃.reachable_iff_of_notMem (h₂.sound.reserved_lt (by simp)) (Set.notMem_empty b)]
  have hdoneR : done ∉ bodies ∧ done ∉ defaults ∧ done ∉ R := by
    have hnodup := h₄.sound.reserved_nodup
    grind
  have hhead : (defaults.headD done = done ↔ default = none) ∧
      ∀ b ∈ defaults, b = defaults.headD done := by
    match default, defaults, hlength₄ with
    | none, [], _ => simp
    | some _, [b], _ => simpa [eq_comm] using hdoneR.2.1
  have hstarts : ∀ b ∈ bodies ++ defaults, d₆.graph.Reachable b ↔ live = true := by
    intro b hb
    have hnot := (hfresh (Or.inl hb)).2
    rw [htests.reachable_iff (hlt (by grind))]
    refine ⟨?_, fun hlive => Or.inr ?_⟩
    · rintro (hreach | ⟨hlive, -⟩ | ⟨hlive, -⟩)
      · exact absurd hreach hnot
      · exact hlive
      · exact hlive
    · exact (List.mem_append.1 hb).imp (fun hb => ⟨hlive, hb⟩) fun hb => ⟨hlive, hhead.2 b hb⟩
  have hdone₆ : d₆.graph.Reachable done ↔ live = true ∧ default = none := by
    rw [htests.reachable_iff (hlt (by simp)), ← hhead.1]
    simp [(hfresh (Or.inr rfl)).2, hdoneR.1, eq_comm]
  have hstart : Spreads ∅ d R d₆ (bodies ++ (defaults ++ done :: R)) live
      (marks ++ List.replicate (Stmt.ownNodes p (.select selector cases default)) live) := by
    refine (hselect.trans htests).congr fun b hb _ => ⟨?_, False.elim⟩
    have hnew : ∀ {c}, c ∈ bodies ++ defaults ∨ c = done → b ≠ c := fun hc heq =>
      Nat.not_lt_of_le (hfresh hc).1 (heq ▸ hb)
    rintro (hmem | ⟨-, hmem⟩ | ⟨-, heq⟩)
    · simp at hmem
    · exact hnew (Or.inl (List.mem_append_left _ hmem)) rfl
    · refine hnew ?_ heq
      cases defaults <;> simp
  exact hf done bodies defaults d₆
    ⟨hstart, hlength₃, hlength₄, (hfresh (Or.inr rfl)).1, hstarts, hdone₆⟩

mutual

theorem Stmt.lower_flows (p : Program) (s : Stmt) {R : List BlockId} {inChoice inLoop live : Bool}
    {marks : List Bool} {d : Draft} (hs : Stage.Sound ⟨d, R⟩) (hopen : d.IsOpen)
    (h : d.Marked R live marks) (hland : d.Lands R inChoice inLoop live)
    (hjumps : s.jumpsLand inChoice inLoop = true) :
    Ensures d (s.lower p) fun _ d' => Flows p d R live marks (s.occurrences live) s.ways d' := by
  match s with
  | .declare var init =>
      simp only [Stmt.lower, Stmt.occurrences, Stmt.ways]
      refine ((Makes.nil d).emitNext (by simp [Operation.operands])).bind ?_
      intro n d₁ hn
      cases init with
      | none =>
          obtain ⟨h₁, hopen₁, -⟩ := hn.spreads hs hopen h
          exact .afterNodes (by simp) h₁ (.nil h₁.sound hopen₁ h₁.marked)
      | some e =>
          refine (e.lower_makes p d₁).bind ?_
          intro v d₂ hv
          refine ((hn.append hv).emitNext (by simp [Operation.operands])).bind ?_
          intro t d₃ ht
          refine (ht.emitNext (by simp [Operation.operands])).bind ?_
          intro _ d₄ ha
          obtain ⟨h₄, hopen₄, -⟩ := ha.spreads hs hopen h
          exact .afterNodes (by simp) h₄ (.nil h₄.sound hopen₄ h₄.marked)
  | .eval e =>
      rw [Stmt.lower, Stmt.occurrences, Stmt.ways]
      refine (e.lower_makes p d).bind ?_
      intro n d₁ hn
      obtain ⟨h₁, hopen₁, -⟩ := hn.spreads hs hopen h
      exact .afterNodes (by simp) h₁ (.nil h₁.sound hopen₁ h₁.marked)
  | .branch condition thenBody elseBody =>
      rw [Stmt.jumpsLand, Bool.and_eq_true] at hjumps
      rw [Stmt.lower, Stmt.occurrences, Stmt.ways]
      refine (condition.lower_makes p d).bind ?_
      intro c d₁ hc
      obtain ⟨h₁, -, -⟩ := hc.spreads hs hopen h
      refine (branchOn_spreads h₁.sound h₁.marked c).bind ?_
      rintro ⟨thenBlock, elseBlock, merge⟩ d₂ ⟨h₂, hthen, helse, hmerge, hnew⟩
      have hlt : ∀ {b}, b ∈ [thenBlock, elseBlock, merge] → b < d₂.graph.nextBlock :=
        fun hb => h₂.sound.reserved_lt (List.mem_append_left R hb)
      obtain ⟨-, hnodup⟩ := List.nodup_cons.1 h₂.sound.reserved_nodup
      obtain ⟨helseR, hmergeR⟩ := List.nodup_cons.1 hnodup
      rw [List.mem_cons, not_or] at helseR
      replace hmergeR := (List.nodup_cons.1 hmergeR).1
      refine (moveTo_spreads h₂.sound h₂.marked hthen).bind ?_
      rintro - d₃ ⟨h₃, hopen₃, -⟩
      have hfork := (h₁.trans h₂).trans h₃
      have hland₃ := hfork.lands hs hland
      refine (Stmt.lowerBody_flows p thenBody h₃.sound hopen₃ h₃.marked
        (hland₃.of_subset fun b hb => by simp [hb]) hjumps.1).bind ?_
      intro _ d₄ h₄
      refine (jumpIfOpen_spreads h₄.sound h₄.isOpen h₄.marked (h₄.sound.reserved_lt (by simp))
        (Or.inl (by simp))).bind ?_
      intro _ d₅ h₅
      have harm := (h₃.trans h₄.toSpreads).trans h₅
      have helse₅ : d₅.graph.Reachable elseBlock ↔ live = true := by
        rw [harm.reachable_iff (hlt (by simp)), helse]
        simp [hland₃.notMem_outlets helseR.2, helseR.1]
      refine (moveTo_spreads h₅.sound h₅.marked helse₅).bind ?_
      rintro - d₆ ⟨h₆, hopen₆, -⟩
      have hthenArm := ((hfork.trans h₄.toSpreads).trans h₅).trans h₆
      have hland₆ := hthenArm.lands hs hland
      refine (Stmt.lowerOption_flows p elseBody h₆.sound hopen₆ h₆.marked
        (hland₆.of_subset fun b hb => by simp [hb]) hjumps.2).bind ?_
      intro _ d₇ h₇
      refine (jumpIfOpen_spreads h₇.sound h₇.isOpen h₇.marked (h₇.sound.reserved_lt (by simp))
        (Or.inl (by simp))).bind ?_
      intro _ d₈ h₈
      have harms := ((harm.trans h₆).trans h₇.toSpreads).trans h₈
      have hmerge₈ : d₈.graph.Reachable merge ↔ (live &&
          ((Stmt.waysIn thenBody).orElse (Stmt.waysInOption elseBody)).completes) = true := by
        rw [harms.reachable_iff (hlt (by simp))]
        simp [hmerge, hland₃.notMem_outlets hmergeR, hland₆.notMem_outlets hmergeR, Ways.orElse,
          and_or_left]
      refine (moveTo_spreads h₈.sound h₈.marked hmerge₈).mono ?_
      rintro - d₉ ⟨h₉, hopen₉, -⟩
      refine ⟨?_, hopen₉⟩
      rw [Stmt.nodeMarks_cons, Stmt.nodeMarks_append, ← List.append_assoc, ← List.append_assoc]
      refine (hthenArm.trans (h₇.toSpreads.trans (h₈.trans h₉))).congr fun b hb _ => ?_
      have hne : b ≠ merge := Nat.ne_of_lt
        (Nat.lt_of_lt_of_le hb (Nat.le_trans h₁.run.extends.nextBlock_le hnew))
      simp [hne, hfork.toPasses.outlets_eq, hthenArm.toPasses.outlets_eq, Draft.mem_outlets_or,
        Stmt.leaves_cons, Ways.orElse, and_or_left]
  | .loop condition body =>
      rw [Stmt.jumpsLand] at hjumps
      rw [Stmt.lower, Stmt.occurrences, Stmt.ways]
      refine openLoop_spreads p condition hs hopen h
        fun head bodyBlock done d₁ h₁ hblocks hnodup => ?_
      have hland₁ := h₁.lands hs hland
      obtain ⟨-, hhead_lt, hhead⟩ := hblocks (b := head) (by simp)
      obtain ⟨hdone_new, hdone_lt, hdone⟩ := hblocks (b := done) (by simp)
      have hinside : (d₁.enter ⟨head, done⟩).Lands (done :: R) true true live :=
        hland₁.push (by simp) (by simp) fun _ hlive => hhead.2 hlive
      have hbody : Stage.Sound ⟨d₁.enter ⟨head, done⟩, bodyBlock :: done :: R⟩ →
          (d₁.enter ⟨head, done⟩).Marked (bodyBlock :: done :: R) live
            (marks ++ List.replicate (condition.nodeCount p) live) →
          Ensures (d₁.enter ⟨head, done⟩) (do moveTo bodyBlock; Stmt.lowerBody p body) fun _ d' =>
            ∃ atEnd, Spreads ((d₁.enter ⟨head, done⟩).outlets
                (Stmt.Leaves (Stmt.occurrencesIn live body))
                (live = true ∧ (Stmt.waysIn body).exits = true))
              (d₁.enter ⟨head, done⟩) (bodyBlock :: done :: R) d' (done :: R) atEnd
              (marks ++ List.replicate (condition.nodeCount p) live ++
                Stmt.nodeMarks p (Stmt.occurrencesIn live body)) ∧
              (atEnd = true → live = true) ∧ d'.IsOpen := by
        intro hs₁ h₁'
        refine (moveTo_spreads hs₁ h₁' (hblocks (by simp)).2.2).bind ?_
        rintro - d₂ ⟨h₂, hopen₂, -⟩
        refine (Stmt.lowerBody_flows p body h₂.sound hopen₂ h₂.marked (h₂.lands hs₁ hinside)
          hjumps).mono ?_
        intro _ d₃ h₃
        refine ⟨_, (h₂.trans h₃.toSpreads).congr fun b _ _ => ?_,
          fun hlive => (Bool.and_eq_true_iff.1 hlive).1, h₃.isOpen⟩
        simp [h₂.toPasses.outlets_eq]
      refine (insideLoop_spreads h₁.sound h₁.marked hhead_lt hdone_lt (fun _ hq => hq)
        hbody).bind ?_
      rintro - d₂ ⟨atEnd, h₂, hatEnd, hopen₂⟩
      have hhead₂ : atEnd = true → d₂.graph.Reachable head := fun hlive =>
        h₂.reachable hhead_lt (hhead.2 (hatEnd hlive))
      refine (jumpIfOpen_spreads h₂.sound hopen₂ h₂.marked
        (Nat.lt_of_lt_of_le hhead_lt h₂.run.extends.nextBlock_le) (Or.inr hhead₂)).bind ?_
      intro _ d₃ h₃
      -- control comes to the head at the end of the body only if it did at its start
      replace h₃ := h₃.absorb fun b hb => hb.2 ▸ hhead₂ hb.1
      have hne_exit : done ≠ d₁.graph.exit := by
        rintro rfl
        simp [hland₁.exit_mem] at hnodup
      have hdone₃ : d₃.graph.Reachable done ↔ (live && true) = true := by
        rw [(h₂.trans h₃).reachable_iff hdone_lt, hdone]
        simpa [Draft.mem_outlets_enter, hne_exit] using fun hlive _ => hlive
      refine (moveTo_spreads h₃.sound h₃.marked hdone₃).mono ?_
      rintro - d₄ ⟨h₄, hopen₄, -⟩
      refine ⟨?_, hopen₄⟩
      rw [Stmt.nodeMarks_cons, ← List.append_assoc]
      refine (h₁.trans (h₂.trans (h₃.trans h₄))).congr fun b hb _ => ?_
      have hne_done : b ≠ done := fun heq => Nat.not_lt_of_le hdone_new (heq ▸ hb)
      have hexit : d₁.graph.exit = d.graph.exit := h₁.run.extends.exit_eq
      rw [Draft.mem_outlets_of_not (by simp)]
      simp [Draft.mem_outlets_enter, Stmt.leaves_cons, hne_done, hexit]
  | .select selector cases default =>
      rw [Stmt.jumpsLand, Bool.and_eq_true] at hjumps
      rw [Stmt.lower]
      refine openChoice_spreads p selector cases default hs hopen h
        fun done bodies defaults d₁ h₁ => ?_
      have hland₁ := h₁.lands hs hland
      have hdone_lt := h₁.sound.reserved_lt (b := done) (by simp)
      refine ((hland₁.enclosingNext done).and (enclosingNext_lt h₁.sound hdone_lt)).bind ?_
      rintro next d₁ ⟨⟨rfl, hnext⟩, -, hnext_lt⟩
      have hinside : (d₁.enter ⟨next, done⟩).Lands (done :: R) true inLoop live :=
        hland₁.push (by simp) (by simp) hnext
      have hbody : Stage.Sound ⟨d₁.enter ⟨next, done⟩, bodies ++ (defaults ++ done :: R)⟩ →
          (d₁.enter ⟨next, done⟩).Marked (bodies ++ (defaults ++ done :: R)) live
            (marks ++ List.replicate (Stmt.ownNodes p (.select selector cases default)) live) →
          Ensures (d₁.enter ⟨next, done⟩) (do
            Case.lowerBodies p done cases (bodies ++ defaults)
            Stmt.lowerDefault p done default defaults) fun _ d' =>
            ∃ atEnd, Spreads ((d₁.enter ⟨next, done⟩).outlets
                (Stmt.Leaves
                  (Case.occurrencesIn live cases ++ Stmt.occurrencesInOption live default))
                (live = true ∧ (Case.exitsIn cases || (Stmt.waysInOption default).exits) = true) ∪
                {b | default.isSome ∧ (live && (Stmt.waysInOption default).completes) = true ∧
                  b = done})
              (d₁.enter ⟨next, done⟩) (bodies ++ (defaults ++ done :: R)) d' (done :: R) atEnd
              (marks ++ Stmt.nodeMarks p (Stmt.occurrences live (.select selector cases default))) ∧
              True := by
        intro hs₁ h₁'
        refine (Case.lowerBodies_spreads p cases bodies defaults hs₁ h₁.length_bodies h₁' hinside
          hjumps.1 h₁.body_iff ?_).bind ?_
        · rintro rfl hlive
          have hnone : default = none := by simpa using h₁.length_defaults.symm
          exact h₁.done_iff.2 ⟨hlive, hnone⟩
        · rintro - d₂ ⟨_, h₂⟩
          have hdefaults : ∀ b ∈ defaults, d₂.graph.Reachable b ↔ live = true := by
            intro b hb
            have hbR : b ∉ done :: R := by
              have hnodup := hs₁.reserved_nodup
              grind
            rw [h₂.reachable_iff_of_notMem (hs₁.reserved_lt (by simp [hb]))
              (hinside.notMem_outlets hbR)]
            exact h₁.body_iff b (List.mem_append_right _ hb)
          refine (Stmt.lowerDefault_spreads p default defaults h₂.sound h₁.length_defaults h₂.marked
            (h₂.lands hs₁ hinside) hjumps.2 hdefaults).mono ?_
          rintro - d₃ ⟨atEnd, h₃⟩
          refine ⟨atEnd, ?_, trivial⟩
          rw [Stmt.occurrences, Stmt.nodeMarks_cons, Stmt.nodeMarks_append,
            ← List.append_assoc marks, ← List.append_assoc (marks ++ _)]
          refine (h₂.trans h₃).congr fun b _ _ => ?_
          simp [h₂.toPasses.outlets_eq, ← or_assoc, Draft.mem_outlets_or, and_or_left]
      refine (insideLoop_spreads h₁.sound h₁.marked hnext_lt hdone_lt (fun _ hq => hq)
        hbody).bind ?_
      rintro - d₂ ⟨_, h₂, -⟩
      have hdone₂ : d₂.graph.Reachable done ↔
          (live && (Stmt.ways (.select selector cases default)).completes) = true := by
        have hne_exit : done ≠ d₁.graph.exit := by
          rintro rfl
          have hnodup := h₁.sound.reserved_nodup
          have hmem := hland₁.exit_mem
          grind
        rw [h₂.reachable_iff hdone_lt, h₁.done_iff, Set.mem_union, Draft.mem_outlets_enter]
        cases default with
        | none => by_cases hlive : live = true <;> simp [Stmt.ways, hne_exit, hlive]
        | some body =>
            by_cases hlive : live = true <;>
              simp [Stmt.ways, Stmt.waysInOption, hne_exit, hlive, or_comm]
      refine (moveTo_spreads h₂.sound h₂.marked hdone₂).mono ?_
      rintro - d₃ ⟨h₃, hopen₃, -⟩
      refine ⟨(h₁.toSpreads.trans (h₂.trans h₃)).congr fun b hb _ => ?_, hopen₃⟩
      have hne_done : b ≠ done := fun heq => Nat.not_lt_of_le h₁.nextBlock_le (heq ▸ hb)
      have hways : (Stmt.ways (.select selector cases default)).exits = false := by
        cases default <;> rw [Stmt.ways]
      have hexit : d₁.graph.exit = d.graph.exit := h₁.run.extends.exit_eq
      rw [Draft.mem_outlets_of_not (by simp [hways])]
      simp [Stmt.occurrences, Draft.mem_outlets_enter, Stmt.leaves_cons, hne_done, hexit]
  | .leave value =>
      rw [Stmt.lower, Stmt.occurrences, Stmt.ways]
      refine (Expr.lowerOption_makes p value d).bind ?_
      intro v d₁ hv
      refine (hv.emitNext (by simp [Operation.operands])).bind ?_
      intro _ d₂ hn
      obtain ⟨h₂, -, -⟩ := hn.spreads hs hopen h
      have hexit : d₂.graph.exit ∈ R := (h₂.lands hs hland).exit_mem
      have hend : Ensures d₂ (fun d => endCurrent (.leave v) [d.graph.exit] d) fun _ d' =>
          Spreads {b | live = true ∧ b ∈ [d₂.graph.exit]} d₂ R d' R live
            (marks ++ List.replicate (Stmt.ownNodes p (.leave value)) live) :=
        endCurrent_spreads h₂.sound h₂.marked (.leave v)
          (by simpa [Terminator.targets] using h₂.sound.exit_lt) (by simp [Terminator.targets])
          (by simp [Terminator.targets, hexit])
      refine hend.bind ?_
      intro _ d₃ h₃
      refine (moveToNew_spreads h₃.sound h₃.marked).mono ?_
      rintro - d₄ ⟨h₄, hopen₄⟩
      have hexit_eq : d₂.graph.exit = d.graph.exit := h₂.run.extends.exit_eq
      exact .ofJump ((h₂.trans h₃).trans h₄) hopen₄ fun b => by
        simp [Draft.outlets, Stmt.leaves_cons, hexit_eq]
  | .raise value =>
      rw [Stmt.lower, Stmt.occurrences, Stmt.ways]
      refine (value.lower_makes p d).bind ?_
      intro v d₁ hv
      refine (hv.emitNext (by simp [Operation.operands])).bind ?_
      intro _ d₂ hn
      obtain ⟨h₂, -, -⟩ := hn.spreads hs hopen h
      refine (endCurrent_spreads h₂.sound h₂.marked .stop (by simp [Terminator.targets])
        (by simp [Terminator.targets]) (by simp [Terminator.targets])).bind ?_
      intro _ d₃ h₃
      refine (moveToNew_spreads h₃.sound h₃.marked).mono ?_
      rintro - d₄ ⟨h₄, hopen₄⟩
      exact .ofJump ((h₂.trans h₃).trans h₄) hopen₄ fun b => by
        simp [Draft.outlets, Stmt.leaves_cons, Terminator.targets]
  | .check condition detail =>
      rw [Stmt.lower, Stmt.occurrences, Stmt.ways]
      refine (condition.lower_makes p d).bind ?_
      intro c d₁ hc
      refine (Expr.lowerOption_makes p detail d₁).bind ?_
      intro n d₂ hn
      refine ((hc.append hn).emitNext (by simp [Operation.operands])).bind ?_
      intro _ d₃ ha
      obtain ⟨h₃, hopen₃, -⟩ := ha.spreads hs hopen h
      exact .afterNodes (by simp) h₃ (.nil h₃.sound hopen₃ h₃.marked)
  | .locked lock body =>
      rw [Stmt.lower, Stmt.occurrences, Stmt.ways]
      refine (lock.lower_makes p d).bind ?_
      intro l d₁ hl
      refine (hl.emitNext (by simp [Operation.operands])).bind ?_
      intro _ d₂ hn
      obtain ⟨h₂, hopen₂, -⟩ := hn.spreads hs hopen h
      refine (Stmt.lowerBody_flows p body h₂.sound hopen₂ h₂.marked (h₂.lands hs hland)
        hjumps).mono ?_
      intro _ d₃ h₃
      exact .afterNodes (by simp) h₂ h₃
  | .block body =>
      rw [Stmt.lower, Stmt.occurrences, Stmt.ways]
      have hmarks : marks = marks ++ List.replicate (Stmt.ownNodes p (.block body)) live := by
        simp [Stmt.ownNodes]
      have hrefl := Spreads.refl hs h
      rw [hmarks] at h hrefl
      refine (Stmt.lowerBody_flows p body hs hopen h hland hjumps).mono ?_
      intro _ d₁ h₁
      exact .afterNodes (by simp) hrefl h₁
  | .exitLoop =>
      rw [Stmt.lower, Stmt.occurrences, Stmt.ways]
      obtain ⟨t, rest, hloops⟩ := List.exists_cons_of_ne_nil (hland.inside hjumps)
      have hmem : t ∈ d.loops := by simp [hloops]
      refine (jumpOut_spreads hs h hloops (hs.loops_lt hmem).2
        (Or.inl (hland.done_mem hmem))).mono ?_
      rintro - d₁ ⟨h₁, hopen₁⟩
      refine .ofJump (by simpa [Stmt.ownNodes] using h₁) hopen₁ fun b => ?_
      simp [Draft.outlets, Stmt.leaves_cons, hloops]
  | .nextRound =>
      rw [Stmt.lower, Stmt.occurrences, Stmt.ways]
      obtain ⟨t, rest, hloops, hnext⟩ := hland.next hjumps
      have hmem : t ∈ d.loops := by simp [hloops]
      refine (jumpOut_spreads hs h hloops (hs.loops_lt hmem).1 (Or.inr hnext)).mono ?_
      rintro - d₁ ⟨h₁, hopen₁⟩
      have hkept : Spreads ∅ d R d₁ R false marks := by
        refine h₁.absorb ?_
        rintro b ⟨hlive, rfl⟩
        exact hnext hlive
      refine .ofJump (by simpa [Stmt.ownNodes] using hkept) hopen₁ fun b => ?_
      simp [Draft.outlets, Stmt.leaves_cons]

theorem Stmt.lowerBody_flows (p : Program) (body : List Stmt) {R : List BlockId}
    {inChoice inLoop live : Bool} {marks : List Bool} {d : Draft} (hs : Stage.Sound ⟨d, R⟩)
    (hopen : d.IsOpen) (h : d.Marked R live marks) (hland : d.Lands R inChoice inLoop live)
    (hjumps : Stmt.jumpsLandIn inChoice inLoop body = true) :
    Ensures d (Stmt.lowerBody p body) fun _ d' =>
      Flows p d R live marks (Stmt.occurrencesIn live body) (Stmt.waysIn body) d' := by
  match body with
  | [] =>
      rw [Stmt.lowerBody, Stmt.occurrencesIn, Stmt.waysIn]
      exact .nil hs hopen h
  | s :: rest =>
      rw [Stmt.jumpsLandIn, Bool.and_eq_true] at hjumps
      rw [Stmt.lowerBody, Stmt.occurrencesIn, Stmt.waysIn]
      refine (Stmt.lower_flows p s hs hopen h hland hjumps.1).bind ?_
      intro _ d₁ h₁
      have hland₁ := (h₁.lands hs hland).andThen s.ways.completes
      refine (Stmt.lowerBody_flows p rest h₁.sound h₁.isOpen h₁.marked hland₁ hjumps.2).mono ?_
      intro _ d₂ h₂
      exact h₁.andThen h₂

theorem Stmt.lowerOption_flows (p : Program) (body : Option (List Stmt)) {R : List BlockId}
    {inChoice inLoop live : Bool} {marks : List Bool} {d : Draft} (hs : Stage.Sound ⟨d, R⟩)
    (hopen : d.IsOpen) (h : d.Marked R live marks) (hland : d.Lands R inChoice inLoop live)
    (hjumps : Stmt.jumpsLandInOption inChoice inLoop body = true) :
    Ensures d (Stmt.lowerOption p body) fun _ d' =>
      Flows p d R live marks (Stmt.occurrencesInOption live body) (Stmt.waysInOption body) d' := by
  match body with
  | none =>
      rw [Stmt.lowerOption, Stmt.occurrencesInOption, Stmt.waysInOption]
      exact .nil hs hopen h
  | some body =>
      rw [Stmt.jumpsLandInOption] at hjumps
      rw [Stmt.lowerOption, Stmt.occurrencesInOption, Stmt.waysInOption]
      exact Stmt.lowerBody_flows p body hs hopen h hland hjumps

/-- Control comes to the bodies of all cases of a choice that it comes to, so a body that it goes on
to after another one is no news. -/
theorem Case.lowerBodies_spreads (p : Program) {done : BlockId} (cases : List Case)
    (bs rest : List BlockId) {R : List BlockId} {inLoop live atStart : Bool} {marks : List Bool}
    {d : Draft} (hs : Stage.Sound ⟨d, bs ++ (rest ++ done :: R)⟩)
    (hlength : bs.length = cases.length) (h : d.Marked (bs ++ (rest ++ done :: R)) atStart marks)
    (hland : d.Lands (done :: R) true inLoop live)
    (hjumps : Case.jumpsLandIn true inLoop cases = true)
    (hbs : ∀ b ∈ bs ++ rest, d.graph.Reachable b ↔ live = true)
    (hdone : rest = [] → live = true → d.graph.Reachable done) :
    Ensures d (Case.lowerBodies p done cases (bs ++ rest)) fun _ d' => ∃ atEnd,
      Spreads (d.outlets (Stmt.Leaves (Case.occurrencesIn live cases))
          (live = true ∧ Case.exitsIn cases = true))
        d (bs ++ (rest ++ done :: R)) d' (rest ++ done :: R) atEnd
        (marks ++ Stmt.nodeMarks p (Case.occurrencesIn live cases)) := by
  match cases, bs with
  | [], [] =>
      simp only [Case.lowerBodies, Case.occurrencesIn, Case.exitsIn]
      rw [Draft.outlets_eq_empty (by simp) (by simp), Stmt.nodeMarks_nil, List.append_nil]
      exact ⟨atStart, .refl hs h⟩
  | .mk label body :: cases, b :: bs =>
      rw [Case.jumpsLandIn, Bool.and_eq_true] at hjumps
      rw [List.cons_append, Case.lowerBodies, Case.occurrencesIn, Case.exitsIn]
      refine (moveTo_spreads hs h (hbs b List.mem_cons_self)).bind ?_
      rintro - d₁ ⟨h₁, hopen₁, -⟩
      have hland₁ := h₁.lands hs hland
      refine (Stmt.lowerBody_flows p body h₁.sound hopen₁ h₁.marked
        (hland₁.of_subset fun c hc => by simp [hc]) hjumps.1).bind ?_
      intro _ d₂ h₂
      have hbody := h₁.trans h₂.toSpreads
      have hlt : ∀ {c}, c ∈ bs ++ (rest ++ done :: R) → c < d.graph.nextBlock :=
        fun hc => hs.reserved_lt (List.mem_cons_of_mem b hc)
      have hmem : ∀ {c}, c ∈ bs ++ rest → c ∈ bs ++ (rest ++ done :: R) := by
        intro c hc
        rw [← List.append_assoc]
        exact List.mem_append_left _ hc
      have hbs₂ : ∀ c ∈ bs ++ rest, d₂.graph.Reachable c ↔ live = true := by
        intro c hc
        have hnodup : ((b :: bs ++ rest) ++ done :: R).Nodup := by simpa using hs.reserved_nodup
        have hcR : c ∉ done :: R := fun hmem =>
          (List.nodup_append.1 hnodup).2.2 c (List.mem_cons_of_mem b hc) c hmem rfl
        rw [hbody.reachable_iff (hlt (hmem hc)), hbs c (List.mem_cons_of_mem b hc)]
        simp [hland₁.notMem_outlets hcR]
      have hnext : live = true → d₂.graph.Reachable ((bs ++ rest).headD done) := by
        intro hlive
        cases hblocks : bs ++ rest with
        | nil =>
            have hrest := (List.append_eq_nil_iff.1 hblocks).2
            exact hbody.reachable (hlt (by simp)) (hdone hrest hlive)
        | cons c _ => exact (hbs₂ c (by simp [hblocks])).2 hlive
      have htarget : (bs ++ rest).headD done ∈ bs ++ (rest ++ done :: R) := by
        cases bs <;> cases rest <;> simp
      refine (jumpIfOpen_spreads h₂.sound h₂.isOpen h₂.marked (h₂.sound.reserved_lt htarget)
        (Or.inl htarget)).bind ?_
      intro _ d₃ h₃
      replace h₃ := h₃.absorb fun c hc => hc.2 ▸ hnext (Bool.and_eq_true_iff.1 hc.1).1
      have hfirst := hbody.trans h₃
      have hbs₃ : ∀ c ∈ bs ++ rest, d₃.graph.Reachable c ↔ live = true := by
        intro c hc
        rw [h₃.reachable_iff_of_notMem (h₂.sound.reserved_lt (hmem hc)) (Set.notMem_empty c),
          hbs₂ c hc]
      obtain ⟨atEnd, h₄⟩ := Case.lowerBodies_spreads p cases bs rest h₃.sound
        (by simpa using hlength) h₃.marked (hfirst.lands hs hland) hjumps.2 hbs₃
        fun hrest hlive => hfirst.reachable (hlt (by simp)) (hdone hrest hlive)
      refine ⟨atEnd, ?_⟩
      rw [Stmt.nodeMarks_append, ← List.append_assoc marks]
      refine (hfirst.trans h₄).congr fun c _ _ => ?_
      simp [h₁.toPasses.outlets_eq, hfirst.toPasses.outlets_eq, Draft.mem_outlets_or, and_or_left]

theorem Stmt.lowerDefault_spreads (p : Program) {done : BlockId} (default : Option (List Stmt))
    (bs : List BlockId) {R : List BlockId} {inLoop live atStart : Bool} {marks : List Bool}
    {d : Draft} (hs : Stage.Sound ⟨d, bs ++ done :: R⟩)
    (hlength : bs.length = default.toList.length) (h : d.Marked (bs ++ done :: R) atStart marks)
    (hland : d.Lands (done :: R) true inLoop live)
    (hjumps : Stmt.jumpsLandInOption true inLoop default = true)
    (hbs : ∀ b ∈ bs, d.graph.Reachable b ↔ live = true) :
    Ensures d (Stmt.lowerDefault p done default bs) fun _ d' => ∃ atEnd,
      Spreads (d.outlets (Stmt.Leaves (Stmt.occurrencesInOption live default))
            (live = true ∧ (Stmt.waysInOption default).exits = true) ∪
          {b | default.isSome ∧ (live && (Stmt.waysInOption default).completes) = true ∧ b = done})
        d (bs ++ done :: R) d' (done :: R) atEnd
        (marks ++ Stmt.nodeMarks p (Stmt.occurrencesInOption live default)) := by
  match default, bs with
  | none, [] =>
      simp only [Stmt.lowerDefault, Stmt.occurrencesInOption, Stmt.waysInOption]
      rw [Draft.outlets_eq_empty (by simp) (by simp), Stmt.nodeMarks_nil, List.append_nil]
      exact ⟨atStart, (Spreads.refl hs h).congr (by simp)⟩
  | some body, [b] =>
      rw [Stmt.jumpsLandInOption] at hjumps
      rw [Stmt.lowerDefault, Stmt.occurrencesInOption, Stmt.waysInOption]
      refine (moveTo_spreads hs h (hbs b List.mem_cons_self)).bind ?_
      rintro - d₁ ⟨h₁, hopen₁, -⟩
      refine (Stmt.lowerBody_flows p body h₁.sound hopen₁ h₁.marked (h₁.lands hs hland)
        hjumps).bind ?_
      intro _ d₂ h₂
      refine (jumpIfOpen_spreads h₂.sound h₂.isOpen h₂.marked
        (h₂.sound.reserved_lt List.mem_cons_self) (Or.inl List.mem_cons_self)).mono ?_
      intro _ d₃ h₃
      refine ⟨_, ((h₁.trans h₂.toSpreads).trans h₃).congr fun c _ _ => ?_⟩
      simp [h₁.toPasses.outlets_eq]

end

namespace Procedure

theorem sound_startDraft_exit (proc : Procedure) :
    Stage.Sound ⟨proc.startDraft, [proc.startDraft.graph.exit]⟩ :=
  { proc.sound_startDraft with
    reserved_nodup := List.nodup_singleton _
    reserved_ne := by
      intro b hb
      rw [List.mem_singleton.1 hb]
      exact Nat.one_ne_zero
    reserved_open := by
      intro b hb
      rw [List.mem_singleton.1 hb]
      exact ⟨.fresh 1, rfl, rfl⟩ }

theorem marked_startDraft (proc : Procedure) :
    proc.startDraft.Marked [proc.startDraft.graph.exit] true [] where
  blank hb := by
    rw [List.mem_singleton.1 hb]
    rfl
  housed hn := by simp [Graph.node?, startDraft, Graph.start] at hn
  current_iff := ⟨fun _ => rfl, fun _ => .entry⟩
  length_eq := rfl
  marked_iff hn := by simp [Graph.node?, startDraft, Graph.start] at hn

theorem lands_startDraft (proc : Procedure) :
    proc.startDraft.Lands [proc.startDraft.graph.exit] false false true :=
  ⟨List.mem_singleton_self _, (by cases ·), (by cases ·), (by cases ·)⟩

theorem not_reachable_exit_startDraft (proc : Procedure) :
    ¬ proc.startDraft.graph.Reachable proc.startDraft.graph.exit := by
  rintro (_ | ⟨_, hedge⟩)
  obtain ⟨block, hblock, hmem⟩ := Graph.mem_succs_iff.1 hedge
  rw [(block?_startDraft hblock).2] at hmem
  cases hmem

/-- In the graph of a procedure control comes to exactly the nodes of live statements, and to the
exit if it can come to the end of the body or to a `leave`. -/
theorem reachable_lower (p : Program) {proc : Procedure} (hjumps : proc.JumpsLand) :
    (Stmt.nodeMarks p (Stmt.occurrencesIn true proc.body)).length = (proc.lower p).nextNode ∧
    (∀ n node, (proc.lower p).node? n = some node → ((proc.lower p).Reachable node.block ↔
      (Stmt.nodeMarks p (Stmt.occurrencesIn true proc.body))[n]? = some true)) ∧
    ((proc.lower p).Reachable (proc.lower p).exit ↔
      (Stmt.waysIn proc.body).completes = true ∨
        Stmt.Leaves (Stmt.occurrencesIn true proc.body)) := by
  have hland := proc.lands_startDraft
  have hbody := Stmt.lowerBody_flows p proc.body proc.sound_startDraft_exit ⟨.fresh 0, rfl, rfl⟩
    proc.marked_startDraft hland hjumps
  have hfinish := finish_spreads hbody.sound hbody.isOpen hbody.marked
    (hbody.lands proc.sound_startDraft_exit hland).exit_mem
  have hall := hbody.toSpreads.trans hfinish
  have hmarked := hall.marked
  refine ⟨hmarked.length_eq, fun n node hn => hmarked.marked_iff hn, ?_⟩
  have hexit : (proc.lower p).exit = proc.startDraft.graph.exit := hall.run.extends.exit_eq
  have hiff := hall.reachable_iff proc.sound_startDraft.exit_lt
  have hloops : proc.startDraft.loops = [] := rfl
  have hbody_exit : (Stmt.lowerBody p proc.body proc.startDraft).2.graph.exit =
      proc.startDraft.graph.exit :=
    hbody.run.extends.exit_eq
  rw [hexit]
  refine hiff.trans ?_
  simp [proc.not_reachable_exit_startDraft, Draft.outlets, hloops, hbody_exit, or_comm]

end Procedure

end Disclosure
