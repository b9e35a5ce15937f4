import Disclosure.Proofs.Analysis.Invariant
import Disclosure.Proofs.Analysis.Replay

/-!
# What is found at a node, from what is found at others

The second pass goes through the blocks in order.  In the graph of a procedure all that a node reads
was gone through when the pass comes to it, so the classes that the node reads are those that the
outcome gives in the end.  Hence an outcome explains itself: what is found at a node is its effect
on the memory before it, with the classes that the outcome gives to values (`Scope.finding_eq`).

This needs no completed analysis, and nothing is said of how memories come into blocks.
-/

namespace Disclosure

namespace Outcome

def values (o : Outcome) : Values where
  entries := o.findings.entries.map fun e => (e.1, e.2.value)
  nodup_keys := by simpa [Function.comp_def] using o.findings.nodup_keys

theorem read_values (o : Outcome) (n : NodeId) : o.values.read n = o.valueOf n := by
  have hlookup : o.values.get? n = (o.findings.get? n).map Finding.value :=
    Table.lookup_map_snd n (fun _ (f : Finding) => f.value) o.findings.entries
  rw [Values.read, hlookup, valueOf]
  cases o.findings.get? n <;> rfl

theorem exists_after_of_isReached {o : Outcome} {n : NodeId} (h : o.isReached n = true) :
    ∃ m, o.after? n = some m := by
  obtain ⟨f, hf⟩ := Table.contains_iff_exists.1 h
  exact ⟨f.after, congrArg (Option.map Finding.after) hf⟩

/-- The memory before a node: after the one before it in its block, or on entry to the block. -/
def before? (o : Outcome) (g : Graph) (n : NodeId) : Option Memory :=
  match g.node? n with
  | none => none
  | some node =>
      match (g.block? node.block).bind fun block => (block.nodes.takeWhile (· ≠ n)).getLast? with
      | some previous => o.after? previous
      | none => o.atEntry? node.block

end Outcome

/-- What is kept of values is what was recorded last. -/
def Replay.Recorded (r : Replay) : Prop :=
  ∀ {n f}, r.findings.get? n = some f → r.values.read n = f.value

namespace Graph

variable {g : Graph}

/-- None of the nodes of a block between two others writes the location. -/
def Unwritten (g : Graph) (b : BlockId) (l : Location) (a n : NodeId) : Prop :=
  ∀ k node, a < k → k < n → g.node? k = some node → node.block = b → l ∉ g.writtenBy node

/-- What the second pass relies on: blocks list all nodes, edges are listed on both sides, and what
a node takes its operands from comes before it. -/
structure Replayable (g : Graph) : Prop where
  wellListed : g.WellListed
  fullyListed : g.FullyListed
  mirrored : g.Mirrored
  operandsVisited : g.OperandsVisited

theorem FullyListed.ids_of_split (h : g.FullyListed) (hg : g.WellListed) {b : BlockId}
    {block : Block} (hblock : g.block? b = some block) {pre post : List Node} {node : Node}
    (hnodes : g.nodesOf block = pre ++ node :: post) :
    (∀ k ∈ pre, k.id < node.id) ∧ ∀ k ∈ post, node.id < k.id := by
  have hincreasing := h.increasing hblock
  rw [← hg.map_id_nodesOf hblock, hnodes, List.map_append, List.map_cons] at hincreasing
  obtain ⟨-, htail, hacross⟩ := List.pairwise_append.1 hincreasing
  constructor
  · intro k hk
    exact hacross k.id (List.mem_map_of_mem hk) node.id List.mem_cons_self
  · intro k hk
    exact (List.pairwise_cons.1 htail).1 k.id (List.mem_map_of_mem hk)

theorem FullyListed.exists_split (h : g.FullyListed) (hg : g.WellListed) {a n : NodeId}
    {anode node : Node} (ha : g.node? a = some anode) (hn : g.node? n = some node)
    (hsame : anode.block = node.block) (hlt : a < n) :
    ∃ block pre mid post, g.block? node.block = some block ∧ n ∈ block.nodes ∧
      g.nodesOf block = pre ++ anode :: (mid ++ node :: post) ∧
      ∀ k ∈ mid, a < k.id ∧ k.id < n := by
  obtain ⟨block, hblock, hmem⟩ := h.listed_own hn
  obtain ⟨ablock, hablock, hamem⟩ := h.listed_own ha
  cases (hsame ▸ hablock).symm.trans hblock
  obtain ⟨pre, rest, hsplit⟩ : ∃ pre rest, g.nodesOf block = pre ++ anode :: rest :=
    List.append_of_mem (List.mem_filterMap.2 ⟨a, hamem, ha⟩)
  obtain ⟨hearlier, hlater⟩ := h.ids_of_split hg hblock hsplit
  rw [hg.id_eq ha] at hearlier hlater
  have hrest : node ∈ rest := by
    have hnode : node ∈ pre ++ anode :: rest := hsplit ▸ List.mem_filterMap.2 ⟨n, hmem, hn⟩
    cases List.mem_append.1 hnode with
    | inl hpre => exact absurd (hg.id_eq hn ▸ hearlier node hpre) (Nat.lt_asymm hlt)
    | inr htail =>
        cases htail with
        | head => exact absurd (hg.id_eq hn ▸ hg.id_eq ha) (Nat.ne_of_lt hlt).symm
        | tail _ hrest => exact hrest
  obtain ⟨mid, post, rfl⟩ := List.append_of_mem hrest
  refine ⟨block, pre, mid, post, hblock, hmem, hsplit, fun k hk => ⟨?_, ?_⟩⟩
  · exact hlater k (List.mem_append_left _ hk)
  · rw [List.append_cons, ← List.append_assoc] at hsplit
    exact hg.id_eq hn ▸ (h.ids_of_split hg hblock hsplit).1 k (List.mem_append_right _ hk)

end Graph

theorem Procedure.replayable_lower (p : Program) (proc : Procedure) :
    (proc.lower p).Replayable where
  wellListed := (proc.built_lower p).wellListed
  fullyListed := proc.fullyListed_lower p
  mirrored := (proc.linked_lower p).mirrored
  operandsVisited := proc.operandsVisited_lower p

namespace Scope

variable {sc : Scope} {g : Graph} {entries : Table BlockId Memory} {b : BlockId} {block : Block}

theorem read_memory_visitNodes (sc : Scope) {nodes : List Node} {l : Location} {pt : Point}
    (h : ∀ node ∈ nodes, l ∉ g.writtenBy node) :
    (nodes.foldl (sc.visitNode g) pt).memory.read l = pt.memory.read l := by
  induction nodes generalizing pt with
  | nil => rfl
  | cons node rest ih =>
      have hkeys : l ∉ (g.updatesOf pt.values node.op).map Prod.fst := by
        rw [Graph.map_fst_updatesOf]
        exact h node List.mem_cons_self
      rw [List.foldl_cons, ih fun node' hnode' => h node' (List.mem_cons_of_mem _ hnode'),
        visitNode, Graph.execute_eq_insertAll, Memory.read, Table.get?_insertAll_of_notMem hkeys,
        Memory.read]

theorem recorded_replayNodes {r : Replay} (h : r.Recorded) (nodes : List Node) (m : Memory) :
    (nodes.foldl (sc.replayNode g) (r, m)).1.Recorded := by
  induction nodes generalizing r m with
  | nil => exact h
  | cons node rest ih =>
      rw [List.foldl_cons, replayNode]
      apply ih
      intro n f hf
      simp only [Table.get?_insert] at hf
      split at hf
      · rename_i hn
        cases hf
        rw [hn]
      · rename_i hn
        simp only [visitNode]
        rw [Values.read_insert, if_neg hn]
        exact h hf

theorem recorded_replayBlocks {r : Replay} (h : r.Recorded) (bs : List BlockId) :
    (bs.foldl (sc.replayBlock g entries) r).Recorded := by
  induction bs generalizing r with
  | nil => exact h
  | cons b rest ih =>
      rw [List.foldl_cons]
      apply ih
      unfold replayBlock
      split
      · exact recorded_replayNodes h _ _
      · exact h

theorem foldl_replayBlock_findings_of_none (hg : g.WellListed) (hblock : g.block? b = some block)
    {n : NodeId} (hn : n ∈ block.nodes) (hentry : entries.get? b = none) (bs : List BlockId)
    (r : Replay) :
    (bs.foldl (sc.replayBlock g entries) r).findings.get? n = r.findings.get? n := by
  refine foldl_replayBlock_findings_of_unlisted hg (fun c _ _ m hcblock hm hn' => ?_) r
  rw [← hg.block_unique hblock hcblock hn hn', hentry] at hm
  cases hm

/-- What the second pass knows when it has gone through some blocks. -/
def replayed (sc : Scope) (g : Graph) (bound : Nat) (bs : List BlockId) : Replay :=
  bs.foldl (sc.replayBlock g ((sc.dataflow g).solve g bound ∅).before)
    ⟨((sc.dataflow g).solve g bound ∅).state, ∅⟩

variable {bound : Nat} {n : NodeId} {m : Memory}

theorem recorded_replayed (bs : List BlockId) : (sc.replayed g bound bs).Recorded :=
  recorded_replayBlocks (fun hf => by cases hf) bs

theorem exists_entry_of_place_lt (hmirrored : g.Mirrored)
    (hm : Outcome.atEntry? (sc.analyze g bound) b = some m) {c : BlockId} {own : Block}
    (hlt : g.place c < g.place b) (hown : g.block? c = some own) :
    ∃ m', Outcome.atEntry? (sc.analyze g bound) c = some m' := by
  have hcontains : ∀ b, ((sc.dataflow g).solve g bound ∅).before.contains b =
      ((sc.dataflow g).solve g bound ∅).after.contains b :=
    Dataflow.contains_before_solve (sc.steady_dataflow g) hmirrored
  have hafter : ((sc.dataflow g).solve g bound ∅).after.contains b = true := by
    rw [← hcontains]
    exact Table.contains_iff_exists.2 ⟨m, hm⟩
  have hearlier :=
    Dataflow.contains_after_of_place_lt (sc.steady_dataflow g) hmirrored hafter hlt hown
  rw [← hcontains] at hearlier
  exact Table.contains_iff_exists.1 hearlier

section Listed

variable (hg : g.WellListed)

include hg

theorem entry_of_isReached (hblock : g.block? b = some block) (hn : n ∈ block.nodes)
    (hreached : (sc.analyze g bound).isReached n = true) :
    g.Reachable b ∧ ∃ m, Outcome.atEntry? (sc.analyze g bound) b = some m := by
  have hfinding : (sc.analyze g bound).findings.get? n ≠ none := by
    intro hnone
    simp [Outcome.isReached, Table.contains, hnone] at hreached
  constructor
  · by_contra hnot
    exact hfinding
      (foldl_replayBlock_findings_of_not_mem hg hblock hn (mt Graph.mem_order_iff.1 hnot) _)
  · cases hm : Outcome.atEntry? (sc.analyze g bound) b with
    | none => exact absurd (foldl_replayBlock_findings_of_none hg hblock hn hm g.order _) hfinding
    | some m => exact ⟨m, rfl⟩

/-- What is kept of a block does not change after the second pass has gone through it. -/
theorem findings_eq_replayed {done rest : List BlockId} (horder : g.order = done ++ rest)
    (hblock : g.block? b = some block) (hn : n ∈ block.nodes) (hb : b ∉ rest) :
    (sc.analyze g bound).findings.get? n = (sc.replayed g bound done).findings.get? n := by
  have hsplit : (sc.analyze g bound).findings = (rest.foldl (sc.replayBlock g
      ((sc.dataflow g).solve g bound ∅).before) (sc.replayed g bound done)).findings := by
    simp only [analyze, horder, List.foldl_append]
    rfl
  rw [hsplit]
  exact foldl_replayBlock_findings_of_not_mem hg hblock hn hb _

/-- What is kept of a node is the point after it in a run of its block, from the classes that were
recorded when the second pass came to the block. -/
theorem findings_eq_run {done rest : List BlockId} (horder : g.order = done ++ b :: rest)
    (hblock : g.block? b = some block) (hm : Outcome.atEntry? (sc.analyze g bound) b = some m)
    {pre post : List Node} {node : Node} (hnodes : g.nodesOf block = pre ++ node :: post) :
    (sc.analyze g bound).findings.get? node.id =
      some ⟨((pre ++ [node]).foldl (sc.visitNode g)
          ⟨(sc.replayed g bound done).values, m⟩).values.read node.id,
        ((pre ++ [node]).foldl (sc.visitNode g)
          ⟨(sc.replayed g bound done).values, m⟩).memory⟩ := by
  have hids := hg.map_id_nodesOf hblock
  have hnode : node.id ∈ block.nodes := by
    rw [← hids, hnodes]
    simp
  have hdistinct := hg.nodup hblock
  rw [← hids, hnodes] at hdistinct
  have hnodup := g.nodup_order
  rw [horder] at hnodup
  have hlater : b ∉ rest := (List.nodup_cons.1 (List.nodup_append.1 hnodup).2.1).1
  rw [List.append_cons] at horder
  have hentry : ((sc.dataflow g).solve g bound ∅).before.get? b = some m := hm
  rw [findings_eq_replayed hg horder hblock hnode hlater, replayed, List.foldl_append]
  simp only [List.foldl_cons, List.foldl_nil, replayBlock, hblock, hentry, hnodes]
  exact foldl_replayNode_findings hdistinct _ m

theorem before?_eq_run {done rest : List BlockId} (horder : g.order = done ++ b :: rest)
    (hblock : g.block? b = some block) (hm : Outcome.atEntry? (sc.analyze g bound) b = some m)
    {pre post : List Node} {node : Node} (hnodes : g.nodesOf block = pre ++ node :: post) :
    (sc.analyze g bound).before? g node.id =
      some (pre.foldl (sc.visitNode g) ⟨(sc.replayed g bound done).values, m⟩).memory := by
  have hids := hg.map_id_nodesOf hblock
  have hmem : node ∈ g.nodesOf block := by simp [hnodes]
  have hown : node.block = b := hg.block_of_mem_nodesOf hblock hmem
  have hdistinct := hg.nodup hblock
  rw [← hids, hnodes, List.map_append, List.map_cons] at hdistinct
  have hfirst : ∀ n ∈ pre.map Node.id, decide (n ≠ node.id) = true := by
    intro n hn
    exact decide_eq_true ((List.nodup_append.1 hdistinct).2.2 n hn node.id List.mem_cons_self)
  have hearlier : block.nodes.takeWhile (· ≠ node.id) = pre.map Node.id := by
    rw [← hids, hnodes, List.map_append, List.map_cons, List.takeWhile_append_of_pos hfirst]
    simp
  simp only [Outcome.before?, hg.node?_of_mem_nodesOf hmem, hown, hblock, Option.bind_some,
    hearlier]
  cases List.eq_nil_or_concat pre with
  | inl hnil =>
      subst hnil
      exact hm
  | inr hlast =>
      obtain ⟨front, last, rfl⟩ := hlast
      rw [List.concat_eq_append, List.append_assoc] at hnodes
      rw [List.concat_eq_append, List.map_append, List.map_singleton, List.getLast?_concat]
      simp only [Outcome.after?, findings_eq_run hg horder hblock hm hnodes, Option.map_some]

theorem isReached_of_entry (hblock : g.block? b = some block) (hreach : g.Reachable b)
    (hm : Outcome.atEntry? (sc.analyze g bound) b = some m) {node : Node}
    (hn : n ∈ block.nodes) (hnode : g.node? n = some node) :
    (sc.analyze g bound).isReached n = true := by
  obtain ⟨done, rest, horder⟩ := List.append_of_mem (Graph.mem_order_iff.2 hreach)
  obtain ⟨pre, post, hnodes⟩ : ∃ pre post, g.nodesOf block = pre ++ node :: post :=
    List.append_of_mem (List.mem_filterMap.2 ⟨n, hn, hnode⟩)
  rw [Outcome.isReached, ← hg.id_eq hnode]
  exact Table.contains_iff_exists.2 ⟨_, findings_eq_run hg horder hblock hm hnodes⟩

theorem exists_run_between (hblock : g.block? b = some block)
    (hm : Outcome.atEntry? (sc.analyze g bound) b = some m) (hreach : g.Reachable b)
    {pre mid post : List Node} {first last : Node}
    (hnodes : g.nodesOf block = pre ++ first :: (mid ++ last :: post)) :
    ∃ pt : Point, (sc.analyze g bound).after? first.id = some pt.memory ∧
      (sc.analyze g bound).before? g last.id = some (mid.foldl (sc.visitNode g) pt).memory := by
  obtain ⟨done, later, horder⟩ := List.append_of_mem (Graph.mem_order_iff.2 hreach)
  refine ⟨(pre ++ [first]).foldl (sc.visitNode g) ⟨(sc.replayed g bound done).values, m⟩, ?_, ?_⟩
  · rw [Outcome.after?, findings_eq_run hg horder hblock hm hnodes, Option.map_some]
  · rw [List.append_cons, ← List.append_assoc] at hnodes
    rw [before?_eq_run hg horder hblock hm hnodes, List.foldl_append]

end Listed

section Replayed

variable (h : g.Replayable)

include h

theorem exists_place_of_isReached {node : Node} (hnode : g.node? n = some node)
    (hreached : (sc.analyze g bound).isReached n = true) :
    ∃ block m done rest pre post, g.block? node.block = some block ∧
      Outcome.atEntry? (sc.analyze g bound) node.block = some m ∧
      g.order = done ++ node.block :: rest ∧ g.nodesOf block = pre ++ node :: post := by
  obtain ⟨block, hblock, hmem⟩ := h.fullyListed.listed_own hnode
  obtain ⟨hreach, m, hm⟩ := entry_of_isReached h.wellListed hblock hmem hreached
  obtain ⟨done, rest, horder⟩ := List.append_of_mem (Graph.mem_order_iff.2 hreach)
  obtain ⟨pre, post, hnodes⟩ : ∃ pre post, g.nodesOf block = pre ++ node :: post :=
    List.append_of_mem (List.mem_filterMap.2 ⟨n, hmem, hnode⟩)
  exact ⟨block, m, done, rest, pre, post, hblock, hm, horder, hnodes⟩

theorem read_before?_of_unwritten {l : Location} {k : NodeId} {knode node : Node} {after : Memory}
    (hk : g.node? k = some knode) (hnode : g.node? n = some node) (hsame : knode.block = node.block)
    (hlt : k < n) (hl : g.Unwritten node.block l k n)
    (hreached : (sc.analyze g bound).isReached n = true)
    (hafter : (sc.analyze g bound).after? k = some after)
    (hbefore : (sc.analyze g bound).before? g n = some m) : m.read l = after.read l := by
  obtain ⟨block, pre, mid, post, hblock, hmem, hnodes, hmid⟩ :=
    h.fullyListed.exists_split h.wellListed hk hnode hsame hlt
  obtain ⟨hreach, entry, hentry⟩ := entry_of_isReached h.wellListed hblock hmem hreached
  obtain ⟨pt, hfirst, hlast⟩ := exists_run_between h.wellListed hblock hentry hreach hnodes
  rw [h.wellListed.id_eq hk, hafter] at hfirst
  rw [h.wellListed.id_eq hnode, hbefore] at hlast
  cases hfirst
  cases hlast
  apply sc.read_memory_visitNodes
  intro node' hnode'
  have hlists : node' ∈ g.nodesOf block := by simp [hnodes, hnode']
  exact hl node'.id node' (hmid node' hnode').1 (hmid node' hnode').2
    (h.wellListed.node?_of_mem_nodesOf hlists) (h.wellListed.block_of_mem_nodesOf hblock hlists)

/-- When the second pass comes to a block, the recorded classes of nodes in earlier blocks are those
that the outcome gives. -/
theorem read_replayed_eq_valueOf {done rest : List BlockId} (horder : g.order = done ++ b :: rest)
    (hm : Outcome.atEntry? (sc.analyze g bound) b = some m) (hn : g.IsBefore n b) :
    (sc.replayed g bound done).values.read n = (sc.analyze g bound).valueOf n := by
  obtain ⟨node, hnode, hlt⟩ := hn
  obtain ⟨own, hown, hmem⟩ := h.fullyListed.listed_own hnode
  have hnodup := g.nodup_order
  rw [horder] at hnodup
  have hb : b ∉ done := fun hmem => (List.nodup_append.1 hnodup).2.2 b hmem b List.mem_cons_self rfl
  have hdone : node.block ∈ done := by
    by_contra hnot
    simp only [Graph.place, horder, List.idxOf_append_of_notMem hnot,
      List.idxOf_append_of_notMem hb, List.idxOf_cons_self] at hlt
    exact absurd hlt (Nat.not_lt_of_le (Nat.le_add_right _ _))
  have hlater : node.block ∉ b :: rest := fun hnot =>
    (List.nodup_append.1 hnodup).2.2 _ hdone _ hnot rfl
  have hfinal : (sc.analyze g bound).findings.get? n =
      (sc.replayed g bound done).findings.get? n :=
    findings_eq_replayed h.wellListed horder hown hmem hlater
  obtain ⟨m', hm'⟩ := exists_entry_of_place_lt h.mirrored hm hlt hown
  obtain ⟨pre, post, hnodes⟩ := List.append_of_mem (List.mem_filterMap.2 ⟨n, hmem, hnode⟩)
  obtain ⟨v, hkept⟩ := exists_values_foldl_replayBlock h.wellListed hown hm' hdone
    ⟨((sc.dataflow g).solve g bound ∅).state, ∅⟩
  have hfound : (sc.replayed g bound done).findings.get? n = _ :=
    h.wellListed.id_eq hnode ▸ hkept pre node post hnodes
  rw [recorded_replayed done hfound, Outcome.valueOf, hfinal, hfound]

/-- When the second pass comes to a node, the recorded classes of all that the node reads are those
that the outcome gives. -/
theorem read_run_eq_valueOf {done rest : List BlockId} (horder : g.order = done ++ b :: rest)
    (hblock : g.block? b = some block) (hm : Outcome.atEntry? (sc.analyze g bound) b = some m)
    {pre post : List Node} {node : Node} (hnodes : g.nodesOf block = pre ++ node :: post)
    (hn : n ∈ g.readsOf node.op) :
    (pre.foldl (sc.visitNode g) ⟨(sc.replayed g bound done).values, m⟩).values.read n =
      (sc.analyze g bound).valueOf n := by
  have hreach : g.Reachable b := Graph.mem_order_iff.1 (by simp [horder])
  have hids := h.wellListed.map_id_nodesOf hblock
  have hdistinct := h.wellListed.nodup hblock
  rw [← hids, hnodes] at hdistinct
  cases h.operandsVisited.readsOf h.wellListed h.fullyListed hreach hblock hnodes hn with
  | inl hmem =>
      obtain ⟨earlier, hearlier, rfl⟩ := List.mem_map.1 hmem
      obtain ⟨front, between, rfl⟩ := List.append_of_mem hearlier
      rw [List.append_assoc, List.cons_append] at hnodes hdistinct
      have hbetween : earlier.id ∉ between.map Node.id := by
        rw [List.map_append, List.map_cons] at hdistinct
        intro hmem
        apply (List.nodup_cons.1 (List.nodup_append.1 hdistinct).2.1).1
        rw [List.map_append]
        exact List.mem_append_left _ hmem
      rw [Outcome.valueOf, findings_eq_run h.wellListed horder hblock hm hnodes, List.append_cons,
        List.foldl_append, sc.read_visitNodes_of_notMem hbetween]
  | inr hbefore =>
      have hoff : n ∉ pre.map Node.id := by
        intro hmem
        obtain ⟨node', hnode', hlt⟩ := hbefore
        have hlists : n ∈ block.nodes := by
          rw [← hids, hnodes, List.map_append]
          exact List.mem_append_left _ hmem
        obtain ⟨own, hown, hmem'⟩ := h.fullyListed.listed_own hnode'
        rw [h.wellListed.block_unique hown hblock hmem' hlists] at hlt
        exact Nat.lt_irrefl _ hlt
      rw [sc.read_visitNodes_of_notMem hoff]
      exact read_replayed_eq_valueOf h horder hm hbefore

theorem isReached_of_operand {node : Node} (hnode : g.node? n = some node)
    (hreached : (sc.analyze g bound).isReached n = true) {k : NodeId}
    (hk : k ∈ node.op.operands) :
    ∃ knode, g.node? k = some knode ∧ (sc.analyze g bound).isReached k = true := by
  obtain ⟨block, m, _, _, pre, post, hblock, hm, horder, hnodes⟩ :=
    exists_place_of_isReached h hnode hreached
  have hreach : g.Reachable node.block := Graph.mem_order_iff.1 (by simp [horder])
  cases h.operandsVisited _ block hreach hblock pre node post hnodes k hk with
  | inl hpre =>
      obtain ⟨knode, hknode, rfl⟩ := List.mem_map.1 hpre
      have hlists : knode ∈ g.nodesOf block := by simp [hnodes, hknode]
      have hkmem : knode.id ∈ block.nodes := by
        rw [← h.wellListed.map_id_nodesOf hblock]
        exact List.mem_map_of_mem hlists
      have hsome := h.wellListed.node?_of_mem_nodesOf hlists
      exact ⟨knode, hsome, isReached_of_entry h.wellListed hblock hreach hm hkmem hsome⟩
  | inr hbefore =>
      obtain ⟨knode, hknode, hlt⟩ := hbefore
      obtain ⟨own, hown, hkmem⟩ := h.fullyListed.listed_own hknode
      obtain ⟨m', hm'⟩ := exists_entry_of_place_lt h.mirrored hm hlt hown
      have hkreach := Graph.reachable_of_place_lt hlt
      exact ⟨knode, hknode, isReached_of_entry h.wellListed hown hkreach hm' hkmem hknode⟩

/-- What is found at a node is its effect on the memory before it, with the classes that the outcome
gives to values. -/
theorem finding_eq {node : Node} (hnode : g.node? n = some node)
    (hreached : (sc.analyze g bound).isReached n = true) :
    ∃ m, (sc.analyze g bound).before? g n = some m ∧
      (sc.analyze g bound).findings.get? n =
        some ⟨sc.evaluate m (sc.analyze g bound).values node.op,
          g.execute m (sc.analyze g bound).values node.op⟩ := by
  obtain ⟨block, m, done, rest, pre, post, hblock, hm, horder, hnodes⟩ :=
    exists_place_of_isReached h hnode hreached
  have hreads : ∀ k ∈ g.readsOf node.op,
      (pre.foldl (sc.visitNode g) ⟨(sc.replayed g bound done).values, m⟩).values.read k =
        (sc.analyze g bound).values.read k := by
    intro k hk
    rw [Outcome.read_values]
    exact read_run_eq_valueOf h horder hblock hm hnodes hk
  have hinputs := fun k hk => hreads k (List.mem_append_left _ hk)
  rw [← h.wellListed.id_eq hnode]
  refine ⟨_, before?_eq_run h.wellListed horder hblock hm hnodes, ?_⟩
  rw [findings_eq_run h.wellListed horder hblock hm hnodes, List.foldl_append, List.foldl_cons,
    List.foldl_nil, visitNode, Values.read_insert, if_pos rfl,
    agreement_eq.evaluate sc rfl hinputs, agreement_eq.execute rfl hreads]

end Replayed

end Scope

end Disclosure
