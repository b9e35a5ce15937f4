import Disclosure.Proofs.Analysis.Equations
import Disclosure.Proofs.Analysis.Findings
import Disclosure.Proofs.Lowering.WellFormed

/-!
# Operands that may be left out

When a conjunction or a disjunction is decided by its first operand, the second one is not
evaluated, and the detail of an assertion is not evaluated if the assertion holds.  The memory after
such a node should then be at least as strict as the one after the operand that decides.  It need
not be so: what may be left out is lowered in line, and an assignment in it replaces the class of a
location.

Within one block the class of a location is kept exactly if the last node that writes it in between
leaves a class as strict.  Through the blocks of conditionals it is kept if there is a way on which
every node that writes it does so.  Between the two nodes there is always a way through nodes that
were added between them, which are those of the operands that may be left out.
-/

namespace Disclosure

namespace Outcome

/-- If the node writes the location, the class after it is at least the given one. -/
def Upholds (o : Outcome) (g : Graph) (l : Location) (c : Sensitivity) (k : NodeId) : Prop :=
  ∀ node ∈ g.node? k, l ∈ g.writtenBy node → ∀ m ∈ o.after? k, c ≤ m.read l

instance (o : Outcome) (g : Graph) (l : Location) (c : Sensitivity) (k : NodeId) :
    Decidable (o.Upholds g l c k) :=
  inferInstanceAs (Decidable (∀ node ∈ g.node? k, l ∈ g.writtenBy node →
    ∀ m ∈ o.after? k, c ≤ m.read l))

end Outcome

namespace Graph

variable {g : Graph} {b : BlockId} {l : Location} {a n : NodeId}

/-- Control can come from one node to another, and the nodes on the way are as given. -/
def BridgeTo (g : Graph) (P : NodeId → Prop) (a n : NodeId) : Prop :=
  ∃ node, g.node? n = some node ∧ g.Bridge P a node.block ∧
    ∀ k knode, g.node? k = some knode → knode.block = node.block → a < k → k < n → P k

theorem execute_eq_of_decider? {op : Operation} (h : op.decider? = some a) (m : Memory)
    (v : Values) : g.execute m v op = m := by
  unfold Operation.decider? at h
  split at h
  · rfl
  · rfl
  · rfl
  · cases h

theorem unwritten_or_exists_last (g : Graph) (b : BlockId) (l : Location) (a n : NodeId) :
    g.Unwritten b l a n ∨ ∃ k node, a < k ∧ k < n ∧ g.node? k = some node ∧ node.block = b ∧
      l ∈ g.writtenBy node ∧ g.Unwritten b l k n := by
  -- the induction goes on from a node that writes to the next one
  induction hd : n - a using Nat.strong_induction_on generalizing a with
  | _ d ih =>
      by_cases hunwritten : g.Unwritten b l a n
      · exact Or.inl hunwritten
      · right
        simp only [Unwritten, not_forall, not_not] at hunwritten
        obtain ⟨k, node, hak, hkn, hnode, hblock, hwrites⟩ := hunwritten
        have hless : n - k < d := hd ▸ Nat.sub_lt_sub_left (Nat.lt_trans hak hkn) hak
        cases ih (n - k) hless k rfl with
        | inl hlast => exact ⟨k, node, hak, hkn, hnode, hblock, hwrites, hlast⟩
        | inr hnext =>
            obtain ⟨k', node', hkk', hlater⟩ := hnext
            exact ⟨k', node', Nat.lt_trans hak hkk', hlater⟩

end Graph

namespace Scope

variable {sc : Scope} {g : Graph} {bound : Nat} {l : Location} {c : Sensitivity}

theorem le_read_visitNodes (sc : Scope) {nodes : List Node} {pt : Point}
    (hstart : c ≤ pt.memory.read l)
    (hwrites : ∀ front node rest, nodes = front ++ node :: rest → l ∈ g.writtenBy node →
      c ≤ ((front ++ [node]).foldl (sc.visitNode g) pt).memory.read l) :
    c ≤ (nodes.foldl (sc.visitNode g) pt).memory.read l := by
  induction nodes using List.reverseRecOn with
  | nil => exact hstart
  | append_singleton front last ih =>
      by_cases hlast : l ∈ g.writtenBy last
      · exact hwrites front last [] rfl hlast
      · have hfront : c ≤ (front.foldl (sc.visitNode g) pt).memory.read l := by
          apply ih
          intro front' node rest hsplit
          exact hwrites front' node (rest ++ [last]) (by simp [hsplit])
        have hsame :
            ([last].foldl (sc.visitNode g) (front.foldl (sc.visitNode g) pt)).memory.read l =
              (front.foldl (sc.visitNode g) pt).memory.read l := by
          apply sc.read_memory_visitNodes
          intro node hnode
          rwa [List.mem_singleton.1 hnode]
        rwa [List.foldl_append, hsame]

variable {b : BlockId} {block : Block} {m : Memory}

theorem le_read_run (hg : g.WellListed) {done rest : List BlockId}
    (horder : g.order = done ++ b :: rest) (hblock : g.block? b = some block)
    (hm : Outcome.atEntry? (sc.analyze g bound) b = some m) {front mid post : List Node}
    (hnodes : g.nodesOf block = front ++ (mid ++ post))
    (hstart : c ≤ (front.foldl (sc.visitNode g)
      ⟨(sc.replayed g bound done).values, m⟩).memory.read l)
    (hmid : ∀ node ∈ mid, (sc.analyze g bound).Upholds g l c node.id) :
    c ≤ ((front ++ mid).foldl (sc.visitNode g)
      ⟨(sc.replayed g bound done).values, m⟩).memory.read l := by
  rw [List.foldl_append]
  apply sc.le_read_visitNodes hstart
  rintro before node after rfl hwrites
  have hsplit : g.nodesOf block = (front ++ before) ++ node :: (after ++ post) := by
    rw [hnodes]
    simp
  have hlisted : node ∈ g.nodesOf block := by simp [hsplit]
  refine hmid node (by simp) node (hg.node?_of_mem_nodesOf hlisted) hwrites _ ?_
  rw [Outcome.after?, findings_eq_run hg horder hblock hm hsplit, ← List.foldl_append,
    List.append_assoc]
  rfl

theorem leaving_eq_run (hg : g.WellListed) {done rest : List BlockId}
    (horder : g.order = done ++ b :: rest) (hblock : g.block? b = some block)
    (hm : Outcome.atEntry? (sc.analyze g bound) b = some m) :
    (sc.analyze g bound).leaving g b = some ((g.nodesOf block).foldl (sc.visitNode g)
      ⟨(sc.replayed g bound done).values, m⟩).memory :=
  leaving_eq_visitBlock hg hblock hm fun _ _ _ hnodes =>
    findings_eq_run hg horder hblock hm hnodes

theorem leaving_below_entry (hg : g.Mirrored) (hsolves : (sc.analyze g bound).Solves sc g)
    {p : BlockId} {m' : Memory} (hedge : b ∈ g.succs p)
    (hleaving : (sc.analyze g bound).leaving g p = some m')
    (hm : Outcome.atEntry? (sc.analyze g bound) b = some m) : m'.Below m := by
  obtain ⟨block, joined, hblock, hjoined, heq⟩ := hsolves b m hm
  obtain ⟨pblock, hpblock, hsucc⟩ := Graph.mem_succs_iff.1 hedge
  have hmem : m' ∈ Dataflow.meeting g (sc.entryMemory g) ((sc.analyze g bound).leaving g) block b :=
    List.mem_append_left _ (List.mem_filterMap.2 ⟨p, (hg hpblock hblock).2 hsucc, hleaving⟩)
  have hbelow := Memory.Below.joinAll hmem
  rw [hjoined, Option.getD_some] at hbelow
  intro l
  rw [Memory.read_eq_of_beq heq]
  exact hbelow l

/-- Along a bridge a class stays at least as strict as after the node that it begins with, if every
node on it that writes the location leaves it so. -/
theorem le_read_of_bridge (h : g.Replayable) (hconverged : (sc.analyze g bound).converged = true)
    (hsolves : (sc.analyze g bound).Solves sc g) {a : NodeId} {left : Memory}
    (hreached : (sc.analyze g bound).isReached a = true)
    (hleft : (sc.analyze g bound).after? a = some left) (hc : c ≤ left.read l)
    (hbridge : g.Bridge ((sc.analyze g bound).Upholds g l c) a b) :
    g.Reachable b ∧ ∀ block m done rest front post, g.block? b = some block →
      Outcome.atEntry? (sc.analyze g bound) b = some m → g.order = done ++ b :: rest →
      g.nodesOf block = front ++ post → (a ∈ block.nodes → a ∈ front.map Node.id) →
      (∀ k ∈ front, a < k.id → (sc.analyze g bound).Upholds g l c k.id) →
      c ≤ (front.foldl (sc.visitNode g) ⟨(sc.replayed g bound done).values, m⟩).memory.read l := by
  induction hbridge with
  | @own anode hanode =>
      obtain ⟨own, hown, hmem⟩ := h.fullyListed.listed_own hanode
      refine ⟨(entry_of_isReached h.wellListed hown hmem hreached).1, ?_⟩
      intro block m done rest front post hblock hm horder hnodes ha hupholds
      cases hown.symm.trans hblock
      -- the run begins after the node itself
      obtain ⟨first, hfirst, hid⟩ := List.mem_map.1 (ha hmem)
      obtain ⟨pre, mid, rfl⟩ := List.append_of_mem hfirst
      rw [List.append_assoc, List.cons_append] at hnodes
      obtain ⟨-, hlater⟩ := h.fullyListed.ids_of_split h.wellListed hblock hnodes
      have hstart : c ≤ ((pre ++ [first]).foldl (sc.visitNode g)
          ⟨(sc.replayed g bound done).values, m⟩).memory.read l := by
        rw [← hid, Outcome.after?, findings_eq_run h.wellListed horder hblock hm hnodes] at hleft
        cases hleft
        exact hc
      rw [List.append_cons] at hnodes ⊢
      apply le_read_run h.wellListed horder hblock hm hnodes hstart
      intro node hnode
      exact hupholds node (by simp [hnode]) (hid ▸ hlater node (List.mem_append_left _ hnode))
  | @step p b pblock _ hpblock _ hpnodes hedge hlater ih =>
      obtain ⟨hp, hrun⟩ := ih
      refine ⟨hp.step hedge, ?_⟩
      intro block m done rest front post hblock hm horder hnodes _ hupholds
      have hpm := entry_eq_join h.mirrored hconverged hpblock hp
      obtain ⟨pdone, prest, hporder⟩ := List.append_of_mem (Graph.mem_order_iff.2 hp)
      have hids := h.wellListed.map_id_nodesOf hpblock
      have hleaves := hrun pblock _ pdone prest _ [] hpblock hpm hporder (List.append_nil _).symm
        (fun ha => hids.symm ▸ ha) fun k hk hlt => hpnodes k.id (hids ▸ List.mem_map_of_mem hk) hlt
      have hbelow := leaving_below_entry h.mirrored hsolves hedge
        (leaving_eq_run h.wellListed hporder hpblock hpm) hm
      have hentry : c ≤ m.read l := le_trans hleaves (hbelow l)
      have hall : ∀ node ∈ front, (sc.analyze g bound).Upholds g l c node.id := by
        intro node hnode
        have hlisted : node.id ∈ block.nodes := by
          rw [← h.wellListed.map_id_nodesOf hblock, hnodes]
          simp [List.mem_map_of_mem hnode]
        exact hupholds node hnode (hlater hblock node.id hlisted)
      have hsplit : g.nodesOf block = [] ++ (front ++ post) := hnodes
      exact le_read_run h.wellListed horder hblock hm hsplit hentry hall

section Between

variable (h : g.Replayable) {a n : NodeId} {anode node : Node} {left before : Memory}
  (hnode : g.node? n = some node) (hlt : a < n)
  (hreached : (sc.analyze g bound).isReached n = true)
  (hleft : (sc.analyze g bound).after? a = some left)
  (hbefore : (sc.analyze g bound).before? g n = some before)

include h hnode hlt hreached hleft hbefore

/-- From one node of a block to another one a class is kept exactly if the last node that writes it
in between leaves one as strict. -/
theorem le_read_before?_iff (ha : g.node? a = some anode) (hsame : anode.block = node.block) :
    left.read l ≤ before.read l ↔ ∀ k knode, a < k → k < n → g.node? k = some knode →
      knode.block = node.block → g.Unwritten node.block l k n →
        (sc.analyze g bound).Upholds g l (left.read l) k := by
  constructor
  · intro hkept k knode _ hkn hk hown hunwritten knode' hk' _ m hm
    rwa [← read_before?_of_unwritten h hk hnode hown hkn hunwritten hreached hm hbefore]
  · intro hupholds
    cases g.unwritten_or_exists_last node.block l a n with
    | inl hunwritten =>
        rw [read_before?_of_unwritten h ha hnode hsame hlt hunwritten hreached hleft hbefore]
    | inr hlast =>
        obtain ⟨k, knode, hak, hkn, hk, hown, hwrites, hunwritten⟩ := hlast
        obtain ⟨block, hblock, hmem⟩ := h.fullyListed.listed_own hnode
        obtain ⟨kblock, hkblock, hkmem⟩ := h.fullyListed.listed_own hk
        cases (hown ▸ hkblock).symm.trans hblock
        obtain ⟨hreach, m, hm⟩ := entry_of_isReached h.wellListed hblock hmem hreached
        have hkreached := isReached_of_entry h.wellListed hblock hreach hm hkmem hk
        obtain ⟨after, hafter⟩ := Outcome.exists_after_of_isReached hkreached
        rw [read_before?_of_unwritten h hk hnode hown hkn hunwritten hreached hafter hbefore]
        exact hupholds k knode hak hkn hk hown hunwritten knode hk hwrites after hafter

/-- Over several blocks it is kept if there is a way on which every node that writes it leaves one
as strict. -/
theorem le_read_before?_of_bridgeTo (hconverged : (sc.analyze g bound).converged = true)
    (hsolves : (sc.analyze g bound).Solves sc g)
    (hareached : (sc.analyze g bound).isReached a = true)
    (hbridge : g.BridgeTo ((sc.analyze g bound).Upholds g l (left.read l)) a n) :
    left.read l ≤ before.read l := by
  obtain ⟨node', hnode', hway, hown⟩ := hbridge
  cases hnode'.symm.trans hnode
  obtain ⟨block, m, done, rest, pre, post, hblock, hm, horder, hnodes⟩ :=
    exists_place_of_isReached h hnode hreached
  have hid := h.wellListed.id_eq hnode
  obtain ⟨hearlier, hlater⟩ := h.fullyListed.ids_of_split h.wellListed hblock hnodes
  have hrun := before?_eq_run h.wellListed horder hblock hm hnodes
  rw [hid, hbefore] at hrun
  cases hrun
  apply (le_read_of_bridge h hconverged hsolves hareached hleft (le_refl _) hway).2 block m done
    rest pre (node :: post) hblock hm horder hnodes
  · intro halisted
    rw [← h.wellListed.map_id_nodesOf hblock, hnodes] at halisted
    obtain ⟨k, hk, rfl⟩ := List.mem_map.1 halisted
    cases List.mem_append.1 hk with
    | inl hpre => exact List.mem_map_of_mem hpre
    | inr htail =>
        cases htail with
        | head => exact absurd hid (Nat.ne_of_lt hlt)
        | tail _ hpost => exact absurd (hid ▸ hlater k hpost) (Nat.lt_asymm hlt)
  · intro k hk hak
    have hlisted : k ∈ g.nodesOf block := by simp [hnodes, hk]
    exact hown k.id k (h.wellListed.node?_of_mem_nodesOf hlisted)
      (h.wellListed.block_of_mem_nodesOf hblock hlisted) hak (hid ▸ hearlier k hk)

end Between

end Scope

namespace Policy

/-- The memory after a node that one of its operands may decide alone, compared with the memory
after this operand.  In one block a location keeps its class exactly if the last node in between
that writes it leaves one as strict.  In general it keeps its class, if the memories solve the
equations, as soon as there is a way between the two on which every node that writes it leaves one
as strict; and there is a way through nodes that were added in between. -/
theorem kept_after_decider (pol : Policy) (p : Program) (proc : Procedure) {n a : NodeId}
    {node : Node} (hnode : (proc.lower p).node? n = some node)
    (hdecider : node.op.decider? = some a)
    (hreached : (pol.analyzeProcedure p proc).isReached n = true) :
    ∃ anode left after, (proc.lower p).node? a = some anode ∧
      (pol.analyzeProcedure p proc).after? a = some left ∧
      (pol.analyzeProcedure p proc).after? n = some after ∧
      (proc.lower p).BridgeTo (fun k => k < n) a n ∧
      ∀ l,
        (anode.block = node.block → (left.read l ≤ after.read l ↔
          ∀ k knode, a < k → k < n → (proc.lower p).node? k = some knode →
            knode.block = node.block → (proc.lower p).Unwritten node.block l k n →
              (pol.analyzeProcedure p proc).Upholds (proc.lower p) l (left.read l) k)) ∧
        ((pol.analyzeProcedure p proc).converged = true →
          (pol.analyzeProcedure p proc).Solves (pol.scope p) (proc.lower p) →
          (proc.lower p).BridgeTo
            ((pol.analyzeProcedure p proc).Upholds (proc.lower p) l (left.read l)) a n →
          left.read l ≤ after.read l) := by
  have h := proc.replayable_lower p
  have hmem := Operation.mem_operands_of_decider? hdecider
  have hlt : a < n := (proc.coherent_lower p).operandsEarlier _ _ hnode _ hmem
  obtain ⟨anode, hanode, hareached⟩ := Scope.isReached_of_operand h hnode hreached hmem
  obtain ⟨before, hbefore, hfinding⟩ := Scope.finding_eq h hnode hreached
  have hafter : (pol.analyzeProcedure p proc).after? n = some before := by
    rw [Graph.execute_eq_of_decider? hdecider] at hfinding
    exact congrArg (Option.map Finding.after) hfinding
  obtain ⟨left, hleft⟩ := Outcome.exists_after_of_isReached hareached
  refine ⟨anode, left, before, hanode, hleft, hafter, ?_, ?_⟩
  · exact ⟨node, hnode, proc.bridged_lower p n node a hnode hdecider, fun _ _ _ _ _ hk => hk⟩
  · intro l
    constructor
    · intro hsame
      exact Scope.le_read_before?_iff h hnode hlt hreached hleft hbefore hanode hsame
    · intro hconverged hsolves hbridge
      exact Scope.le_read_before?_of_bridgeTo h hnode hlt hreached hleft hbefore hconverged hsolves
        hareached hbridge

/-- The second operand of the conjunction assigns a literal to the secret in one arm of a
conditional.  By the other arm the secret stays forbidden, so it is forbidden after the
conjunction. -/
theorem kept_after_decider_other_arm :
    let int : Ty := .primitive .int
    let p := ((∅ : Program).declare "x" (.parameter int ⟨9⟩)).mark ⟨0⟩ Marks.standard.forbidden
    let one : Expr := .literal (.int 1) int
    let arms : Expr := .mk (.conditional (.var ⟨2⟩ int) (.assign (.var ⟨0⟩ int) one) one) int
    let proc : Procedure := ⟨⟨9⟩, [⟨0⟩],
      [.eval (.binary .and (.var ⟨1⟩ int) (.binary .eq arms one int) (.primitive .boolean))]⟩
    let o := Policy.standard.analyzeProcedure p proc
    (o.after? 4).map (fun m => m.read (.var ⟨0⟩)) = some .safe ∧
      ∃ left after, o.after? 0 = some left ∧ o.after? 9 = some after ∧
        left.read (.var ⟨0⟩) = .forbidden ∧ left.read (.var ⟨0⟩) ≤ after.read (.var ⟨0⟩) := by
  intro int p one arms proc o
  have hnode : (proc.lower p).node? 9 = some ⟨9, 4, .binary .and 0 8⟩ := by decide +kernel
  have hfirst : (proc.lower p).node? 0 = some ⟨0, 0, .var ⟨1⟩⟩ := by decide +kernel
  have hreached : o.isReached 9 = true := by decide +kernel
  obtain ⟨_, left, after, -, hleft, hafter, -, hkept⟩ :=
    Policy.standard.kept_after_decider p proc hnode rfl hreached
  have hforbidden : left.read (.var ⟨0⟩) = .forbidden := by
    have hread : (o.after? 0).map (fun m => m.read (.var ⟨0⟩)) = some .forbidden := by
      decide +kernel
    rw [hleft] at hread
    exact Option.some.inj hread
  -- the way goes from block 0 over block 3, the other arm, to block 4
  have hway : ∀ e ∈ [(0, 3), (3, 4)], ∃ block ∈ (proc.lower p).block? e.1,
      block.terminator ≠ none ∧
      (∀ k ∈ block.nodes, 0 < k → o.Upholds (proc.lower p) (.var ⟨0⟩) .forbidden k) ∧
      e.2 ∈ (proc.lower p).succs e.1 ∧
      ∀ next ∈ (proc.lower p).block? e.2, ∀ k ∈ next.nodes, 0 < k := by
    decide +kernel
  have hbridge : (proc.lower p).BridgeTo (o.Upholds (proc.lower p) (.var ⟨0⟩) .forbidden) 0 9 := by
    obtain ⟨block, hblock, hended, hnodes, hedge, hlater⟩ := hway (0, 3) (by simp)
    obtain ⟨arm, harm, hended', hnodes', hedge', hlater'⟩ := hway (3, 4) (by simp)
    have hstart := Graph.Bridge.own (P := o.Upholds (proc.lower p) (.var ⟨0⟩) .forbidden) hfirst
    refine ⟨_, hnode, (hstart.step hblock hended hnodes hedge fun h => hlater _ h).step harm hended'
      hnodes' hedge' fun h => hlater' _ h, ?_⟩
    have hlast : ∀ k < 9, ∀ knode ∈ (proc.lower p).node? k, knode.block = 4 →
        o.Upholds (proc.lower p) (.var ⟨0⟩) .forbidden k := by
      decide +kernel
    intro k knode hk hown _ hlt
    exact hlast k hlt knode hk hown
  refine ⟨by decide +kernel, left, after, hleft, hafter, hforbidden, ?_⟩
  rw [← hforbidden] at hbridge
  exact (hkept (.var ⟨0⟩)).2 (by decide +kernel) (by decide +kernel) hbridge

/-- The second operand of this conjunction assigns a literal to the secret.  It is not evaluated if
the first one is false, but after the conjunction the secret is safe. -/
theorem not_kept_after_decider_assignment :
    let int : Ty := .primitive .int
    let p := ((∅ : Program).declare "x" (.parameter int ⟨9⟩)).mark ⟨0⟩ Marks.standard.forbidden
    let one : Expr := .literal (.int 1) int
    let proc : Procedure := ⟨⟨9⟩, [⟨0⟩], [.eval (.binary .and (.var ⟨1⟩ int)
      (.binary .eq (.assign (.var ⟨0⟩ int) one) one int) (.primitive .boolean))]⟩
    let o := Policy.standard.analyzeProcedure p proc
    o.converged = true ∧ o.isReached 6 = true ∧
      ((proc.lower p).node? 6).bind (fun node => node.op.decider?) = some 0 ∧
      (o.after? 0).map (fun m => m.read (.var ⟨0⟩)) = some .forbidden ∧
      (o.after? 6).map (fun m => m.read (.var ⟨0⟩)) = some .safe := by
  decide +kernel

end Policy

end Disclosure
