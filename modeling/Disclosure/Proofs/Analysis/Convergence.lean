import Disclosure.Analysis
import Disclosure.Proofs.Dataflow.Ascent
import Disclosure.Proofs.Lowering.Listing
import Disclosure.Proofs.Memory.Levels

/-!
# How many visits the analysis of a procedure needs

The memories in the analysis of a graph list only parameters and locations that an assignment
writes, so their level is bounded.  In the graph of a procedure what a block reads was visited
before it, in it or in a block before it in the order, and so memories only rise: one visit for
every block in the order, and for every edge one for every time that the memory where it starts can
rise, are enough.
-/

namespace Disclosure

theorem agreement_within : Agreement (· ≤ ·) Memory.Within where
  refl := le_refl
  join := Sensitivity.join_le_join
  pool c := Sensitivity.pool_le_pool c
  read hm l := hm.below l
  insert hm l hs := hm.insert l hs

namespace Graph

def writtenAt (g : Graph) (target : NodeId) : List Location :=
  match g.node? target with
  | none => []
  | some node =>
      match node.op with
      | .var id => [.var id]
      | .element array _ => (g.locationOf? array).toList
      | .field (some receiver) _ false =>
          (g.locationOf? target).toList ++ (g.locationOf? receiver).toList
      | .field _ _ _ => (g.locationOf? target).toList
      | _ => []

def writtenBy (g : Graph) (node : Node) : List Location :=
  match node.op with
  | .assignment target _ => g.writtenAt target
  | _ => []

/-- The locations that a memory can list: those of parameters, and those that are written. -/
def storable (g : Graph) : Finset Location :=
  (g.params.map Location.var ++ g.nodes.toList.flatMap g.writtenBy).toFinset

variable {g : Graph} {v : Values} {l : Location}

theorem contains_writeTo {n : NodeId} {s : Sensitivity} {b : Memory.Batch}
    (h : (g.writeTo n s b).close.contains l = true) :
    b.close.contains l = true ∨ l ∈ (g.locationOf? n).toList := by
  unfold writeTo at h
  cases hlocation : g.locationOf? n with
  | none =>
      simp only [hlocation] at h
      exact Or.inl h
  | some l' =>
      simp only [hlocation, Memory.Batch.close_write, Table.contains_insert, Bool.or_eq_true,
        decide_eq_true_eq] at h
      rcases h with rfl | h
      · exact Or.inr (by simp)
      · exact Or.inl h

theorem contains_writes {target : NodeId} {s : Sensitivity} {b : Memory.Batch}
    (h : (g.writes v target s b).close.contains l = true) :
    b.close.contains l = true ∨ l ∈ g.writtenAt target := by
  unfold writes at h
  unfold writtenAt
  cases hnode : g.node? target with
  | none =>
      simp only [hnode] at h
      exact Or.inl h
  | some node =>
      obtain ⟨id, block, op⟩ := node
      simp only [hnode] at h ⊢
      cases op with
      | var id =>
          simp only [Memory.Batch.close_write, Table.contains_insert, Bool.or_eq_true,
            decide_eq_true_eq] at h
          rcases h with rfl | h
          · exact Or.inr (by simp)
          · exact Or.inl h
      | element array index => exact contains_writeTo h
      | field receiver id isStatic =>
          cases receiver with
          | none => exact contains_writeTo h
          | some receiver =>
              cases isStatic with
              | true => exact contains_writeTo h
              | false =>
                  rcases contains_writeTo h with h | h
                  · exact (contains_writeTo h).imp_right (List.mem_append_left _)
                  · exact Or.inr (List.mem_append_right _ h)
      | _ => exact Or.inl h

theorem contains_execute {m : Memory} {node : Node}
    (h : (g.execute m v node.op).contains l = true) :
    m.contains l = true ∨ l ∈ g.writtenBy node := by
  obtain ⟨id, block, op⟩ := node
  cases op with
  | assignment target value => exact contains_writes (b := m.openBatch) h
  | _ => exact Or.inl h

end Graph

namespace Scope

variable {g : Graph}

theorem contains_visitNodes (sc : Scope) {nodes : List Node} {pt : Point} {l : Location}
    (h : (nodes.foldl (sc.visitNode g) pt).memory.contains l = true) :
    pt.memory.contains l = true ∨ ∃ node ∈ nodes, l ∈ g.writtenBy node := by
  induction nodes generalizing pt with
  | nil => exact Or.inl h
  | cons node rest ih =>
      rcases ih h with hfirst | ⟨node', hmem, hl⟩
      · exact (Graph.contains_execute hfirst).imp_right fun hl => ⟨node, List.mem_cons_self, hl⟩
      · exact Or.inr ⟨node', List.mem_cons_of_mem _ hmem, hl⟩

theorem read_visitNodes_of_notMem (sc : Scope) {nodes : List Node} {n : NodeId}
    (hn : n ∉ nodes.map Node.id) (pt : Point) :
    (nodes.foldl (sc.visitNode g) pt).values.read n = pt.values.read n := by
  induction nodes generalizing pt with
  | nil => rfl
  | cons node rest ih =>
      rw [List.map_cons, List.mem_cons, not_or] at hn
      rw [List.foldl_cons, ih hn.2, visitNode, Values.read_insert, if_neg (Ne.symm hn.1)]

theorem keeps_storable (sc : Scope) (g : Graph) :
    (sc.dataflow g).Keeps g fun m => ∀ l, m.contains l = true → l ∈ g.storable where
  initial _ l hl := by
    rcases Table.contains_of_insertAll hl with hempty | ⟨e, he, rfl⟩
    · cases hempty
    · obtain ⟨param, hparam, rfl⟩ := List.mem_map.1 he
      simp only [Graph.storable, List.mem_toFinset, List.mem_append]
      exact Or.inl (List.mem_map_of_mem hparam)
  join hxs _ l hl := by
    obtain ⟨m, hm, hl⟩ := Memory.exists_contains_of_joinAll hl
    exact hxs m hm l hl
  transfer {b block m} hblock hm v l hl := by
    rcases sc.contains_visitNodes hl with hl | ⟨node, hmem, hl⟩
    · exact hm l hl
    · obtain ⟨n, -, hnode⟩ := List.mem_filterMap.1 hmem
      have hnode' : node ∈ g.nodes.toList :=
        Array.mem_toList_iff.2 (Array.mem_iff_getElem?.2 ⟨n, hnode⟩)
      simp only [Graph.storable, List.mem_toFinset, List.mem_append, List.mem_flatMap]
      exact Or.inr ⟨node, hnode', hl⟩

/-- The classes of the nodes of a block are at most those in the second table. -/
def LeAt (g : Graph) (b : BlockId) (v v' : Values) : Prop :=
  ∀ n node, g.node? n = some node → node.block = b → v.read n ≤ v'.read n

/-- Where operands come first, the blocks of a graph are monotone. -/
theorem isotone_dataflow (sc : Scope) (hg : g.WellListed) (hlisted : g.FullyListed)
    (h : g.OperandsVisited) : (sc.dataflow g).Isotone g Memory.Within (LeAt g) where
  toSteady := sc.steady_dataflow g
  refl := Memory.Within.refl
  trans := Memory.Within.trans
  of_beq := Memory.Within.of_beq
  trans_at h h' n node hnode hown := le_trans (h n node hnode hown) (h' n node hnode hown)
  join_le hne hle := by
    refine Memory.Within.joinAll_le hne fun m hm => ?_
    obtain ⟨m', hm', hwithin⟩ := hle m hm
    exact hwithin.trans (Memory.Within.le_joinAll hm')
  transfer_le {b block v v' m m'} hblock hreach hbefore hm := by
    have hstart : (⟨v, m⟩ : Point).Agree (· ≤ ·) Memory.Within (g.nodesBefore b) ⟨v', m'⟩ := by
      refine ⟨hm, fun n hn => ?_⟩
      obtain ⟨node, hnode, hlt⟩ := hg.mem_nodesBefore_iff.1 hn
      exact hbefore node.block hlt n node hnode rfl
    have hend := hstart.visitNodes agreement_within sc (h.readsWithin hg hlisted hreach hblock)
    refine ⟨hend.1, fun n node hnode hown => hend.2 n (List.mem_append_left _ ?_)⟩
    obtain ⟨block', hblock', hmem⟩ := hlisted.listed_own hnode
    rw [hown, hblock] at hblock'
    cases hblock'
    rw [List.mem_reverse, hg.map_id_nodesOf hblock]
    exact hmem
  transfer_eq_at {b c block} v m hblock hne := by
    have hsame : ∀ n node, g.node? n = some node → node.block = c →
        Values.read ((sc.dataflow g).transfer v block m).2 n = v.read n := by
      intro n node hnode hown
      refine sc.read_visitNodes_of_notMem (fun hmem => hne ?_) _
      obtain ⟨node', hnode', rfl⟩ := List.mem_map.1 hmem
      rw [hg.node?_of_mem_nodesOf hnode'] at hnode
      cases hnode
      exact hown.symm.trans (hg.block_of_mem_nodesOf hblock hnode')
    exact ⟨fun n node hnode hown => le_of_eq (hsame n node hnode hown).symm,
      fun n node hnode hown => le_of_eq (hsame n node hnode hown)⟩

/-- How often the memory after a block can still rise. -/
def spare (g : Graph) : Option Memory → Nat
  | none => 1 + 3 * g.storable.card
  | some m => 4 * g.storable.card - m.level g.storable

/-- The analysis of a procedure is completed if it may visit each block in the order once and, for
each edge from one of them, once more and three times for each location that can be stored. -/
theorem converged_analyze_lower (sc : Scope) (proc : Procedure) {bound : Nat}
    (hbound : (proc.lower sc.program).order.length + Dataflow.edgeCount (proc.lower sc.program) *
      (1 + 3 * (proc.lower sc.program).storable.card) ≤ bound) :
    (sc.analyze (proc.lower sc.program) bound).converged = true := by
  have hg := (proc.built_lower sc.program).wellListed
  have hisotone := sc.isotone_dataflow hg (proc.fullyListed_lower sc.program)
    (proc.operandsVisited_lower sc.program)
  refine hisotone.converged (proc.linked_lower sc.program).mirrored
    (sc.keeps_storable (proc.lower sc.program)) (spare (proc.lower sc.program))
    (fun m _ => ?_) (fun {m m'} _ hkind hle hne => ?_) hbound ∅
  · have hlevel := m.card_le_level (proc.lower sc.program).storable
    simp only [spare]
    omega
  · have hlt := hle.level_lt hne fun {l} hl => hkind l hl
    have hmax := m'.level_le (proc.lower sc.program).storable
    simp only [spare]
    omega

/-- A loop in which what a block reads is raised in a block before it, from one round to the next:
the memories of eight blocks with nine edges rise over three locations. -/
theorem converged_analyze_lower_conditional :
    let x (i : UInt32) : Expr := .var ⟨i⟩ (.primitive .int)
    let one : Expr := .literal (.int 1) (.primitive .int)
    let conditional : Expr :=
      .mk (.conditional (.assign (x 1) one) one one) (.primitive .int)
    let proc : Procedure := ⟨⟨3⟩, [⟨2⟩], [.eval (.assign (x 1) one), .eval (.assign (x 0) one),
      .loop (x 2) [.eval (.assign (x 0) (.binary .add (x 1) conditional (.primitive .int))),
        .eval (.assign (x 1) (.call ⟨9⟩ [] (.primitive .int)))]]⟩
    let sc : Scope := ⟨∅, .standard⟩
    let g := proc.lower sc.program
    g.order.length = 8 ∧ Dataflow.edgeCount g = 9 ∧ g.storable.card = 3 ∧
      (sc.analyze g (8 + 9 * (1 + 3 * 3))).converged = true := by
  intro x one conditional proc sc g
  have horder : g.order.length = 8 := by decide +kernel
  have hedges : Dataflow.edgeCount g = 9 := by decide +kernel
  have hcard : g.storable.card = 3 := by decide +kernel
  refine ⟨horder, hedges, hcard, sc.converged_analyze_lower proc ?_⟩
  show g.order.length + Dataflow.edgeCount g * (1 + 3 * g.storable.card) ≤ _
  rw [horder, hedges, hcard]

end Scope

end Disclosure
