import Disclosure.Proofs.Graph.Reach
import Disclosure.Proofs.Graph.WellFormed

/-!
# Graphs that differ only where control does not come

`g.Pads g'` says that `g'` is `g` with more nodes, and with more blocks and edges among those that
control does not come to in `g`.  A block that control comes to may have more predecessors in `g'`,
but none that control comes to.

The search for the order of `g'` may enter more blocks inside each other, and chains of receivers
may be longer in it; neither matters to what is there in `g` already.
-/

namespace Disclosure

namespace Graph

variable {g g' : Graph} {b : BlockId} {n : NodeId}

/-- The second graph differs from the first only in nodes that were added to it and in blocks that
control does not come to. -/
structure Pads (g g' : Graph) : Prop where
  entry_eq : g'.entry = g.entry
  exit_eq : g'.exit = g.exit
  method_eq : g'.method = g.method
  params_eq : g'.params = g.params
  nodes_prefix : g.nodes.toList <+: g'.nodes.toList
  nextBlock_le : g.nextBlock ≤ g'.nextBlock
  exists_block : ∀ {b}, g.Reachable b → ∃ block more, g.block? b = some block ∧
    (∀ p ∈ more, ¬ g.Reachable p) ∧ g'.block? b = some { block with preds := block.preds ++ more }

/-! ## Order -/

theorem searchWithin_eq_of_lt {s : Search} {depth depth' : Nat} (h : (s.unseen g).card < depth)
    (h' : (s.unseen g).card < depth') (b : BlockId) :
    g.searchWithin depth' b s = g.searchWithin depth b s := by
  -- whatever a search leads to, every search that is deep enough leads to
  have hall := searchWithin_induction (g := g) (C := fun bs s r =>
      (∀ {x}, x ∈ s.seen → x ∈ r.seen) ∧ ∀ k, (s.unseen g).card < k →
        bs.foldl (fun s next => g.searchWithin k next s) s = r)
    (fun hC => hC.1) (fun s => ⟨id, fun _ _ => rfl⟩) ?_ ?_ ?_ depth b s h
  · exact hall.2 depth' h'
  · intro b s hb
    refine ⟨id, fun k hk => ?_⟩
    obtain ⟨k, rfl⟩ := Nat.exists_eq_add_one_of_ne_zero (Nat.ne_zero_of_lt hk)
    simp [searchWithin, hb]
  · rintro bs cs s r t ⟨hmono, hbs⟩ ⟨hmono', hcs⟩
    refine ⟨fun hx => hmono' (hmono hx), fun k hk => ?_⟩
    have hcard := Finset.card_le_card (Search.unseen_subset (g := g) hmono)
    rw [List.foldl_append, hbs k hk, hcs k (hcard.trans_lt hk)]
  · rintro b s r hb ⟨hmono, hsuccs⟩
    refine ⟨fun hx => hmono (List.mem_cons_of_mem b hx), fun k hk => ?_⟩
    obtain ⟨k, rfl⟩ := Nat.exists_eq_add_one_of_ne_zero (Nat.ne_zero_of_lt hk)
    have hinner : (g.succs b).foldl (fun s next => g.searchWithin k next s)
        { s with seen := b :: s.seen } = r := by
      by_cases hlt : b < g.blocks.size
      · have hcard := Search.card_unseen_enter_lt hb hlt
        exact hsuccs k (by omega)
      · -- nothing is entered inside a number without a block, so the depth is not used up
        have hnil := succs_eq_nil_of_size_le (Nat.le_of_not_lt hlt)
        have hr := hsuccs _ (Nat.lt_succ_self _)
        rw [hnil, List.foldl_nil] at hr ⊢
        exact hr
    simp [searchWithin, hb, hinner]

namespace Pads

variable (h : g.Pads g')

include h

theorem succs_eq (hb : g.Reachable b) : g'.succs b = g.succs b := by
  obtain ⟨block, more, hblock, -, hblock'⟩ := h.exists_block hb
  rw [succs, succs, hblock, hblock']

theorem searchWithin_eq (depth : Nat) (hb : g.Reachable b) (s : Search) :
    g'.searchWithin depth b s = g.searchWithin depth b s := by
  induction depth generalizing b s with
  | zero => rfl
  | succ depth ih =>
      rw [searchWithin, searchWithin, h.succs_eq hb]
      have hinner : ∀ s', (g.succs b).foldl (fun s next => g'.searchWithin depth next s) s' =
          (g.succs b).foldl (fun s next => g.searchWithin depth next s) s' :=
        fun s' => List.foldl_ext _ _ s' fun s'' next hnext => ih (hb.step hnext) s''
      rw [hinner]

theorem order_eq : g'.order = g.order := by
  have hcard : (Search.unseen g ⟨[], []⟩).card < g.blocks.size + 1 := by simp [Search.unseen]
  have hdeep : g.blocks.size ≤ g'.blocks.size := h.nextBlock_le
  rw [order, order, h.entry_eq, h.searchWithin_eq _ .entry, searchWithin_eq_of_lt hcard (by omega)]

/-! ## Nodes -/

theorem node?_eq (hn : n < g.nextNode) : g'.node? n = g.node? n := by
  obtain ⟨extra, hextra⟩ := h.nodes_prefix
  have hlt : n < g.nodes.toList.length := by
    rw [Array.length_toList]
    exact hn
  rw [node?, node?, ← Array.getElem?_toList, ← Array.getElem?_toList, ← hextra,
    List.getElem?_append_left hlt]

theorem nextNode_le : g.nextNode ≤ g'.nextNode := by
  simpa [nextNode] using h.nodes_prefix.length_le

theorem nodesOf_eq (hg : g.WellListed) {block : Block} (hblock : g.block? b = some block)
    (preds : List BlockId) : g'.nodesOf { block with preds := preds } = g.nodesOf block := by
  refine List.filterMap_congr fun n hn => ?_
  obtain ⟨node, hnode, -⟩ := hg.listed hblock hn
  exact h.node?_eq (lt_nextNode_of_node? hnode)

theorem locationWithin_eq (hg : g.OperandsEarlier) {depth depth' : Nat} (hn : n < g.nextNode)
    (hdepth : n < depth) (hdepth' : n < depth') :
    g'.locationWithin depth' n = g.locationWithin depth n := by
  induction n using Nat.strong_induction_on generalizing depth depth' with
  | _ n ih =>
      obtain ⟨depth, rfl⟩ := Nat.exists_eq_add_one_of_ne_zero (Nat.ne_zero_of_lt hdepth)
      obtain ⟨depth', rfl⟩ := Nat.exists_eq_add_one_of_ne_zero (Nat.ne_zero_of_lt hdepth')
      rw [locationWithin, locationWithin, h.node?_eq hn]
      cases hnode : g.node? n with
      | none => rfl
      | some node =>
          obtain ⟨id, own, op⟩ := node
          cases op with
          | field receiver field isStatic =>
              cases isStatic with
              | true => rfl
              | false =>
                  cases receiver with
                  | none => rfl
                  | some receiver =>
                      have hlt : receiver < n :=
                        hg n _ hnode receiver (by simp [Operation.operands])
                      have hreceiver : g'.locationWithin depth' receiver =
                          g.locationWithin depth receiver :=
                        ih receiver hlt (Nat.lt_trans hlt hn)
                          (Nat.lt_of_lt_of_le hlt (Nat.le_of_lt_succ hdepth))
                          (Nat.lt_of_lt_of_le hlt (Nat.le_of_lt_succ hdepth'))
                      simp only [hreceiver]
          | _ => rfl

theorem locationOf?_eq (hg : g.OperandsEarlier) (hn : n < g.nextNode) :
    g'.locationOf? n = g.locationOf? n :=
  h.locationWithin_eq hg hn hn (Nat.lt_of_lt_of_le hn h.nextNode_le)

end Pads

end Graph

end Disclosure
