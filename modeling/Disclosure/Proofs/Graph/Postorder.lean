import Disclosure.Proofs.Graph.Precedence

/-!
# The order is a reverse postorder

The search for the order is defined with a bound on the blocks that are entered inside each other.
`Search.Explores` says by rules what a search without a bound does, and a search that ends is a
finite derivation by these rules.  The search from the entry always ends, in one way only, and what
it has left then is the order, so the bound never cuts a search off.

What is in the order, and what comes before what, is said by `Graph.IsReversePostorder`.  Every
number but the entry stands behind one that leads to it, and an edge that does not lead forward
closes a cycle.  Nothing is asked of the graph: edges may lead from a block to itself and to numbers
that are no blocks, and the entry need not be a block either.
-/

namespace Disclosure

namespace Graph

open Relation (ReflTransGen)

namespace Search

/-- A search without a bound, from the numbers of a list one after the other.  A number that was
seen is passed over; any other one is entered, then its successors are searched, and then it is
left. -/
inductive Explores (g : Graph) : List BlockId → Search → Search → Prop where
  | nil (s : Search) : Explores g [] s s
  | seen {b : BlockId} {bs : List BlockId} {s r : Search} : b ∈ s.seen → Explores g bs s r →
      Explores g (b :: bs) s r
  | enter {b : BlockId} {bs : List BlockId} {s inner r : Search} : b ∉ s.seen →
      Explores g (g.succs b) { s with seen := b :: s.seen } inner →
      Explores g bs { inner with done := b :: inner.done } r → Explores g (b :: bs) s r

namespace Explores

variable {g : Graph} {bs cs : List BlockId} {s r r' t : Search}

theorem unique (h : Explores g bs s r) (h' : Explores g bs s r') : r = r' := by
  induction h generalizing r' with
  | nil =>
      cases h' with
      | nil => rfl
  | seen hb _ ih =>
      cases h' with
      | seen _ hrest => exact ih hrest
      | enter hnot _ _ => exact absurd hb hnot
  | enter hnot _ _ ihinner ihrest =>
      cases h' with
      | seen hb _ => exact absurd hb hnot
      | enter _ hinner hrest =>
          cases ihinner hinner
          exact ihrest hrest

theorem append (h : Explores g bs s r) (h' : Explores g cs r t) : Explores g (bs ++ cs) s t := by
  induction h with
  | nil => exact h'
  | seen hb _ ih => exact .seen hb (ih h')
  | enter hnot hinner _ _ ih => exact .enter hnot hinner (ih h')

theorem seen_of_seen (h : Explores g bs s r) {x : BlockId} (hx : x ∈ s.seen) : x ∈ r.seen := by
  induction h with
  | nil => exact hx
  | seen _ _ ih => exact ih hx
  | enter _ _ _ ihinner ihrest => exact ihrest (ihinner (List.mem_cons_of_mem _ hx))

end Explores

end Search

theorem explores_searchWithin {g : Graph} (depth : Nat) :
    ∀ (b : BlockId) (s : Search), (s.unseen g).card < depth →
      Search.Explores g [b] s (g.searchWithin depth b s) :=
  searchWithin_induction (C := Search.Explores g) Search.Explores.seen_of_seen .nil
    (fun hb => .seen hb (.nil _)) Search.Explores.append
    (fun hb hinner => .enter hb hinner (.nil _)) depth

/-- The list has the numbers that control can come to, each once, from the entry on.  Every other
one stands behind one that it is a successor of, and an edge that does not lead to a number further
behind leads back to one from which control can come to where the edge starts. -/
structure IsReversePostorder (g : Graph) (bs : List BlockId) : Prop where
  nodup : bs.Nodup
  mem_iff : ∀ b, b ∈ bs ↔ g.Reachable b
  head_eq : bs.head? = some g.entry
  exists_pred : ∀ b ∈ bs, b ≠ g.entry → ∃ p, b ∈ g.succs p ∧ [p, b].Sublist bs
  closes_cycle : ∀ a ∈ bs, ∀ b ∈ g.succs a, ¬ [a, b].Sublist bs →
    ReflTransGen (fun p c => c ∈ g.succs p) b a

theorem head?_order (g : Graph) : g.order.head? = some g.entry := by
  simp [order, searchWithin]

theorem reaches_of_not_later {g : Graph} {a b : BlockId} (ha : a ∈ g.order) (hedge : b ∈ g.succs a)
    (hnot : ¬ [a, b].Sublist g.order) : ReflTransGen (fun p c => c ∈ g.succs p) b a := by
  have hback : g.AscendsIn g.order b a := (sublist_or_ascendsIn_order ha hedge).resolve_left hnot
  exact ReflTransGen.mono (fun _ _ hstep => hstep.1) _ _ hback

/-- The search from the entry ends, in one way only, with the order as what it has left, and the
order is a reverse postorder. -/
theorem isReversePostorder_order (g : Graph) :
    (∃ seen, ∀ r, Search.Explores g [g.entry] ⟨[], []⟩ r ↔ r = ⟨seen, g.order⟩) ∧
      g.IsReversePostorder g.order := by
  constructor
  · have hcard : (Search.unseen g ⟨[], []⟩).card < g.blocks.size + 1 := by simp [Search.unseen]
    have hends := explores_searchWithin (g.blocks.size + 1) g.entry ⟨[], []⟩ hcard
    refine ⟨(g.searchWithin (g.blocks.size + 1) g.entry ⟨[], []⟩).seen, fun r => ⟨?_, ?_⟩⟩
    · exact fun h => h.unique hends
    · rintro rfl
      exact hends
  · exact {
      nodup := g.nodup_order
      mem_iff := fun _ => mem_order_iff
      head_eq := g.head?_order
      exists_pred := fun _ hb hne => exists_pred_of_mem_order hb hne
      closes_cycle := fun _ ha _ hedge hnot => reaches_of_not_later ha hedge hnot }

/-- A block in a loop with itself, with an edge to a number that is no block and one from a block
that control does not come to. -/
example :
    ((((((start.addBlock.addBlock).addEdge 0 2).addEdge 2 2).addEdge 2 9).addEdge 2 1).addEdge
      3 2).order = [0, 2, 1, 9] := by decide

end Graph

end Disclosure
