import Disclosure.Proofs.Graph.Reach
import Mathlib.Data.List.Nodup
import Mathlib.Logic.Relation

/-!
# What comes first in reverse postorder

`g.place b` is the place of `b` in `g.order`.  A search enters a block from one that it leaves
later, so there is a path to every block along which places ascend.  An edge that does not lead to a
later place leads back to a block that was not left yet, and from there places ascend to the block
where the edge starts.

A set of blocks that control enters from a single block `c` lies behind `c` in the order.  If both
this set and a part of it are entered from `c` only, an edge that leaves the part inside the set
leads to a later place, however the blocks are linked with the rest of the graph.
-/

namespace Disclosure

namespace Graph

open Relation (ReflTransGen)

/-- There is a path along which every block is listed after the one before it. -/
def AscendsIn (g : Graph) (bs : List BlockId) : BlockId → BlockId → Prop :=
  ReflTransGen fun p b => b ∈ g.succs p ∧ [p, b].Sublist bs

theorem AscendsIn.mono {g : Graph} {bs cs : List BlockId} {a b : BlockId}
    (h : g.AscendsIn bs a b) (hsub : bs.Sublist cs) : g.AscendsIn cs a b :=
  ReflTransGen.mono (fun _ _ hedge => ⟨hedge.1, hedge.2.trans hsub⟩) _ _ h

namespace Search

/-- A search from the numbers `bs` has led from `s` to `r` and has listed `new`. -/
structure Lists (g : Graph) (bs : List BlockId) (s r : Search) (new : List BlockId) : Prop where
  done_eq : r.done = new ++ s.done
  seen_iff : ∀ {x}, x ∈ r.seen ↔ x ∈ s.seen ∨ x ∈ new
  nodup : new.Nodup
  not_seen : ∀ {x}, x ∈ new → x ∉ s.seen
  starts : ∀ {b}, b ∈ bs → b ∈ r.seen
  ascends : ∀ {x}, x ∈ new → ∃ b ∈ bs, b ∈ new ∧ g.AscendsIn new b x
  edges : ∀ {x y}, x ∈ new → y ∈ g.succs x →
    y ∈ s.seen ∨ [x, y].Sublist new ∨ g.AscendsIn new y x

namespace Lists

variable {g : Graph} {b : BlockId} {bs cs new more : List BlockId} {s r t : Search}

theorem nil (g : Graph) (s : Search) (h : ∀ {b}, b ∈ bs → b ∈ s.seen) : Lists g bs s s [] where
  done_eq := rfl
  seen_iff := by simp
  nodup := List.nodup_nil
  not_seen h := absurd h List.not_mem_nil
  starts := h
  ascends h := absurd h List.not_mem_nil
  edges h := absurd h List.not_mem_nil

theorem append (h : Lists g bs s r new) (h' : Lists g cs r t more) :
    Lists g (bs ++ cs) s t (more ++ new) where
  done_eq := by rw [h'.done_eq, h.done_eq, List.append_assoc]
  seen_iff {x} := by rw [h'.seen_iff, h.seen_iff, List.mem_append, or_assoc, or_comm (a := x ∈ new)]
  nodup := by
    refine List.nodup_append.2 ⟨h'.nodup, h.nodup, ?_⟩
    rintro x hx _ hy rfl
    exact h'.not_seen hx (h.seen_iff.2 (Or.inr hy))
  not_seen {x} hx hs := by
    rcases List.mem_append.1 hx with hx | hx
    · exact h'.not_seen hx (h.seen_iff.2 (Or.inl hs))
    · exact h.not_seen hx hs
  starts {x} hx := by
    rcases List.mem_append.1 hx with hx | hx
    · exact h'.seen_iff.2 (Or.inl (h.starts hx))
    · exact h'.starts hx
  ascends {x} hx := by
    rcases List.mem_append.1 hx with hx | hx
    · obtain ⟨c, hc, hmem, hpath⟩ := h'.ascends hx
      exact ⟨c, List.mem_append_right bs hc, List.mem_append_left new hmem,
        hpath.mono (List.sublist_append_left more new)⟩
    · obtain ⟨c, hc, hmem, hpath⟩ := h.ascends hx
      exact ⟨c, List.mem_append_left cs hc, List.mem_append_right more hmem,
        hpath.mono (List.sublist_append_right more new)⟩
  edges {x y} hx hy := by
    rcases List.mem_append.1 hx with hx | hx
    · rcases h'.edges hx hy with hseen | hlater | hback
      · -- what the first search has listed stands behind what the second one lists
        rcases h.seen_iff.1 hseen with hs | hnew
        · exact Or.inl hs
        · have hpair : [x, y].Sublist (more ++ new) :=
            (List.singleton_sublist.2 hx).append (List.singleton_sublist.2 hnew)
          exact Or.inr (Or.inl hpair)
      · exact Or.inr (Or.inl (hlater.trans (List.sublist_append_left more new)))
      · exact Or.inr (Or.inr (hback.mono (List.sublist_append_left more new)))
    · rcases h.edges hx hy with hseen | hlater | hback
      · exact Or.inl hseen
      · exact Or.inr (Or.inl (hlater.trans (List.sublist_append_right more new)))
      · exact Or.inr (Or.inr (hback.mono (List.sublist_append_right more new)))

theorem ascends_enter (h : Lists g (g.succs b) { s with seen := b :: s.seen } r new) {x : BlockId}
    (hx : x ∈ b :: new) : g.AscendsIn (b :: new) b x := by
  rcases List.mem_cons.1 hx with rfl | hx
  · exact ReflTransGen.refl
  · obtain ⟨c, hc, hmem, hpath⟩ := h.ascends hx
    have hfirst : [b, c].Sublist (b :: new) := (List.singleton_sublist.2 hmem).cons_cons b
    exact ReflTransGen.head ⟨hc, hfirst⟩ (hpath.mono (List.sublist_cons_self b new))

theorem enter (hb : b ∉ s.seen)
    (h : Lists g (g.succs b) { s with seen := b :: s.seen } r new) :
    Lists g [b] s { r with done := b :: r.done } (b :: new) where
  done_eq := by rw [h.done_eq, List.cons_append]
  seen_iff {x} := by
    rw [h.seen_iff, List.mem_cons, List.mem_cons, or_assoc, or_left_comm]
  nodup := List.nodup_cons.2 ⟨fun hmem => h.not_seen hmem List.mem_cons_self, h.nodup⟩
  not_seen {x} hx hs := by
    rcases List.mem_cons.1 hx with rfl | hx
    · exact hb hs
    · exact h.not_seen hx (List.mem_cons_of_mem b hs)
  starts {x} hx := h.seen_iff.2 (Or.inl (List.mem_singleton.1 hx ▸ List.mem_cons_self))
  ascends {x} hx := ⟨b, List.mem_singleton_self b, List.mem_cons_self, h.ascends_enter hx⟩
  edges {x y} hx hy := by
    -- an edge to the block itself or to one that is not left yet leads back
    have hback : y ∈ b :: s.seen → y ∈ s.seen ∨ [x, y].Sublist (b :: new) ∨
        g.AscendsIn (b :: new) y x := by
      intro hseen
      rcases List.mem_cons.1 hseen with rfl | hseen
      · exact Or.inr (Or.inr (h.ascends_enter hx))
      · exact Or.inl hseen
    rcases List.mem_cons.1 hx with rfl | hx
    · rcases h.seen_iff.1 (h.starts hy) with hseen | hnew
      · exact hback hseen
      · exact Or.inr (Or.inl ((List.singleton_sublist.2 hnew).cons_cons x))
    · rcases h.edges hx hy with hseen | hlater | hpath
      · exact hback hseen
      · exact Or.inr (Or.inl (hlater.cons b))
      · exact Or.inr (Or.inr (hpath.mono (List.sublist_cons_self b new)))

end Lists

end Search

theorem lists_order (g : Graph) :
    ∃ r, Search.Lists g [g.entry] ⟨[], []⟩ r g.order := by
  have hcard : (Search.unseen g ⟨[], []⟩).card < g.blocks.size + 1 := by simp [Search.unseen]
  have hlists := searchWithin_induction (g := g)
    (C := fun bs s r => ∃ new, Search.Lists g bs s r new)
    (by rintro _ _ _ ⟨_, h⟩ _ hx; exact h.seen_iff.2 (Or.inl hx))
    (fun s => ⟨[], .nil g s fun h => absurd h List.not_mem_nil⟩)
    (fun hb => ⟨[], .nil g _ fun h => List.mem_singleton.1 h ▸ hb⟩)
    (by rintro _ _ _ _ _ ⟨_, h⟩ ⟨_, h'⟩; exact ⟨_, h.append h'⟩)
    (by rintro _ _ _ hb ⟨_, h⟩; exact ⟨_, h.enter hb⟩)
    (g.blocks.size + 1) g.entry ⟨[], []⟩ hcard
  obtain ⟨new, hnew⟩ := hlists
  have horder : g.order = new := by rw [order, hnew.done_eq, List.append_nil]
  exact ⟨_, horder ▸ hnew⟩

theorem nodup_order (g : Graph) : g.order.Nodup := by
  obtain ⟨r, h⟩ := g.lists_order
  exact h.nodup

theorem ascendsIn_order {g : Graph} {b : BlockId} (hb : b ∈ g.order) :
    g.AscendsIn g.order g.entry b := by
  obtain ⟨r, hlists⟩ := g.lists_order
  obtain ⟨c, hc, -, hpath⟩ := hlists.ascends hb
  rwa [List.mem_singleton.1 hc] at hpath

theorem sublist_or_ascendsIn_order {g : Graph} {a b : BlockId} (ha : a ∈ g.order)
    (hedge : b ∈ g.succs a) : [a, b].Sublist g.order ∨ g.AscendsIn g.order b a := by
  obtain ⟨r, hlists⟩ := g.lists_order
  cases hlists.edges ha hedge with
  | inl hseen => exact absurd hseen List.not_mem_nil
  | inr h => exact h

theorem exists_pred_of_mem_order {g : Graph} {b : BlockId} (hb : b ∈ g.order) (hne : b ≠ g.entry) :
    ∃ p, b ∈ g.succs p ∧ [p, b].Sublist g.order := by
  cases ReflTransGen.cases_tail (ascendsIn_order hb) with
  | inl hself => exact absurd hself hne
  | inr hlast =>
      obtain ⟨p, -, hedge⟩ := hlast
      exact ⟨p, hedge⟩

def place (g : Graph) (b : BlockId) : Nat := g.order.idxOf b

theorem place_lt_of_sublist {g : Graph} {a b : BlockId} (h : [a, b].Sublist g.order) :
    g.place a < g.place b := by
  obtain ⟨front, back, horder, ha, hb⟩ := List.cons_sublist_iff.1 h
  have hfront : b ∉ front := by
    intro hmem
    have hnodup := g.nodup_order
    rw [horder] at hnodup
    exact (List.nodup_append.1 hnodup).2.2 b hmem b (List.singleton_sublist.1 hb) rfl
  rw [place, place, horder, List.idxOf_append_of_mem ha, List.idxOf_append_of_notMem hfront]
  exact Nat.lt_add_right _ (List.idxOf_lt_length_of_mem ha)

def Ascends (g : Graph) : BlockId → BlockId → Prop :=
  ReflTransGen fun p b => b ∈ g.succs p ∧ g.place p < g.place b

section Places

variable {g : Graph} {a b c : BlockId}

theorem AscendsIn.ascends (h : g.AscendsIn g.order a b) : g.Ascends a b :=
  ReflTransGen.mono (fun _ _ hedge => ⟨hedge.1, place_lt_of_sublist hedge.2⟩) _ _ h

theorem Ascends.place_le (h : g.Ascends a b) : g.place a ≤ g.place b := by
  induction h with
  | refl => exact Nat.le_refl _
  | tail _ hedge ih => exact Nat.le_trans ih (Nat.le_of_lt hedge.2)

theorem Ascends.reachable (h : g.Ascends a b) (ha : g.Reachable a) : g.Reachable b := by
  induction h with
  | refl => exact ha
  | tail _ hedge ih => exact ih.step hedge.1

theorem Reachable.ascends (h : g.Reachable b) : g.Ascends g.entry b :=
  (ascendsIn_order (mem_order_iff.2 h)).ascends

/-- An edge leads to a later place, or back to a block from which places ascend. -/
theorem Reachable.place_lt_or_ascends (h : g.Reachable a) (hedge : b ∈ g.succs a) :
    g.place a < g.place b ∨ g.Ascends b a := by
  cases sublist_or_ascendsIn_order (mem_order_iff.2 h) hedge with
  | inl hlater => exact Or.inl (place_lt_of_sublist hlater)
  | inr hback => exact Or.inr hback.ascends

theorem Reachable.exists_pred_place_lt (h : g.Reachable b) (hb : b ≠ g.entry) :
    ∃ p, g.Reachable p ∧ b ∈ g.succs p ∧ g.place p < g.place b := by
  obtain ⟨p, hedge, hbefore⟩ := exists_pred_of_mem_order (mem_order_iff.2 h) hb
  have hp : p ∈ g.order := hbefore.subset List.mem_cons_self
  exact ⟨p, mem_order_iff.1 hp, hedge, place_lt_of_sublist hbefore⟩

end Places

/-! ## Parts that are entered from one block -/

/-- The entry is not in the set, and edges into it start in it or in the block `c`. -/
structure EnteredFrom (g : Graph) (c : BlockId) (part : Set BlockId) : Prop where
  entry_notMem : g.entry ∉ part
  source : ∀ {p b}, b ∈ part → b ∈ g.succs p → p ∈ part ∨ p = c

namespace EnteredFrom

variable {g : Graph} {a b c : BlockId} {part whole : Set BlockId}

theorem reachable_and_place_lt (h : g.EnteredFrom c part) (hb : b ∈ part) (hreach : g.Reachable b) :
    g.Reachable c ∧ g.place c < g.place b := by
  have hpath := hreach.ascends
  induction hpath with
  | refl => exact absurd hb h.entry_notMem
  | @tail p b hpath hedge ih =>
      rcases h.source hb hedge.1 with hp | rfl
      · obtain ⟨hc, hlt⟩ := ih hp (Ascends.reachable hpath .entry)
        exact ⟨hc, Nat.lt_trans hlt hedge.2⟩
      · exact ⟨Ascends.reachable hpath .entry, hedge.2⟩

theorem place_le_of_ascends (h : g.EnteredFrom c part) (ha : a ∉ part) (hb : b ∈ part)
    (hpath : g.Ascends a b) : g.place a ≤ g.place c := by
  induction hpath with
  | refl => exact absurd hb ha
  | @tail p b hpath hedge ih =>
      rcases h.source hb hedge.1 with hp | rfl
      · exact ih hp
      · exact Ascends.place_le hpath

/-- An edge out of a part leads to a later place if what it leads to is entered from the same
block as the part. -/
theorem place_lt_of_edge (hpart : g.EnteredFrom c part) (hwhole : g.EnteredFrom c whole)
    (ha : a ∈ part) (hb : b ∉ part) (hb' : b ∈ whole) (hreach : g.Reachable a)
    (hedge : b ∈ g.succs a) : g.place a < g.place b := by
  rcases hreach.place_lt_or_ascends hedge with hlt | hback
  · exact hlt
  · -- the way back to the part would pass its entrance, which comes before the whole
    have hle := hpart.place_le_of_ascends hb ha hback
    have hlt := (hwhole.reachable_and_place_lt hb' (hreach.step hedge)).2
    exact absurd hlt (Nat.not_lt_of_le hle)

end EnteredFrom

end Graph

end Disclosure
