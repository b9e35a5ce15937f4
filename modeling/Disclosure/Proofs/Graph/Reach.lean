import Disclosure.Graph.Order
import Mathlib.Data.Finset.Range
import Mathlib.Data.Finset.Card

/-!
# What the search reaches

`g.Reachable b` says that control can come from the entry to the number `b` along successor lists.
The number need not be that of a block.  `g.order` lists exactly these numbers.

A search is described by what it adds to a given one: everything it starts from is seen, whatever
is seen in addition has all its successors seen, and it is listed.  These descriptions compose, so
a search from one block is put together from the searches from its successors.  The depth is no
restriction, because each block that is entered is one that was not seen.
-/

namespace Disclosure

namespace Graph

/-- Control can come to this number from the entry. -/
inductive Reachable (g : Graph) : BlockId → Prop where
  | entry : g.Reachable g.entry
  | step {p b : BlockId} : g.Reachable p → b ∈ g.succs p → g.Reachable b

theorem mem_succs_iff {g : Graph} {p b : BlockId} :
    b ∈ g.succs p ↔ ∃ block, g.block? p = some block ∧ b ∈ block.succs := by
  cases h : g.block? p with
  | none => simp [succs, h]
  | some block => simp [succs, h]

theorem succs_eq_nil_of_size_le {g : Graph} {b : BlockId} (h : g.blocks.size ≤ b) :
    g.succs b = [] := by
  simp [succs, block?, Array.getElem?_eq_none h]

namespace Search

/-- A search from the numbers `bs` has led from `s` to `r`. -/
structure Covers (g : Graph) (bs : List BlockId) (s r : Search) : Prop where
  seen_of_seen : ∀ {x}, x ∈ s.seen → x ∈ r.seen
  seen_of_mem : ∀ {b}, b ∈ bs → b ∈ r.seen
  closed : ∀ {x}, x ∈ r.seen → x ∉ s.seen → ∀ y ∈ g.succs x, y ∈ r.seen
  done_iff : ∀ {x}, x ∈ r.done ↔ x ∈ s.done ∨ x ∈ r.seen ∧ x ∉ s.seen

namespace Covers

theorem nil (g : Graph) (s : Search) : Covers g [] s s where
  seen_of_seen h := h
  seen_of_mem h := absurd h List.not_mem_nil
  closed h hn := absurd h hn
  done_iff := by simp

theorem seen {g : Graph} {b : BlockId} {s : Search} (h : b ∈ s.seen) : Covers g [b] s s where
  seen_of_seen h := h
  seen_of_mem hb := List.mem_singleton.1 hb ▸ h
  closed h hn := absurd h hn
  done_iff := by simp

theorem append {g : Graph} {bs cs : List BlockId} {s r t : Search} (h : Covers g bs s r)
    (h' : Covers g cs r t) : Covers g (bs ++ cs) s t where
  seen_of_seen hx := h'.seen_of_seen (h.seen_of_seen hx)
  seen_of_mem hb := by
    rcases List.mem_append.1 hb with hb | hb
    · exact h'.seen_of_seen (h.seen_of_mem hb)
    · exact h'.seen_of_mem hb
  closed {x} hx hn := by
    intro y hy
    by_cases hr : x ∈ r.seen
    · exact h'.seen_of_seen (h.closed hr hn y hy)
    · exact h'.closed hx hr y hy
  done_iff {x} := by
    have hsr := h.seen_of_seen (x := x)
    have hrt := h'.seen_of_seen (x := x)
    rw [h'.done_iff, h.done_iff]
    by_cases hs : x ∈ s.seen
    · simp [hs, hsr hs]
    · by_cases hr : x ∈ r.seen
      · simp [hs, hr, hrt hr]
      · simp [hs, hr]

theorem enter {g : Graph} {b : BlockId} {s r : Search} (hb : b ∉ s.seen)
    (h : Covers g (g.succs b) { s with seen := b :: s.seen } r) :
    Covers g [b] s { r with done := b :: r.done } where
  seen_of_seen hx := h.seen_of_seen (List.mem_cons_of_mem b hx)
  seen_of_mem hc := h.seen_of_seen (List.mem_singleton.1 hc ▸ List.mem_cons_self)
  closed {x} hx hn := by
    intro y hy
    by_cases hxb : x = b
    · subst hxb
      exact h.seen_of_mem hy
    · exact h.closed hx (by simp [hxb, hn]) y hy
  done_iff {x} := by
    have hself : b ∈ r.seen := h.seen_of_seen List.mem_cons_self
    simp only [List.mem_cons, h.done_iff, not_or]
    by_cases hxb : x = b
    · subst hxb
      simp [hself, hb]
    · simp [hxb]

end Covers

def unseen (g : Graph) (s : Search) : Finset BlockId :=
  (Finset.range g.blocks.size).filter (· ∉ s.seen)

theorem unseen_subset {g : Graph} {s r : Search} (h : ∀ {x}, x ∈ s.seen → x ∈ r.seen) :
    r.unseen g ⊆ s.unseen g := by
  intro x hx
  rw [unseen, Finset.mem_filter] at hx ⊢
  exact ⟨hx.1, fun hs => hx.2 (h hs)⟩

theorem card_unseen_enter_lt {g : Graph} {s : Search} {b : BlockId} (hb : b ∉ s.seen)
    (hlt : b < g.blocks.size) :
    (unseen g { s with seen := b :: s.seen }).card < (s.unseen g).card := by
  refine Finset.card_lt_card (Finset.ssubset_iff_of_subset ?_ |>.2 ⟨b, ?_, ?_⟩)
  · exact unseen_subset fun hx => List.mem_cons_of_mem b hx
  · simp [unseen, hb, hlt]
  · simp [unseen]

end Search

open Search

section Induction

variable {g : Graph} {C : List BlockId → Search → Search → Prop}
  (hmono : ∀ {bs s r}, C bs s r → ∀ {x}, x ∈ s.seen → x ∈ r.seen)
  (hnil : ∀ s, C [] s s)
  (hseen : ∀ {b s}, b ∈ s.seen → C [b] s s)
  (happend : ∀ {bs cs s r t}, C bs s r → C cs r t → C (bs ++ cs) s t)
  (henter : ∀ {b s r}, b ∉ s.seen → C (g.succs b) { s with seen := b :: s.seen } r →
    C [b] s { r with done := b :: r.done })

include hmono hnil happend in
theorem foldl_searchWithin_induction {depth : Nat}
    (ih : ∀ b s, (s.unseen g).card < depth → C [b] s (g.searchWithin depth b s)) :
    ∀ (bs : List BlockId) (s : Search), (s.unseen g).card < depth →
      C bs s (bs.foldl (fun s next => g.searchWithin depth next s) s) := by
  intro bs
  induction bs with
  | nil => exact fun s _ => hnil s
  | cons b rest ihrest =>
      intro s hs
      have hfirst := ih b s hs
      have hcard := Finset.card_le_card (unseen_subset (g := g) (hmono hfirst))
      exact happend hfirst (ihrest _ (hcard.trans_lt hs))

include hmono hnil hseen happend henter in
/-- A description of searches that is kept when searches are put together and when a block is
entered applies to every search with fewer blocks not seen than may be entered inside each
other. -/
theorem searchWithin_induction (depth : Nat) :
    ∀ (b : BlockId) (s : Search), (s.unseen g).card < depth →
      C [b] s (g.searchWithin depth b s) := by
  induction depth with
  | zero => exact fun b s h => absurd h (Nat.not_lt_zero _)
  | succ depth ih =>
      intro b s hs
      rw [searchWithin]
      by_cases hb : b ∈ s.seen
      · rw [if_pos hb]
        exact hseen hb
      · rw [if_neg hb]
        refine henter hb ?_
        by_cases hlt : b < g.blocks.size
        · have hcard := card_unseen_enter_lt hb hlt
          exact foldl_searchWithin_induction (C := C) hmono hnil happend ih _ _ (by omega)
        · -- a number without a block has no successors, so nothing is entered inside it
          rw [succs_eq_nil_of_size_le (Nat.le_of_not_lt hlt)]
          exact hnil _

end Induction

theorem searchWithin_covers {g : Graph} (depth : Nat) :
    ∀ (b : BlockId) (s : Search), (s.unseen g).card < depth →
      Covers g [b] s (g.searchWithin depth b s) :=
  searchWithin_induction (C := Covers g) Covers.seen_of_seen (Covers.nil g) Covers.seen
    Covers.append Covers.enter depth

theorem foldl_searchWithin_reachable {g : Graph} {depth : Nat}
    (ih : ∀ b s, g.Reachable b → (∀ x ∈ s.done, g.Reachable x) →
      ∀ x ∈ (g.searchWithin depth b s).done, g.Reachable x) :
    ∀ (bs : List BlockId) (s : Search), (∀ b ∈ bs, g.Reachable b) →
      (∀ x ∈ s.done, g.Reachable x) →
      ∀ x ∈ (bs.foldl (fun s next => g.searchWithin depth next s) s).done, g.Reachable x := by
  intro bs
  induction bs with
  | nil => exact fun s _ hs => hs
  | cons b rest ihrest =>
      intro s hbs hs
      have hfirst := ih b s (hbs b List.mem_cons_self) hs
      exact ihrest _ (fun c hc => hbs c (List.mem_cons_of_mem b hc)) hfirst

theorem searchWithin_reachable {g : Graph} (depth : Nat) :
    ∀ (b : BlockId) (s : Search), g.Reachable b → (∀ x ∈ s.done, g.Reachable x) →
      ∀ x ∈ (g.searchWithin depth b s).done, g.Reachable x := by
  induction depth with
  | zero => exact fun b s _ hs => hs
  | succ depth ih =>
      intro b s hb hs
      rw [searchWithin]
      split
      · exact hs
      · intro x hx
        rcases List.mem_cons.1 hx with rfl | hx
        · exact hb
        · exact foldl_searchWithin_reachable ih (g.succs b) { s with seen := b :: s.seen }
            (fun c hc => hb.step hc) hs x hx

/-- The order lists what can be reached, and nothing else. -/
theorem mem_order_iff {g : Graph} {b : BlockId} : b ∈ g.order ↔ g.Reachable b := by
  constructor
  · exact searchWithin_reachable _ g.entry ⟨[], []⟩ .entry (by simp) b
  · intro hb
    have hcard : (unseen g ⟨[], []⟩).card < g.blocks.size + 1 := by simp [unseen]
    have hcovers := searchWithin_covers (g.blocks.size + 1) g.entry ⟨[], []⟩ hcard
    have hseen : b ∈ (g.searchWithin (g.blocks.size + 1) g.entry ⟨[], []⟩).seen := by
      induction hb with
      | entry => exact hcovers.seen_of_mem List.mem_cons_self
      | step _ hnext ih => exact hcovers.closed ih List.not_mem_nil _ hnext
    exact hcovers.done_iff.2 (Or.inr ⟨hseen, List.not_mem_nil⟩)

end Graph

end Disclosure
