import Disclosure.Proofs.Graph.Precedence

/-!
# What stays first when a graph grows

While a graph is built, it can be known of a block that no more edges will lead to it, although the
rest of the graph is still to come.  `g.Grows closed g'` says that `g'` has more edges than `g`, but
none that leads into `closed`.  A statement about the order of the finished graph is therefore made
for all graphs that the graph at hand may grow to: `g.Prior closed a b` says that in all of them
control comes to `b` only if it comes to `a`, which is not later in the order.
-/

namespace Disclosure

namespace Graph

open Relation (ReflTransGen)

def Leads (g : Graph) : BlockId → BlockId → Prop := ReflTransGen fun p b => b ∈ g.succs p

/-- The second graph has the edges of the first and perhaps more, but none that leads into the given
set. -/
structure Grows (closed : Set BlockId) (g g' : Graph) : Prop where
  entry_eq : g'.entry = g.entry
  succs_subset : ∀ p, g.succs p ⊆ g'.succs p
  source : ∀ {p b}, b ∈ closed → b ∈ g'.succs p → b ∈ g.succs p

section Growth

variable {g g' g'' : Graph} {closed closed' part whole : Set BlockId} {a b c : BlockId}

theorem Grows.refl (closed : Set BlockId) (g : Graph) : g.Grows closed g :=
  ⟨rfl, fun _ => List.Subset.refl _, fun _ h => h⟩

theorem Grows.trans (h : g.Grows closed g') (h' : g'.Grows closed g'') : g.Grows closed g'' :=
  ⟨h'.entry_eq.trans h.entry_eq, fun p => List.Subset.trans (h.succs_subset p) (h'.succs_subset p),
    fun hb hedge => h.source hb (h'.source hb hedge)⟩

theorem Grows.mono (h : g.Grows closed g') (hsub : closed' ⊆ closed) : g.Grows closed' g' :=
  ⟨h.entry_eq, h.succs_subset, fun hb => h.source (hsub hb)⟩

theorem Leads.grows (h : g.Leads a b) (hsub : ∀ p, g.succs p ⊆ g'.succs p) : g'.Leads a b :=
  ReflTransGen.mono (fun p _ hedge => hsub p hedge) _ _ h

theorem Reachable.leads (ha : g.Reachable a) (h : g.Leads a b) : g.Reachable b := by
  induction h with
  | refl => exact ha
  | tail _ hedge ih => exact ih.step hedge

theorem EnteredFrom.grows (h : g.EnteredFrom c part) (hg : g.Grows closed g')
    (hpart : part ⊆ closed) : g'.EnteredFrom c part where
  entry_notMem := hg.entry_eq ▸ h.entry_notMem
  source hb hedge := h.source hb (hg.source (hpart hb) hedge)

/-- However the graph grows, control comes to `b` only if it comes to `a`, which is not later in the
order. -/
def Prior (g : Graph) (closed : Set BlockId) (a b : BlockId) : Prop :=
  ∀ g', g.Grows closed g' → g'.Reachable b → g'.Reachable a ∧ g'.place a ≤ g'.place b

theorem Prior.refl (g : Graph) (closed : Set BlockId) (a : BlockId) : g.Prior closed a a :=
  fun _ _ hreach => ⟨hreach, Nat.le_refl _⟩

theorem Prior.trans (h : g.Prior closed a b) (h' : g.Prior closed b c) : g.Prior closed a c := by
  intro g' hg hreach
  obtain ⟨hb, hle'⟩ := h' g' hg hreach
  obtain ⟨ha, hle⟩ := h g' hg hb
  exact ⟨ha, Nat.le_trans hle hle'⟩

theorem Prior.grows (h : g.Prior closed a b) (hg : g.Grows closed g') : g'.Prior closed a b :=
  fun g'' hg' hreach => h g'' (hg.trans hg') hreach

theorem Prior.mono (h : g.Prior closed a b) (hsub : closed ⊆ closed') : g.Prior closed' a b :=
  fun g' hg hreach => h g' (hg.mono hsub) hreach

theorem EnteredFrom.prior (h : g.EnteredFrom c part) (hpart : part ⊆ closed) (hb : b ∈ part) :
    g.Prior closed c b := by
  intro g' hg hreach
  obtain ⟨hc, hlt⟩ := (h.grows hg hpart).reachable_and_place_lt hb hreach
  exact ⟨hc, Nat.le_of_lt hlt⟩

/-- Where the ways through parts meet that are entered from one block, the end of each way is
prior. -/
theorem EnteredFrom.prior_of_edge (hpart : g.EnteredFrom c part) (hwhole : g.EnteredFrom c whole)
    (hclosed : part ⊆ closed) (hclosed' : whole ⊆ closed) (ha : a ∈ part) (hb : b ∉ part)
    (hb' : b ∈ whole) (hpath : g.Leads c a) (hedge : b ∈ g.succs a) : g.Prior closed a b := by
  intro g' hg hreach
  have hpart' := hpart.grows hg hclosed
  have hwhole' := hwhole.grows hg hclosed'
  have hc := (hwhole'.reachable_and_place_lt hb' hreach).1
  have hreach' := hc.leads (hpath.grows hg.succs_subset)
  exact ⟨hreach', Nat.le_of_lt
    (hpart'.place_lt_of_edge hwhole' ha hb hb' hreach' (hg.succs_subset a hedge))⟩

end Growth

/-- The operands of every node exist, were added before it, and are in blocks that are prior to the
block of the node. -/
def OperandsPrior (g : Graph) (closed : Set BlockId) : Prop :=
  ∀ n node, g.node? n = some node → ∀ o ∈ node.op.operands, o < n ∧
    ∃ onode, g.node? o = some onode ∧ g.Prior closed onode.block node.block

namespace OperandsPrior

variable {g g' : Graph} {closed closed' : Set BlockId}

theorem grows (h : g.OperandsPrior closed) (hg : g.Grows closed g')
    (hnode : ∀ n, g'.node? n = g.node? n) : g'.OperandsPrior closed := by
  intro n node hn o ho
  rw [hnode] at hn
  obtain ⟨hlt, onode, honode, hprior⟩ := h n node hn o ho
  exact ⟨hlt, onode, (hnode o).trans honode, hprior.grows hg⟩

theorem mono (h : g.OperandsPrior closed) (hsub : closed ⊆ closed') : g.OperandsPrior closed' := by
  intro n node hn o ho
  obtain ⟨hlt, onode, honode, hprior⟩ := h n node hn o ho
  exact ⟨hlt, onode, honode, hprior.mono hsub⟩

end OperandsPrior

end Graph

end Disclosure
