import Disclosure.Proofs.Analysis.Convergence
import Disclosure.Proofs.Dataflow.Invariant

/-!
# What the analysis keeps

An operation changes the memory only by the entries that an assignment writes, `g.updatesOf`.  So
what is to hold of all memories is shown once for these entries.

An invariant of the analysis is a kind of recorded classes together with a kind of memories that the
visit of a node does not lead out of, in the blocks that control comes to.  Every memory that the
analysis reports is of the kind, and every class that it reports is read from recorded classes of
the kind.  This holds of all graphs and for all bounds: the analysis need not be completed, and a
block may be visited any number of times before the second pass goes through it.
-/

namespace Disclosure

/-! ## What an operation writes -/

namespace Graph

variable {g : Graph} {v : Values} {target : NodeId} {s : Sensitivity} {b : Memory.Batch}

def located (g : Graph) (n : NodeId) (s : Sensitivity) : List (Location × Sensitivity) :=
  (g.locationOf? n).toList.map fun l => (l, s)

/-- The entries that an assignment of a value of class `s` to a target writes, in order. -/
def updatesAt (g : Graph) (v : Values) (target : NodeId) (s : Sensitivity) :
    List (Location × Sensitivity) :=
  match g.node? target with
  | none => []
  | some node =>
      match node.op with
      | .var id => [(.var id, s)]
      | .element array _ => g.located array ((v.read array).join s)
      | .field (some receiver) _ false =>
          g.located target s ++ g.located receiver ((v.read receiver).join s)
      | .field _ _ _ => g.located target s
      | _ => []

def updatesOf (g : Graph) (v : Values) : Operation → List (Location × Sensitivity)
  | .assignment target value => g.updatesAt v target (v.read value)
  | _ => []

theorem map_fst_located (n : NodeId) :
    (g.located n s).map Prod.fst = (g.locationOf? n).toList := by
  simp [located, Function.comp_def]

theorem snd_of_mem_located {n : NodeId} {e : Location × Sensitivity} (h : e ∈ g.located n s) :
    e.2 = s := by
  obtain ⟨l, -, rfl⟩ := List.mem_map.1 h
  rfl

theorem close_writeTo (n : NodeId) :
    (g.writeTo n s b).close = b.close.insertAll (g.located n s) := by
  unfold writeTo located
  cases g.locationOf? n with
  | none => rfl
  | some l => exact b.close_write l s

theorem close_writes :
    (g.writes v target s b).close = b.close.insertAll (g.updatesAt v target s) := by
  unfold writes updatesAt
  cases g.node? target with
  | none => rfl
  | some node =>
      obtain ⟨id, block, op⟩ := node
      cases op with
      | var id => exact b.close_write _ s
      | element array index => exact close_writeTo array
      | field receiver id isStatic =>
          cases receiver with
          | none => exact close_writeTo target
          | some receiver =>
              cases isStatic with
              | true => exact close_writeTo target
              | false =>
                  simp only
                  rw [close_writeTo, close_writeTo, Table.insertAll_append]
      | _ => rfl

theorem execute_eq_insertAll (m : Memory) (op : Operation) :
    g.execute m v op = m.insertAll (g.updatesOf v op) := by
  cases op with
  | assignment target value => exact close_writes
  | _ => rfl

theorem map_fst_updatesAt : (g.updatesAt v target s).map Prod.fst = g.writtenAt target := by
  unfold updatesAt writtenAt
  cases g.node? target with
  | none => rfl
  | some node =>
      obtain ⟨id, block, op⟩ := node
      cases op with
      | var id => rfl
      | element array index => exact map_fst_located array
      | field receiver id isStatic =>
          cases receiver with
          | none => exact map_fst_located target
          | some receiver =>
              cases isStatic with
              | true => exact map_fst_located target
              | false =>
                  simp only [List.map_append]
                  rw [map_fst_located, map_fst_located]
      | _ => rfl

theorem map_fst_updatesOf (node : Node) :
    (g.updatesOf v node.op).map Prod.fst = g.writtenBy node := by
  unfold updatesOf writtenBy
  cases node.op with
  | assignment target value => exact map_fst_updatesAt
  | _ => rfl

/-- What is written is the class of the value, or that class joined with the one of the array or the
object that the value is written into. -/
theorem snd_of_mem_updatesAt {e : Location × Sensitivity} (h : e ∈ g.updatesAt v target s) :
    e.2 = s ∨ ∃ n, e.2 = (v.read n).join s := by
  unfold updatesAt at h
  cases hnode : g.node? target with
  | none =>
      rw [hnode] at h
      exact absurd h List.not_mem_nil
  | some node =>
      obtain ⟨id, block, op⟩ := node
      rw [hnode] at h
      cases op with
      | var id => exact Or.inl (by rw [List.mem_singleton.1 h])
      | element array index => exact Or.inr ⟨array, snd_of_mem_located h⟩
      | field receiver id isStatic =>
          cases receiver with
          | none => exact Or.inl (snd_of_mem_located h)
          | some receiver =>
              cases isStatic with
              | true => exact Or.inl (snd_of_mem_located h)
              | false =>
                  cases List.mem_append.1 h with
                  | inl hfield => exact Or.inl (snd_of_mem_located hfield)
                  | inr hobject => exact Or.inr ⟨receiver, snd_of_mem_located hobject⟩
      | _ => exact absurd h List.not_mem_nil

end Graph

/-! ## From the visit of a node to the analysis -/

/-- The memories that an outcome gives: on entry to a block, after a node, and on entry to the
exit. -/
inductive Outcome.Reports (o : Outcome) : Memory → Prop where
  | entry {b : BlockId} {m : Memory} (h : Outcome.atEntry? o b = some m) : o.Reports m
  | after {n : NodeId} {m : Memory} (h : o.after? n = some m) : o.Reports m
  | exit {m : Memory} (h : o.atExit = some m) : o.Reports m

structure Replay.Holds (V : Values → Prop) (M : Memory → Prop) (r : Replay) : Prop where
  values : V r.values
  findings : ∀ {n f}, r.findings.get? n = some f → M f.after ∧ ∃ v, V v ∧ f.value = v.read n

namespace Scope

variable {sc : Scope} {g : Graph} {V : Values → Prop} {M : Memory → Prop}

/-- Visits of nodes lead from recorded classes of the kind `V` and memories of the kind `M` to such
classes and memories. -/
structure Maintains (sc : Scope) (g : Graph) (V : Values → Prop) (M : Memory → Prop) : Prop where
  values_empty : V ∅
  entry : M (sc.entryMemory g)
  join : ∀ {m m'}, M m → M m' → M (m.join m')
  visit : ∀ {b block node pt}, g.Reachable b → g.block? b = some block →
    node ∈ g.nodesOf block → V pt.values → M pt.memory →
    V (sc.visitNode g pt node).values ∧ M (sc.visitNode g pt node).memory

namespace Maintains

variable (h : sc.Maintains g V M)

include h

theorem foldl_join {ms : List Memory} (hms : ∀ m ∈ ms, M m) {start : Memory} (hstart : M start) :
    M (ms.foldl Memory.join start) := by
  induction ms generalizing start with
  | nil => exact hstart
  | cons m rest ih =>
      apply ih
      · exact fun m' hm' => hms m' (List.mem_cons_of_mem m hm')
      · exact h.join hstart (hms m List.mem_cons_self)

theorem visitNodes {b : BlockId} {block : Block} (hb : g.Reachable b)
    (hblock : g.block? b = some block) {nodes : List Node} (hnodes : nodes ⊆ g.nodesOf block)
    {pt : Point} (hvalues : V pt.values) (hmemory : M pt.memory) :
    V (nodes.foldl (sc.visitNode g) pt).values ∧ M (nodes.foldl (sc.visitNode g) pt).memory := by
  induction nodes generalizing pt with
  | nil => exact ⟨hvalues, hmemory⟩
  | cons node rest ih =>
      have hvisit := h.visit hb hblock (hnodes List.mem_cons_self) hvalues hmemory
      exact ih (fun n hn => hnodes (List.mem_cons_of_mem node hn)) hvisit.1 hvisit.2

theorem dataflow : (sc.dataflow g).Maintains g V M where
  initial _ := h.entry
  join {st xs} _ hne hxs := by
    cases xs with
    | nil => exact absurd rfl hne
    | cons m rest =>
        exact h.foldl_join (fun m' hm' => hxs m' (List.mem_cons_of_mem m hm'))
          (hxs m List.mem_cons_self)
  transfer hb hblock hst hx :=
    (h.visitNodes hb hblock (List.Subset.refl _) hst hx).symm

theorem replayNodes {b : BlockId} {block : Block} (hb : g.Reachable b)
    (hblock : g.block? b = some block) {nodes : List Node} (hnodes : nodes ⊆ g.nodesOf block)
    {r : Replay} {m : Memory} (hr : r.Holds V M) (hm : M m) :
    (nodes.foldl (sc.replayNode g) (r, m)).1.Holds V M := by
  induction nodes generalizing r m with
  | nil => exact hr
  | cons node rest ih =>
      have hvisit : V (sc.visitNode g ⟨r.values, m⟩ node).values ∧
          M (sc.visitNode g ⟨r.values, m⟩ node).memory :=
        h.visit hb hblock (hnodes List.mem_cons_self) hr.values hm
      rw [List.foldl_cons, replayNode]
      apply ih
      · exact fun n hn => hnodes (List.mem_cons_of_mem node hn)
      · exact ⟨hvisit.1, fun hf => Table.of_get?_insert
          (P := fun n f => M f.after ∧ ∃ v, V v ∧ f.value = v.read n) hf
          ⟨hvisit.2, _, hvisit.1, rfl⟩ hr.findings⟩
      · exact hvisit.2

theorem replayBlocks {entries : Table BlockId Memory}
    (hentries : ∀ {b m}, entries.get? b = some m → M m) {bs : List BlockId}
    (hbs : ∀ b ∈ bs, g.Reachable b) {r : Replay} (hr : r.Holds V M) :
    (bs.foldl (sc.replayBlock g entries) r).Holds V M := by
  induction bs generalizing r with
  | nil => exact hr
  | cons b rest ih =>
      rw [List.foldl_cons]
      apply ih
      · exact fun c hc => hbs c (List.mem_cons_of_mem b hc)
      · unfold replayBlock
        split
        · rename_i block m hblock hm
          exact h.replayNodes (hbs b List.mem_cons_self) hblock (List.Subset.refl _) hr
            (hentries hm)
        · exact hr

variable (bound : Nat)

theorem of_entries {b : BlockId} {m : Memory}
    (hm : Outcome.atEntry? (sc.analyze g bound) b = some m) : M m :=
  (h.dataflow.run h.values_empty bound).before hm

theorem of_findings {n : NodeId} {f : Finding}
    (hf : (sc.analyze g bound).findings.get? n = some f) :
    M f.after ∧ ∃ v, V v ∧ f.value = v.read n := by
  have hsolved := h.dataflow.run h.values_empty bound
  have hstart : (⟨((sc.dataflow g).solve g bound ∅).state, ∅⟩ : Replay).Holds V M :=
    ⟨hsolved.state, fun hn => by cases hn⟩
  have horder : ∀ b ∈ g.order, g.Reachable b := fun b hb => Graph.mem_order_iff.1 hb
  exact (h.replayBlocks hsolved.before horder hstart).findings hf

theorem of_reports {m : Memory} (hm : (sc.analyze g bound).Reports m) : M m := by
  cases hm with
  | entry hm => exact h.of_entries bound hm
  | after hm =>
      obtain ⟨f, hf, rfl⟩ := Option.map_eq_some_iff.1 hm
      exact (h.of_findings bound hf).1
  | exit hm => exact h.of_entries bound hm

/-- The class that the analysis reports for a node is `unknown`, or it is read from recorded classes
of the kind. -/
theorem of_valueOf (n : NodeId) :
    (sc.analyze g bound).valueOf n = .unknown ∨
      ∃ v, V v ∧ (sc.analyze g bound).valueOf n = v.read n := by
  unfold Outcome.valueOf
  cases hf : (sc.analyze g bound).findings.get? n with
  | none => exact Or.inl rfl
  | some f => exact Or.inr (h.of_findings bound hf).2

end Maintains

end Scope

end Disclosure
