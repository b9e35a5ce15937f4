import Disclosure.Proofs.Effect
import Disclosure.Proofs.Lowering.Runs
import Disclosure.Proofs.Program.Evaluation
import Disclosure.Proofs.Program.Shape

/-!
# The nodes of an expression do what its tree says

An expression without conditionals is lowered to nodes of the current block, and nothing else is
changed.  To visit these nodes in order, from any memory and whatever classes were recorded before,
gives the last of them the class that the evaluation of the tree gives, and leaves the same memory.

The nodes refer to each other by number, so what was evaluated is found again later: its class where
it was recorded, its location by following receivers, and for a target of an assignment what is to
be written.  `Holds` says this of one node, and it stays true while more nodes are visited.
-/

namespace Disclosure

namespace Graph

def IsPart (g g' : Graph) : Prop := ∀ n node, g.node? n = some node → g'.node? n = some node

theorem IsPart.of_addNode {g g' : Graph} {b : BlockId} {op : Operation}
    (h : (g.addNode b op).IsPart g') :
    g.IsPart g' ∧ g'.node? g.nextNode = some ⟨g.nextNode, b, op⟩ := by
  refine ⟨fun n node hn => h n node ?_, h _ _ (by rw [node?_addNode, if_pos rfl])⟩
  rw [node?_addNode, if_neg (Nat.ne_of_lt (lt_nextNode_of_node? hn)), hn]

theorem exists_depth_locationOf? {g : Graph} {n : NodeId} (h : n < g.nextNode) :
    ∃ depth, n ≤ depth ∧ g.locationOf? n = g.locationWithin (depth + 1) n := by
  obtain ⟨depth, hdepth⟩ : ∃ depth, g.nextNode = depth + 1 :=
    Nat.exists_eq_add_one.2 (Nat.zero_lt_of_lt h)
  refine ⟨depth, Nat.le_of_lt_succ (Nat.lt_of_lt_of_eq h hdepth), ?_⟩
  rw [← hdepth]
  rfl

end Graph

/-- Whether an operation denotes nothing that has a location or can be assigned to. -/
def Operation.isPlain : Operation → Bool
  | .var _ | .field _ _ _ | .element _ _ | .implicitSelf | .explicitSelf => false
  | _ => true

theorem Ty.target_of_numberCast? {source target : Ty} {a b : Primitive}
    (h : source.numberCast? target = some (a, b)) : Ty.primitive b = target := by
  unfold Ty.numberCast? at h
  split at h
  · split at h
    · cases h
      rfl
    · cases h
  · cases h

namespace Lowering

variable {sc : Scope} {g : Graph} {d d' d'' : Draft} {pt pt' pt'' : Point} {n : NodeId}

/-- Nodes were added to the current block from `d` to `d'`, and to visit them from `pt` leads to
`pt'`. -/
inductive Performs (sc : Scope) (g : Graph) (d : Draft) (pt : Point) : Draft → Point → Prop where
  | refl : Performs sc g d pt d pt
  | emit {d' : Draft} {pt' : Point} (op : Operation) (h : Performs sc g d pt d' pt') :
      Performs sc g d pt { d' with graph := d'.graph.addNode d'.current op }
        (sc.visitNode g pt' ⟨d'.graph.nextNode, d'.current, op⟩)

namespace Performs

theorem trans (h : Performs sc g d pt d' pt') (h' : Performs sc g d' pt' d'' pt'') :
    Performs sc g d pt d'' pt'' := by
  induction h' with
  | refl => exact h
  | emit op _ ih => exact ih.emit op

theorem nextNode_le (h : Performs sc g d pt d' pt') : d.graph.nextNode ≤ d'.graph.nextNode := by
  induction h with
  | refl => exact Nat.le_refl _
  | emit op _ ih => simpa using Nat.le_succ_of_le ih

theorem read_eq (h : Performs sc g d pt d' pt') (hn : n < d.graph.nextNode) :
    pt'.values.read n = pt.values.read n := by
  induction h with
  | refl => rfl
  | emit op h ih =>
      have hne := Nat.ne_of_gt (Nat.lt_of_lt_of_le hn h.nextNode_le)
      rw [← ih, Scope.visitNode, Values.read_insert, if_neg hne]

theorem exists_ops (h : Performs sc g d pt d' pt') :
    ∃ ops : List Operation,
      d' = { d with graph := ops.foldl (fun g op => g.addNode d.current op) d.graph } := by
  induction h with
  | refl => exact ⟨[], rfl⟩
  | emit op _ ih =>
      obtain ⟨ops, rfl⟩ := ih
      exact ⟨ops ++ [op], by simp⟩

theorem exists_nodes (h : Performs sc g d pt d' pt') :
    ∃ nodes, d'.graph.nodes.toList = d.graph.nodes.toList ++ nodes ∧
      pt' = nodes.foldl (sc.visitNode g) pt := by
  induction h with
  | refl => exact ⟨[], (List.append_nil _).symm, rfl⟩
  | @emit d' _ op _ ih =>
      obtain ⟨nodes, hnodes, rfl⟩ := ih
      refine ⟨nodes ++ [⟨d'.graph.nextNode, d'.current, op⟩], ?_, by simp⟩
      simp [Graph.addNode, hnodes]

end Performs

structure Records (d : Draft) (pt : Point) (n : NodeId) (s : Sensitivity) : Prop where
  lt : n < d.graph.nextNode
  read_eq : pt.values.read n = s

/-- The node `n` stands for an expression that was evaluated. -/
structure Holds (g : Graph) (d : Draft) (pt : Point) (n : NodeId) (r : Evaluated) : Prop
    extends Records d pt n r.value where
  location_eq : ∀ {depth}, n ≤ depth → g.locationWithin (depth + 1) n = r.place.location?
  writes_eq : ∀ {v : Values}, (∀ k < d.graph.nextNode, v.read k = pt.values.read k) → ∀ s b,
    (g.writes v n s b).close = r.place.store s b.close

theorem Records.carry {s : Sensitivity} (h : Records d pt n s)
    (hrun : Performs sc g d pt d' pt') : Records d' pt' n s :=
  ⟨Nat.lt_of_lt_of_le h.lt hrun.nextNode_le, (hrun.read_eq h.lt).trans h.read_eq⟩

theorem Holds.carry {r : Evaluated} (h : Holds g d pt n r) (hrun : Performs sc g d pt d' pt') :
    Holds g d' pt' n r where
  toRecords := h.toRecords.carry hrun
  location_eq := h.location_eq
  writes_eq hv := h.writes_eq fun k hk => by
    rw [hv k (Nat.lt_of_lt_of_le hk hrun.nextNode_le), hrun.read_eq hk]

theorem Holds.locationOf?_eq {r : Evaluated} (h : Holds g d pt n r) (hn : n < g.nextNode) :
    g.locationOf? n = r.place.location? := by
  obtain ⟨depth, hle, hlocation⟩ := Graph.exists_depth_locationOf? hn
  exact hlocation.trans (h.location_eq hle)

/-- To visit the nodes that were added from `d` to `d'` leads from one point to another as `Q`
says. -/
def Computes (sc : Scope) (d d' : Draft) (Q : Graph → Point → Point → Prop) : Prop :=
  ∀ g, d'.graph.IsPart g → d.graph.IsPart g ∧
    ∀ pt, ∃ pt', Performs sc g d pt d' pt' ∧ Q g pt pt'

variable {Q Q' : Graph → Point → Point → Prop}

theorem Computes.refl (sc : Scope) (d : Draft) : Computes sc d d fun _ pt pt' => pt' = pt :=
  fun _ hg => ⟨hg, fun pt => ⟨pt, .refl, rfl⟩⟩

theorem Computes.mono (h : Computes sc d d' Q) (hQ : ∀ g pt pt', Q g pt pt' → Q' g pt pt') :
    Computes sc d d' Q' := by
  intro g hg
  obtain ⟨hpart, hrun⟩ := h g hg
  refine ⟨hpart, fun pt => ?_⟩
  obtain ⟨pt', hperforms, hpt'⟩ := hrun pt
  exact ⟨pt', hperforms, hQ g pt pt' hpt'⟩

theorem Computes.trans (h : Computes sc d d' Q) (h' : Computes sc d' d'' Q') :
    Computes sc d d'' fun g pt pt'' =>
      ∃ pt', Q g pt pt' ∧ Performs sc g d' pt' d'' pt'' ∧ Q' g pt' pt'' := by
  intro g hg
  obtain ⟨hpart', hrun'⟩ := h' g hg
  obtain ⟨hpart, hrun⟩ := h g hpart'
  refine ⟨hpart, fun pt => ?_⟩
  obtain ⟨pt', hperforms, hpt'⟩ := hrun pt
  obtain ⟨pt'', hperforms', hpt''⟩ := hrun' pt'
  exact ⟨pt'', hperforms.trans hperforms', pt', hpt', hperforms', hpt''⟩

theorem Computes.emit (h : Computes sc d d' Q) (op : Operation) :
    Ensures d' (Lowering.emit op) fun n d'' => Computes sc d d'' fun g pt pt'' =>
      ∃ pt', Q g pt pt' ∧ Performs sc g d' pt' d'' pt'' ∧
        g.node? n = some ⟨n, d'.current, op⟩ ∧ d'.graph.nextNode ≤ n ∧ n < d''.graph.nextNode ∧
        pt'' = sc.visitNode g pt' ⟨n, d'.current, op⟩ := by
  intro g hg
  obtain ⟨hpart', hnode⟩ := Graph.IsPart.of_addNode hg
  obtain ⟨hpart, hrun⟩ := h g hpart'
  refine ⟨hpart, fun pt => ?_⟩
  obtain ⟨pt', hperforms, hpt'⟩ := hrun pt
  refine ⟨_, hperforms.emit op, pt', hpt', Performs.refl.emit op, hnode, Nat.le_refl _, ?_, rfl⟩
  simp [Lowering.emit]

theorem Records.of_visit {op : Operation} {b : BlockId} (hn : n < d.graph.nextNode) :
    Records d (sc.visitNode g pt ⟨n, b, op⟩) n (sc.evaluate pt.memory pt.values op) :=
  ⟨hn, by rw [Scope.visitNode, Values.read_insert, if_pos rfl]⟩

section Places

variable {b : BlockId} {s : Sensitivity} (h : Records d pt n s) (m : Memory)

include h

theorem Holds.of_plain {op : Operation} (hnode : g.node? n = some ⟨n, b, op⟩)
    (hplain : op.isPlain = true) : Holds g d pt n ⟨s, .nowhere, m⟩ where
  toRecords := h
  location_eq _ := by
    simp only [Graph.locationWithin, hnode]
    cases op with
    | var | field | implicitSelf | explicitSelf => cases hplain
    | _ => rfl
  writes_eq _ s b := by
    simp only [Graph.writes, hnode]
    cases op with
    | var | field | element => cases hplain
    | _ => rfl

theorem Holds.of_self {op : Operation} (hnode : g.node? n = some ⟨n, b, op⟩)
    (hself : op = .explicitSelf ∨ op = .implicitSelf) : Holds g d pt n ⟨s, .self, m⟩ where
  toRecords := h
  location_eq _ := by
    simp only [Graph.locationWithin, hnode]
    rcases hself with rfl | rfl <;> rfl
  writes_eq _ s b := by
    simp only [Graph.writes, hnode]
    rcases hself with rfl | rfl <;> rfl

theorem Holds.of_var {id : DeclId} (hnode : g.node? n = some ⟨n, b, .var id⟩) :
    Holds g d pt n ⟨s, .whole (.var id), m⟩ where
  toRecords := h
  location_eq _ := by simp only [Graph.locationWithin, hnode, Place.location?]
  writes_eq _ s b := by simp only [Graph.writes, hnode, Memory.Batch.close_write, Place.store]

theorem Holds.of_static {receiver : Option NodeId} {id : DeclId}
    (hnode : g.node? n = some ⟨n, b, .field receiver id true⟩) :
    Holds g d pt n ⟨s, .whole (.static id), m⟩ where
  toRecords := h
  location_eq _ := by simp only [Graph.locationWithin, hnode, Place.location?]
  writes_eq _ s b := by
    obtain ⟨depth, -, hwrite⟩ :=
      Graph.exists_depth_locationOf? (Graph.lt_nextNode_of_node? hnode)
    simp only [Graph.writes, hnode, Graph.writeTo, hwrite, Graph.locationWithin,
      Memory.Batch.close_write, Place.store]

theorem Holds.of_field {object : NodeId} {id : DeclId} {r : Evaluated}
    (hobject : Holds g d pt object r) (hlt : object < n)
    (hnode : g.node? n = some ⟨n, b, .field (some object) id false⟩) :
    Holds g d pt n ⟨s, .field r.place.location? r.value id, m⟩ := by
  have hlocation : ∀ {depth}, n ≤ depth →
      g.locationWithin (depth + 1) n = r.place.location?.map fun l => l.extend id := by
    intro depth hn
    obtain ⟨depth, rfl⟩ : ∃ k, depth = k + 1 :=
      Nat.exists_eq_add_one.2 (Nat.lt_of_lt_of_le (Nat.zero_lt_of_lt hlt) hn)
    simp only [Graph.locationWithin, hnode]
    exact congrArg _ (hobject.location_eq (Nat.le_of_lt_succ (Nat.lt_of_lt_of_le hlt hn)))
  refine ⟨h, hlocation, fun hv s b => ?_⟩
  have hsize := Graph.lt_nextNode_of_node? hnode
  have hwrite := hobject.locationOf?_eq (Nat.lt_trans hlt hsize)
  obtain ⟨depth, hle, hown⟩ := Graph.exists_depth_locationOf? hsize
  have hwrite' := hown.trans (hlocation hle)
  simp only [Graph.writes, hnode, Graph.writeTo, hwrite, hwrite', hv object hobject.lt,
    hobject.read_eq]
  cases r.place.location? with
  | none => rfl
  | some l => simp only [Option.map_some, Memory.Batch.close_write, Place.store]

theorem Holds.of_element {array index : NodeId} {r : Evaluated} (harray : Holds g d pt array r)
    (hlt : array < n) (hnode : g.node? n = some ⟨n, b, .element array index⟩) :
    Holds g d pt n ⟨s, .element r.place.location? r.value, m⟩ where
  toRecords := h
  location_eq _ := by simp only [Graph.locationWithin, hnode, Place.location?]
  writes_eq hv s b := by
    have hwrite := harray.locationOf?_eq (Nat.lt_trans hlt (Graph.lt_nextNode_of_node? hnode))
    simp only [Graph.writes, hnode, Graph.writeTo, hwrite, hv array harray.lt, harray.read_eq]
    cases r.place.location? with
    | none => rfl
    | some l => simp only [Memory.Batch.close_write, Place.store]

end Places

/-- From `d` to `d'` an expression was lowered to the node `n`, and to visit its nodes gives what
`r` says. -/
def Yields (sc : Scope) (r : Memory → Evaluated) (d : Draft) (n : NodeId) (d' : Draft) : Prop :=
  Computes sc d d' fun g pt pt' =>
    pt'.memory = (r pt.memory).memory ∧ Holds g d' pt' n (r pt.memory)

theorem Computes.emitPlain (h : Computes sc d d' Q) {op : Operation}
    (hplain : op.isPlain = true) :
    Ensures d' (Lowering.emit op) fun n d'' => Computes sc d d'' fun g pt pt'' =>
      ∃ pt', Q g pt pt' ∧ Performs sc g d' pt' d'' pt'' ∧
        pt''.memory = g.execute pt'.memory pt'.values op ∧
        Holds g d'' pt'' n ⟨sc.evaluate pt'.memory pt'.values op, .nowhere,
          g.execute pt'.memory pt'.values op⟩ := by
  refine (h.emit op).mono fun n d'' hcomputes => hcomputes.mono ?_
  rintro g pt pt'' ⟨pt', hQ, hrun, hnode, -, hlt, rfl⟩
  exact ⟨pt', hQ, hrun, rfl, .of_plain (.of_visit hlt) _ hnode hplain⟩

theorem Computes.yieldPlain (h : Computes sc d d' Q) {op : Operation} (hplain : op.isPlain = true)
    {r : Memory → Evaluated} (hr : ∀ {g pt pt'}, Q g pt pt' → r pt.memory =
      ⟨sc.evaluate pt'.memory pt'.values op, .nowhere, g.execute pt'.memory pt'.values op⟩) :
    Ensures d' (Lowering.emit op) fun n d'' => Yields sc r d n d'' := by
  refine (h.emitPlain hplain).mono fun n d'' hcomputes => hcomputes.mono ?_
  rintro g pt pt'' ⟨pt', hQ, -, hmemory, hholds⟩
  rw [hr hQ]
  exact ⟨hmemory, hholds⟩

theorem Yields.records {r : Memory → Evaluated} {n : NodeId} (h : Yields sc r d n d') :
    Computes sc d d' fun _ pt pt' =>
      pt'.memory = (r pt.memory).memory ∧ Records d' pt' n (r pt.memory).value :=
  Computes.mono h fun _ _ _ hpt => ⟨hpt.1, hpt.2.toRecords⟩

theorem Yields.asText {r : Memory → Evaluated} {n : NodeId} (h : Yields sc r d n d')
    (isText : Bool) :
    Ensures d' (asText isText n) fun n' d'' => Computes sc d d'' fun _ pt pt'' =>
      pt''.memory = (r pt.memory).memory ∧ Records d'' pt'' n' (r pt.memory).value := by
  cases isText with
  | true => exact h.records
  | false =>
      have hplain : (Operation.display n).isPlain = true := rfl
      refine (Computes.emitPlain h hplain).mono fun n' d'' hn => hn.mono ?_
      rintro g pt pt'' ⟨pt', ⟨hmemory, hholds⟩, -, hmemory', hholds'⟩
      have hrecords := hholds'.toRecords
      simp only [Scope.evaluate, hholds.read_eq] at hrecords
      exact ⟨hmemory'.trans hmemory, hrecords⟩

theorem Computes.yieldUpdate {t v : NodeId} {r r' : Memory → Evaluated} {op : Operation}
    (ht : Yields sc r d t d') (hv : Computes sc d' d'' fun _ pt pt' =>
      pt'.memory = (r' pt.memory).memory ∧ Records d'' pt' v (r' pt.memory).value)
    (hplain : op.isPlain = true) (hexecute : ∀ g m w, Graph.execute g m w op = m)
    (hevaluate : ∀ m w, sc.evaluate m w op = (Values.read w t).join (Values.read w v)) :
    Ensures d'' (do let sum ← Lowering.emit op; Lowering.emit (.assignment t sum)) fun n d₃ =>
      Yields sc (fun m =>
        let s := (r m).value.join (r' (r m).memory).value
        ⟨s, .nowhere, (r m).place.store s (r' (r m).memory).memory⟩) d n d₃ := by
  refine ((Computes.trans ht hv).emitPlain hplain).bind ?_
  intro sum d₃ hsum
  refine hsum.yieldPlain rfl ?_
  rintro g pt pt₃ ⟨pt₂, ⟨pt₁, ⟨hmemory₁, ht₁⟩, hrun, hmemory₂, hv₂⟩, hrun', hmemory₃, hsum₃⟩
  rw [hmemory₁] at hmemory₂ hv₂
  have ht₂ := ht₁.carry hrun
  have hwrites := (ht₂.carry hrun').writes_eq fun _ _ => rfl
  rw [hexecute] at hmemory₃
  have hvalue := hsum₃.read_eq
  rw [hevaluate, ht₂.read_eq, hv₂.read_eq] at hvalue
  simp only [Scope.evaluate, Graph.execute, hwrites, hvalue, Memory.close_openBatch, hmemory₃,
    hmemory₂]

end Lowering

open Lowering

mutual

theorem Expr.lower_yields (sc : Scope) (e : Expr) (he : e.isStraight = true) (d : Draft) :
    Ensures d (e.lower sc.program) fun n d' => Yields sc (e.evaluate sc) d n d' := by
  match e with
  | .mk form ty =>
      rw [Expr.isStraight] at he
      rw [Expr.lower]
      simp only [Expr.evaluate]
      exact ExprForm.lower_yields sc ty form he d

theorem ExprForm.lower_yields (sc : Scope) (ty : Ty) (form : ExprForm)
    (he : form.isStraight = true) (d : Draft) :
    Ensures d (form.lower sc.program ty) fun n d' => Yields sc (form.evaluate sc ty) d n d' := by
  match form with
  | .literal _ | .super | .lambda | .methodRef | .classLiteral _ =>
      rw [ExprForm.lower]
      refine (Computes.refl sc d).yieldPlain rfl ?_
      rintro g pt pt' rfl
      simp only [ExprForm.evaluate, Scope.evaluate, Graph.execute]
  | .self =>
      rw [ExprForm.lower]
      refine ((Computes.refl sc d).emit _).mono fun n d₁ hn => hn.mono ?_
      rintro g pt pt' ⟨_, rfl, -, hnode, -, hlt, rfl⟩
      rw [ExprForm.evaluate]
      exact ⟨rfl, .of_self (.of_visit hlt) _ hnode (Or.inl rfl)⟩
  | .var id =>
      rw [ExprForm.lower]
      refine ((Computes.refl sc d).emit _).mono fun n d₁ hn => hn.mono ?_
      rintro g pt pt' ⟨_, rfl, -, hnode, -, hlt, rfl⟩
      rw [ExprForm.evaluate]
      exact ⟨rfl, .of_var (.of_visit hlt) _ hnode⟩
  | .field receiver id =>
      rw [ExprForm.isStraight] at he
      rw [ExprForm.lower]
      refine (Expr.lowerReceiver_computes sc _ receiver he d).bind ?_
      intro r d₁ hr
      refine (hr.emit _).mono fun n d₂ hn => hn.mono ?_
      rintro g pt pt'' ⟨pt', ⟨hmemory, hreceiver⟩, hrun, hnode, hle, hlt, rfl⟩
      simp only [ExprForm.evaluate]
      cases hstatic : sc.program.isStaticField id with
      | true =>
          rw [hstatic] at hnode
          exact ⟨hmemory, .of_static (.of_visit hlt) _ hnode⟩
      | false =>
          rw [hstatic] at hnode
          obtain ⟨object, rfl, hobject⟩ := hreceiver (by rw [hstatic]; rfl)
          exact ⟨hmemory, .of_field (.of_visit hlt) _ (hobject.carry hrun)
            (Nat.lt_of_lt_of_le hobject.lt hle) hnode⟩
  | .call receiver method args =>
      simp only [ExprForm.isStraight, Bool.and_eq_true] at he
      rw [ExprForm.lower]
      refine (Expr.lowerReceiver_computes sc _ receiver he.1 d).bind ?_
      intro r d₁ hr
      refine (hr.emitPlain rfl).bind ?_
      intro target d₂ htarget
      refine (Expr.lowerAll_computes sc args he.2 d₂).bind ?_
      intro ns d₃ hargs
      refine (htarget.trans hargs).yieldPlain rfl ?_
      rintro g pt pt' ⟨pt₂, ⟨pt₁, ⟨hmemory₁, -⟩, -, hmemory₂, -⟩, -, hmemory₃⟩
      simp only [ExprForm.evaluate, Scope.evaluate, Graph.execute] at hmemory₂ ⊢
      rw [hmemory₃, hmemory₂, hmemory₁]
  | .create ctor args =>
      rw [ExprForm.isStraight] at he
      rw [ExprForm.lower]
      refine (Expr.lowerAll_computes sc args he d).bind ?_
      intro ns d₁ hargs
      refine hargs.yieldPlain rfl ?_
      intro g pt pt' hmemory
      simp only [ExprForm.evaluate, Scope.evaluate, Graph.execute, hmemory]
  | .unary op operand =>
      rw [ExprForm.isStraight] at he
      rw [ExprForm.lower]
      refine (Expr.lower_yields sc operand he d).bind ?_
      intro n d₁ hn
      refine Computes.yieldPlain hn rfl ?_
      rintro g pt pt' ⟨hmemory, hholds⟩
      simp only [ExprForm.evaluate, Scope.evaluate, Graph.execute, hmemory, hholds.read_eq]
  | .binary op left right =>
      simp only [ExprForm.isStraight, Bool.and_eq_true] at he
      rw [ExprForm.lower]
      split
      · refine (Expr.lower_yields sc left he.1 d).bind ?_
        intro l d₁ hl
        refine (hl.asText _).bind ?_
        intro l' d₂ hl'
        refine (Expr.lower_yields sc right he.2 d₂).bind ?_
        intro r d₃ hr
        refine (hr.asText _).bind ?_
        intro r' d₄ hr'
        refine (hl'.trans hr').yieldPlain rfl ?_
        rintro g pt pt₂ ⟨pt₁, ⟨hmemory₁, hl₁⟩, hrun, hmemory₂, hr₂⟩
        rw [hmemory₁] at hmemory₂ hr₂
        simp only [ExprForm.evaluate, Scope.evaluate, Graph.execute, hmemory₂, hr₂.read_eq,
          (hl₁.carry hrun).read_eq]
      · refine (Expr.lower_yields sc left he.1 d).bind ?_
        intro l d₁ hl
        refine (Expr.lower_yields sc right he.2 d₁).bind ?_
        intro r d₂ hr
        refine (Computes.trans hl hr).yieldPlain rfl ?_
        rintro g pt pt₂ ⟨pt₁, ⟨hmemory₁, hl₁⟩, hrun, hmemory₂, hr₂⟩
        rw [hmemory₁] at hmemory₂ hr₂
        simp only [ExprForm.evaluate, Scope.evaluate, Graph.execute, hmemory₂, hr₂.read_eq,
          (hl₁.carry hrun).read_eq]
  | .assign target value =>
      simp only [ExprForm.isStraight, Bool.and_eq_true] at he
      rw [ExprForm.lower]
      refine (Expr.lower_yields sc target he.1 d).bind ?_
      intro t d₁ ht
      refine (Expr.lower_yields sc value he.2 d₁).bind ?_
      intro v d₂ hv
      refine (Computes.trans ht hv).yieldPlain rfl ?_
      rintro g pt pt₂ ⟨pt₁, ⟨hmemory₁, ht₁⟩, hrun, hmemory₂, hv₂⟩
      rw [hmemory₁] at hmemory₂ hv₂
      have hwrites := (ht₁.carry hrun).writes_eq fun _ _ => rfl
      simp only [ExprForm.evaluate, Scope.evaluate, Graph.execute, hwrites, hv₂.read_eq,
        Memory.close_openBatch, hmemory₂]
  | .update op target value =>
      simp only [ExprForm.isStraight, Bool.and_eq_true] at he
      rw [ExprForm.lower]
      simp only [ExprForm.evaluate]
      refine (Expr.lower_yields sc target he.1 d).bind ?_
      intro t d₁ ht
      refine (Expr.lower_yields sc value he.2 d₁).bind ?_
      intro v d₂ hv
      split
      · refine (hv.asText _).bind ?_
        intro v' d₃ hv'
        exact Computes.yieldUpdate ht hv' rfl (fun _ _ _ => rfl) fun _ _ => rfl
      · exact Computes.yieldUpdate ht hv.records rfl (fun _ _ _ => rfl) fun _ _ => rfl
  | .element array index =>
      simp only [ExprForm.isStraight, Bool.and_eq_true] at he
      rw [ExprForm.lower]
      refine (Expr.lower_yields sc array he.1 d).bind ?_
      intro a d₁ ha
      refine (Expr.lower_yields sc index he.2 d₁).bind ?_
      intro i d₂ hi
      refine ((Computes.trans ha hi).emit _).mono fun n d₃ hn => hn.mono ?_
      rintro g pt pt₃ ⟨pt₂, ⟨pt₁, ⟨hmemory₁, ha₁⟩, hrun, hmemory₂, -⟩, hrun', hnode, hle, hlt, rfl⟩
      rw [hmemory₁] at hmemory₂
      have harray := ha₁.carry hrun
      simp only [ExprForm.evaluate]
      exact ⟨hmemory₂, .of_element (.of_visit hlt) _ (harray.carry hrun')
        (Nat.lt_of_lt_of_le harray.lt hle) hnode⟩
  | .newArray dimensions initializers =>
      simp only [ExprForm.isStraight, Bool.and_eq_true] at he
      rw [ExprForm.lower]
      refine (Expr.lowerAll_computes sc dimensions he.1 d).bind ?_
      intro ds d₁ hds
      refine (Expr.lowerAll_computes sc initializers he.2 d₁).bind ?_
      intro is d₂ his
      refine (hds.trans his).yieldPlain rfl ?_
      rintro g pt pt₂ ⟨pt₁, hmemory₁, -, hmemory₂⟩
      simp only [ExprForm.evaluate, Scope.evaluate, Graph.execute, hmemory₂, hmemory₁]
  | .cast target operand =>
      rw [ExprForm.isStraight] at he
      simp only [ExprForm.lower]
      refine (Expr.lower_yields sc operand he d).bind ?_
      intro n d₁ hn
      split
      · rename_i a b hcast
        refine Computes.yieldPlain hn rfl ?_
        rintro g pt pt' ⟨hmemory, hholds⟩
        simp only [ExprForm.evaluate, Scope.evaluate, Graph.execute, hmemory, hholds.read_eq,
          Ty.target_of_numberCast? hcast]
      · refine Computes.yieldPlain hn rfl ?_
        rintro g pt pt' ⟨hmemory, hholds⟩
        simp only [ExprForm.evaluate, Scope.evaluate, Graph.execute, hmemory, hholds.read_eq]
  | .instanceOf operand target =>
      rw [ExprForm.isStraight] at he
      rw [ExprForm.lower]
      refine (Expr.lower_yields sc operand he d).bind ?_
      intro n d₁ hn
      refine Computes.yieldPlain hn rfl ?_
      rintro g pt pt' ⟨hmemory, -⟩
      simp only [ExprForm.evaluate, Scope.evaluate, Graph.execute, hmemory]
  | .paren inner =>
      rw [ExprForm.isStraight] at he
      rw [ExprForm.lower]
      simp only [ExprForm.evaluate]
      exact Expr.lower_yields sc inner he d

theorem Expr.lowerReceiver_computes (sc : Scope) (needed : Bool) (receiver : Option Expr)
    (he : Expr.isStraightOption receiver = true) (d : Draft) :
    Ensures d (Expr.lowerReceiver sc.program needed receiver) fun r d' =>
      Computes sc d d' fun g pt pt' =>
        pt'.memory = (Expr.evaluateReceiver sc receiver pt.memory).memory ∧
          (needed = true → ∃ n, r = some n ∧
            Holds g d' pt' n (Expr.evaluateReceiver sc receiver pt.memory)) := by
  match receiver with
  | some e =>
      rw [Expr.isStraightOption] at he
      rw [Expr.lowerReceiver]
      refine (Expr.lower_yields sc e he d).bind ?_
      intro n d₁ hn
      refine Computes.mono hn ?_
      rintro g pt pt' ⟨hmemory, hholds⟩
      rw [Expr.evaluateReceiver]
      exact ⟨hmemory, fun _ => ⟨n, rfl, hholds⟩⟩
  | none =>
      simp only [Expr.evaluateReceiver]
      cases needed with
      | false =>
          refine (Computes.refl sc d).mono ?_
          rintro g pt pt' rfl
          exact ⟨rfl, fun h => by cases h⟩
      | true =>
          refine ((Computes.refl sc d).emit .implicitSelf).bind ?_
          intro n d₁ hn
          refine hn.mono ?_
          rintro g pt pt' ⟨_, rfl, -, hnode, -, hlt, rfl⟩
          exact ⟨rfl, fun _ => ⟨n, rfl, .of_self (.of_visit hlt) _ hnode (Or.inr rfl)⟩⟩

theorem Expr.lowerAll_computes (sc : Scope) (es : List Expr) (hes : Expr.areStraight es = true)
    (d : Draft) :
    Ensures d (Expr.lowerAll sc.program es) fun _ d' => Computes sc d d' fun _ pt pt' =>
      pt'.memory = Expr.evaluateAll sc es pt.memory := by
  match es with
  | [] =>
      simp only [Expr.lowerAll, Expr.evaluateAll]
      exact (Computes.refl sc d).mono fun _ _ _ hpt => by rw [hpt]
  | e :: rest =>
      simp only [Expr.areStraight, Bool.and_eq_true] at hes
      rw [Expr.lowerAll]
      refine (Expr.lower_yields sc e hes.1 d).bind ?_
      intro n d₁ hn
      refine (Expr.lowerAll_computes sc rest hes.2 d₁).bind ?_
      intro ns d₂ hns
      refine (Computes.trans hn hns).mono ?_
      rintro g pt pt'' ⟨pt', ⟨hmemory, -⟩, -, hmemory'⟩
      rw [hmemory', hmemory, Expr.evaluateAll]

end

/-- An expression without conditionals is lowered by adding nodes to the current block only.  Where
a graph has these nodes, to visit them in order, from any memory and whatever was recorded before,
gives the node of the expression the class that evaluating the tree in that memory gives, and leaves
the memory that it leaves. -/
theorem Expr.visit_lower_eq_evaluate (sc : Scope) {e : Expr} (he : e.isStraight = true)
    (d : Draft) :
    let n := (e.lower sc.program d).1
    let d' := (e.lower sc.program d).2
    (∃ ops : List Operation,
      d' = { d with graph := ops.foldl (fun g op => g.addNode d.current op) d.graph }) ∧
    ∀ g : Graph, d'.graph.IsPart g → ∀ (v : Values) (m : Memory),
      let pt := (d'.graph.nodes.toList.drop d.graph.nextNode).foldl (sc.visitNode g) ⟨v, m⟩
      pt.values.read n = (e.evaluate sc m).value ∧ pt.memory = (e.evaluate sc m).memory := by
  have hyields := Expr.lower_yields sc e he d
  constructor
  · obtain ⟨-, hrun⟩ := hyields (e.lower sc.program d).2.graph fun _ _ hn => hn
    obtain ⟨pt', hperforms, -⟩ := hrun ⟨∅, ∅⟩
    exact hperforms.exists_ops
  · intro g hg v m
    obtain ⟨-, hrun⟩ := hyields g hg
    obtain ⟨pt', hperforms, hmemory, hholds⟩ := hrun ⟨v, m⟩
    obtain ⟨nodes, hnodes, rfl⟩ := hperforms.exists_nodes
    have hdrop : (e.lower sc.program d).2.graph.nodes.toList.drop d.graph.nextNode = nodes := by
      rw [hnodes]
      exact List.drop_left' rfl
    rw [hdrop]
    exact ⟨hholds.read_eq, hmemory⟩

/-- `f[x = 1] += x + y` on texts: the index is evaluated before the sum reads `x`, and the array,
a field of the current object, gets the class of `y`. -/
theorem Expr.visit_lower_eq_evaluate_update :
    let sc : Scope := ⟨∅, .standard⟩
    let text : Ty := .declared ⟨4⟩
    let x : Expr := .var ⟨1⟩ text
    let y : Expr := .var ⟨2⟩ text
    let one : Expr := .literal (.int 1) (.primitive .int)
    let target : Expr := .mk (.element (.field none ⟨7⟩ text) (.assign x one)) text
    let e : Expr := .mk (.update .add target (.binary .add x y text)) text
    let m : Memory := Table.ofList [(.var ⟨1⟩, .guarded), (.var ⟨2⟩, .forbidden)]
    let d : Draft := ⟨Graph.start, 0, []⟩
    let d' := (e.lower sc.program d).2
    let pt := (d'.graph.nodes.toList.drop d.graph.nextNode).foldl (sc.visitNode d'.graph) ⟨∅, m⟩
    e.isStraight = true ∧ d'.graph.nextNode = 11 ∧
      pt.values.read (e.lower sc.program d).1 = .forbidden ∧ pt.memory.read (.var ⟨1⟩) = .safe ∧
      pt.memory.read (Location.self.extend ⟨7⟩) = .forbidden := by
  intro sc text x y one target e m d d' pt
  have he : e.isStraight = true := by decide
  obtain ⟨hvalue, hmemory⟩ :=
    (Expr.visit_lower_eq_evaluate sc he d).2 d'.graph (fun _ _ hn => hn) ∅ m
  have hvalue' : (e.evaluate sc m).value = .forbidden := by decide +kernel
  have hread : (e.evaluate sc m).memory.read (.var ⟨1⟩) = .safe ∧
      (e.evaluate sc m).memory.read (Location.self.extend ⟨7⟩) = .forbidden := by decide +kernel
  rw [← hmemory] at hread
  exact ⟨he, by decide +kernel, hvalue.trans hvalue', hread⟩

end Disclosure
