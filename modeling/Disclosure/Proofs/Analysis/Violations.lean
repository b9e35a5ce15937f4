import Disclosure.Report
import Mathlib.Data.List.Basic
import Mathlib.Data.List.GetD

/-!
# Exactly the disallowed flows are reported

`Graph.FlowsAt` says by rules which value flows into which declaration at an operation, and at
which place among its flows.  A site is a node with such a place and flow.  The violations are, in
the order of the sites, those of the sites at nodes that were reached whose flow the declared class
does not admit.  Every such site gives one violation, and nothing else does.

A class that does not admit a value does not admit a stricter one, so more sites are flagged where
the values have stricter classes.
-/

namespace Disclosure

namespace Sensitivity

/-- Only the classes `safe` and `guarded` refuse a value: one that is stricter, and at least
guarded. -/
theorem admits_eq_false_iff {declared actual : Sensitivity} :
    declared.admits actual = false ↔
      (declared = safe ∨ declared = guarded) ∧ declared.rank < actual.rank ∧ guarded ≤ actual := by
  cases declared <;> cases actual <;> decide

theorem admits_eq_false_of_le {declared actual actual' : Sensitivity} (h : actual ≤ actual')
    (hdeclared : declared.admits actual = false) : declared.admits actual' = false := by
  obtain ⟨hmarked, hlt, hle⟩ := admits_eq_false_iff.1 hdeclared
  exact admits_eq_false_iff.2 ⟨hmarked, Nat.lt_of_lt_of_le hlt h, Nat.le_trans hle h⟩

end Sensitivity

/-! ## Sites -/

/-- The flows at an operation, with their places in its order.  The last parameter of a callee
takes all arguments that are left. -/
inductive Graph.FlowsAt (p : Program) (g : Graph) : Operation → Nat → Flow → Prop where
  | invocation {target value : NodeId} {method param : DeclId} {args : List NodeId} {ty : Ty}
      {i : Nat} (harg : args[i]? = some value)
      (hparam : (p.paramsOf method)[min i ((p.paramsOf method).length - 1)]? = some param) :
      g.FlowsAt p (.invocation target method args ty) i ⟨.argument, param, value⟩
  | creation {value : NodeId} {ctor param : DeclId} {args : List NodeId} {ty : Ty} {i : Nat}
      (harg : args[i]? = some value)
      (hparam : (p.paramsOf ctor)[min i ((p.paramsOf ctor).length - 1)]? = some param) :
      g.FlowsAt p (.creation ctor args ty) i ⟨.argument, param, value⟩
  | leave {value : NodeId} {method : DeclId} (h : g.method = some method) :
      g.FlowsAt p (.leave (some value)) 0 ⟨.result, method, value⟩
  | assignVar {target value i : NodeId} {b : BlockId} {id : DeclId}
      (h : g.node? target = some ⟨i, b, .var id⟩) :
      g.FlowsAt p (.assignment target value) 0 ⟨.assignment, id, value⟩
  | assignField {target value i : NodeId} {b : BlockId} {receiver : Option NodeId} {id : DeclId}
      {isStatic : Bool} (h : g.node? target = some ⟨i, b, .field receiver id isStatic⟩) :
      g.FlowsAt p (.assignment target value) 0 ⟨.assignment, id, value⟩

structure Site where
  node : NodeId
  place : Nat
  flow : Flow
  deriving DecidableEq, Repr

/-- The order of the nodes, and at one node that of its flows. -/
def Site.Before (s s' : Site) : Prop :=
  s.node < s'.node ∨ s.node = s'.node ∧ s.place < s'.place

theorem getElem?_min_eq_getD {α : Type} {l : List α} {last : α} (h : l.getLast? = some last)
    (i : Nat) : l[min i (l.length - 1)]? = some (l.getD i last) := by
  rcases Nat.lt_or_ge i l.length with hi | hi
  · rw [Nat.min_eq_left (Nat.le_sub_one_of_lt hi), List.getElem?_eq_getElem hi,
      List.getD_eq_getElem l last hi]
  · rw [Nat.min_eq_right (Nat.le_trans (Nat.sub_le _ _) hi), List.getD_eq_default l last hi, ← h,
      List.getLast?_eq_getElem?]

theorem Program.getElem?_argumentFlows {p : Program} {callee : DeclId} {args : List NodeId}
    {i : Nat} {f : Flow} : (p.argumentFlows callee args)[i]? = some f ↔
      ∃ value param, args[i]? = some value ∧
        (p.paramsOf callee)[min i ((p.paramsOf callee).length - 1)]? = some param ∧
        f = ⟨.argument, param, value⟩ := by
  unfold argumentFlows
  cases hlast : (p.paramsOf callee).getLast? with
  | none => simp [List.getLast?_eq_none_iff.1 hlast]
  | some last =>
      simp only [List.getElem?_mapIdx, Option.map_eq_some_iff, getElem?_min_eq_getD hlast]
      constructor
      · rintro ⟨value, hvalue, rfl⟩
        exact ⟨value, _, hvalue, rfl, rfl⟩
      · rintro ⟨value, param, hvalue, hparam, rfl⟩
        cases hparam
        exact ⟨value, hvalue, rfl⟩

theorem Graph.assignee?_eq_some_iff {g : Graph} {target : NodeId} {id : DeclId} :
    g.assignee? target = some id ↔ (∃ i b, g.node? target = some ⟨i, b, .var id⟩) ∨
      ∃ i b receiver isStatic, g.node? target = some ⟨i, b, .field receiver id isStatic⟩ := by
  constructor
  · intro h
    unfold assignee? at h
    cases hnode : g.node? target with
    | none => simp [hnode] at h
    | some node =>
        obtain ⟨i, b, op⟩ := node
        cases op with
        | var id' =>
            obtain rfl : id' = id := by simpa [hnode] using h
            exact Or.inl ⟨i, b, rfl⟩
        | field receiver id' isStatic =>
            obtain rfl : id' = id := by simpa [hnode] using h
            exact Or.inr ⟨i, b, receiver, isStatic, rfl⟩
        | _ => simp [hnode] at h
  · rintro (⟨i, b, h⟩ | ⟨i, b, receiver, isStatic, h⟩) <;> simp only [assignee?, h]

/-- The flows of a node are those that the rules give, each at its place. -/
theorem Graph.getElem?_flowsOf {p : Program} {g : Graph} {node : Node} {i : Nat} {f : Flow} :
    (g.flowsOf p node)[i]? = some f ↔ g.FlowsAt p node.op i f := by
  constructor
  · intro h
    cases hop : node.op with
    | invocation target method args ty =>
        rw [flowsOf, hop] at h
        obtain ⟨value, param, harg, hparam, rfl⟩ := Program.getElem?_argumentFlows.1 h
        exact .invocation harg hparam
    | creation ctor args ty =>
        rw [flowsOf, hop] at h
        obtain ⟨value, param, harg, hparam, rfl⟩ := Program.getElem?_argumentFlows.1 h
        exact .creation harg hparam
    | leave result =>
        rw [flowsOf, hop] at h
        cases result with
        | none => cases h
        | some value =>
            cases hmethod : g.method with
            | none => simp [hmethod] at h
            | some method =>
                obtain ⟨rfl, rfl⟩ : i = 0 ∧ f = ⟨.result, method, value⟩ := by
                  simpa [hmethod, List.getElem?_singleton, eq_comm] using h
                exact .leave hmethod
    | assignment target value =>
        rw [flowsOf, hop] at h
        cases hid : g.assignee? target with
        | none => simp [hid] at h
        | some id =>
            obtain ⟨rfl, rfl⟩ : i = 0 ∧ f = ⟨.assignment, id, value⟩ := by
              simpa [hid, List.getElem?_singleton, eq_comm] using h
            rcases assignee?_eq_some_iff.1 hid with ⟨_, _, hnode⟩ | ⟨_, _, _, _, hnode⟩
            · exact .assignVar hnode
            · exact .assignField hnode
    | _ => simp [flowsOf, hop] at h
  · intro h
    unfold flowsOf
    generalize node.op = op at h
    cases h with
    | invocation harg hparam | creation harg hparam =>
        exact Program.getElem?_argumentFlows.2 ⟨_, _, harg, hparam, rfl⟩
    | leave h => simp only [h, List.getElem?_cons_zero]
    | assignVar h =>
        simp only [assignee?_eq_some_iff.2 (Or.inl ⟨_, _, h⟩), List.getElem?_cons_zero]
    | assignField h =>
        simp only [assignee?_eq_some_iff.2 (Or.inr ⟨_, _, _, _, h⟩), List.getElem?_cons_zero]

def Graph.sitesAt (p : Program) (g : Graph) (n : NodeId) (node : Node) : List Site :=
  (g.flowsOf p node).zipIdx.map fun y => ⟨n, y.2, y.1⟩

def Graph.sites (p : Program) (g : Graph) : List Site :=
  g.nodes.toList.zipIdx.flatMap fun x => g.sitesAt p x.2 x.1

theorem pairwise_zipIdx {α : Type} (l : List α) : l.zipIdx.Pairwise fun x y => x.2 < y.2 := by
  rw [← List.pairwise_map (f := Prod.snd) (R := (· < ·)), List.zipIdx_map_snd]
  exact List.pairwise_lt_range'

theorem Graph.pairwise_sites (p : Program) (g : Graph) : (g.sites p).Pairwise Site.Before := by
  refine List.pairwise_flatMap.2 ⟨fun x _ => ?_, (pairwise_zipIdx _).imp ?_⟩
  · exact List.pairwise_map.2 ((pairwise_zipIdx _).imp fun h => Or.inr ⟨rfl, h⟩)
  · intro x x' hlt s hs s' hs'
    obtain ⟨y, -, rfl⟩ := List.mem_map.1 hs
    obtain ⟨y', -, rfl⟩ := List.mem_map.1 hs'
    exact Or.inl hlt

theorem Graph.mem_sites {p : Program} {g : Graph} {s : Site} :
    s ∈ g.sites p ↔ ∃ node, g.node? s.node = some node ∧ g.FlowsAt p node.op s.place s.flow := by
  simp only [sites, sitesAt, List.mem_flatMap, List.mem_map, List.mem_zipIdx_iff_getElem?,
    getElem?_flowsOf, Array.getElem?_toList]
  constructor
  · rintro ⟨x, hx, y, hy, rfl⟩
    exact ⟨x.1, hx, hy⟩
  · rintro ⟨node, hnode, hflow⟩
    exact ⟨(node, s.node), hnode, (s.flow, s.place), hflow, rfl⟩

/-! ## Violations -/

theorem flatMap_filter {α β : Type} (q : α → Bool) (f : α → List β) (l : List α) :
    (l.filter q).flatMap f = l.flatMap fun a => if q a then f a else [] := by
  induction l with
  | nil => rfl
  | cons a l ih => cases h : q a <;> simp [h, ih]

namespace Scope

def violationOf (sc : Scope) (o : Outcome) (f : Flow) : Violation :=
  ⟨f.kind, f.value, f.target, sc.program.nameOf f.target, sc.classify f.target, o.valueOf f.value⟩

/-- Whether the node of a site was reached and its flow is not admitted. -/
def flags (sc : Scope) (g : Graph) (o : Outcome) (s : Site) : Bool :=
  (g.node? s.node).any (fun node => o.isReached node.id) &&
    !(sc.classify s.flow.target).admits (o.valueOf s.flow.value)

def flagged (sc : Scope) (g : Graph) (o : Outcome) : List Site :=
  (g.sites sc.program).filter (sc.flags g o)

theorem violation?_eq (sc : Scope) (o : Outcome) (f : Flow) :
    sc.violation? o f =
      if !(sc.classify f.target).admits (o.valueOf f.value) then some (sc.violationOf o f)
      else none := by
  cases h : (sc.classify f.target).admits (o.valueOf f.value) <;> simp [violation?, violationOf, h]

theorem map_violationOf_filter_sitesAt (sc : Scope) {g : Graph} (o : Outcome) {n : NodeId}
    {node : Node} (hnode : g.node? n = some node) :
    ((g.sitesAt sc.program n node).filter (sc.flags g o)).map (fun s => sc.violationOf o s.flow) =
      if o.isReached node.id then (g.flowsOf sc.program node).filterMap (sc.violation? o)
      else [] := by
  have hflags (f : Flow) (i : Nat) : sc.flags g o ⟨n, i, f⟩ =
      (o.isReached node.id && !(sc.classify f.target).admits (o.valueOf f.value)) := by
    simp only [flags, hnode, Option.any_some]
  cases hreached : o.isReached node.id with
  | false => simp [Graph.sitesAt, List.filter_map, Function.comp_def, hflags, hreached]
  | true =>
      rw [if_pos rfl, ← List.zipIdx_map_fst 0 (g.flowsOf sc.program node), List.filterMap_map]
      simp only [Graph.sitesAt, List.filter_map, List.map_map, Function.comp_def, hflags, hreached,
        Bool.true_and, violation?_eq]
      rw [← List.filterMap_eq_map, List.filterMap_filter]
      rfl

theorem violations_eq (sc : Scope) (g : Graph) (o : Outcome) :
    sc.violations g o = (sc.flagged g o).map fun s => sc.violationOf o s.flow := by
  calc sc.violations g o
    _ = g.nodes.toList.zipIdx.flatMap fun x =>
          if o.isReached x.1.id then (g.flowsOf sc.program x.1).filterMap (sc.violation? o)
          else [] := by
      rw [violations, flatMap_filter]
      nth_rewrite 1 [← List.zipIdx_map_fst 0 g.nodes.toList]
      rw [List.flatMap_map]
    _ = g.nodes.toList.zipIdx.flatMap fun x =>
          ((g.sitesAt sc.program x.2 x.1).filter (sc.flags g o)).map
            fun s => sc.violationOf o s.flow := by
      refine List.flatMap_congr fun x hx => (map_violationOf_filter_sitesAt sc o ?_).symm
      exact Array.getElem?_toList.symm.trans (List.mem_zipIdx_iff_getElem?.1 hx)
    _ = (sc.flagged g o).map fun s => sc.violationOf o s.flow := by
      rw [flagged, Graph.sites, List.filter_flatMap, List.map_flatMap]

theorem mem_flagged {sc : Scope} {g : Graph} {o : Outcome} {s : Site} :
    s ∈ sc.flagged g o ↔ ∃ node, g.node? s.node = some node ∧ o.isReached node.id = true ∧
      g.FlowsAt sc.program node.op s.place s.flow ∧
      (sc.classify s.flow.target).admits (o.valueOf s.flow.value) = false := by
  simp only [flagged, List.mem_filter, Graph.mem_sites, flags, Bool.and_eq_true, Bool.not_eq_true',
    Option.any_eq_true]
  constructor
  · rintro ⟨⟨node, hnode, hflow⟩, ⟨node', hnode', hreached⟩, hadmits⟩
    obtain rfl : node = node' := Option.some.inj (hnode.symm.trans hnode')
    exact ⟨node, hnode, hreached, hflow, hadmits⟩
  · rintro ⟨node, hnode, hreached, hflow, hadmits⟩
    exact ⟨⟨node, hnode, hflow⟩, ⟨node, hnode, hreached⟩, hadmits⟩

/-- What is flagged stays so where the values have stricter classes. -/
theorem flagged_sublist (sc : Scope) (g : Graph) {o o' : Outcome}
    (hreached : ∀ n, o'.isReached n = o.isReached n) (hvalue : ∀ n, o.valueOf n ≤ o'.valueOf n) :
    (sc.flagged g o).Sublist (sc.flagged g o') := by
  refine List.monotone_filter_right _ fun s hs => ?_
  simp only [flags, Bool.and_eq_true, Bool.not_eq_true'] at hs ⊢
  exact ⟨by simpa only [hreached] using hs.1, Sensitivity.admits_eq_false_of_le (hvalue _) hs.2⟩

end Scope

/-! ## Tallies -/

namespace Tally

theorem total_add (t : Tally) (kind : FlowKind) : (t.add kind).total = t.total + 1 := by
  cases kind <;> simp only [add, total] <;> omega

theorem foldl_add (t : Tally) (vs : List Violation) :
    vs.foldl (fun t v => t.add v.kind) t =
      ⟨t.arguments + vs.countP (·.kind = .argument), t.results + vs.countP (·.kind = .result),
        t.assignments + vs.countP (·.kind = .assignment)⟩ := by
  induction vs generalizing t with
  | nil => rfl
  | cons v vs ih =>
      rw [List.foldl_cons, ih]
      cases h : v.kind <;> simp [add, h] <;> omega

theorem total_foldl_add (t : Tally) (vs : List Violation) :
    (vs.foldl (fun t v => t.add v.kind) t).total = t.total + vs.length := by
  induction vs generalizing t with
  | nil => rfl
  | cons v vs ih =>
      rw [List.foldl_cons, ih, total_add, List.length_cons]
      omega

theorem ofViolations_eq (vs : List Violation) : ofViolations vs =
    ⟨vs.countP (·.kind = .argument), vs.countP (·.kind = .result),
      vs.countP (·.kind = .assignment)⟩ := by
  rw [ofViolations, foldl_add]
  simp [zero]

theorem total_ofViolations (vs : List Violation) : (ofViolations vs).total = vs.length := by
  rw [ofViolations, total_foldl_add]
  exact Nat.zero_add _

end Tally

/-! ## The report on an outcome -/

/-- The violations are those of the flows at the nodes that were reached which the declared class
does not admit: one for each, in the order of the nodes and of the flows at a node.  Every value is
of a class stricter than the declared one, and at least guarded.  The report counts the violations
by kind.  Where the same nodes are reached and the values have stricter classes, all these flows are
flagged. -/
theorem Scope.violations_exact (sc : Scope) (g : Graph) (o : Outcome) :
    sc.violations g o = (sc.flagged g o).map (fun s => sc.violationOf o s.flow) ∧
    (sc.flagged g o).Pairwise Site.Before ∧
    (∀ s, s ∈ sc.flagged g o ↔ ∃ node, g.node? s.node = some node ∧ o.isReached node.id = true ∧
      g.FlowsAt sc.program node.op s.place s.flow ∧
      (sc.classify s.flow.target).admits (o.valueOf s.flow.value) = false) ∧
    (∀ v ∈ sc.violations g o, (v.declared = .safe ∨ v.declared = .guarded) ∧
      v.declared.rank < v.actual.rank ∧ .guarded ≤ v.actual) ∧
    (let r := Report.ofOutcome g.method o (sc.violations g o)
     r.violations = sc.violations g o ∧
      r.tally.arguments = r.violations.countP (·.kind = .argument) ∧
      r.tally.results = r.violations.countP (·.kind = .result) ∧
      r.tally.assignments = r.violations.countP (·.kind = .assignment) ∧
      r.tally.total = r.violations.length) ∧
    ∀ o' : Outcome, (∀ n, o'.isReached n = o.isReached n) → (∀ n, o.valueOf n ≤ o'.valueOf n) →
      (sc.flagged g o).Sublist (sc.flagged g o') := by
  refine ⟨sc.violations_eq g o, (g.pairwise_sites _).filter _, fun s => mem_flagged, ?_, ?_,
    fun o' hreached hvalue => sc.flagged_sublist g hreached hvalue⟩
  · intro v hv
    rw [violations_eq] at hv
    obtain ⟨s, hs, rfl⟩ := List.mem_map.1 hv
    obtain ⟨node, -, -, -, hadmits⟩ := mem_flagged.1 hs
    exact Sensitivity.admits_eq_false_iff.1 hadmits
  · intro r
    have htally := Tally.ofViolations_eq r.violations
    exact ⟨rfl, congrArg Tally.arguments htally, congrArg Tally.results htally,
      congrArg Tally.assignments htally, Tally.total_ofViolations _⟩

/-- A call passes four arguments to the guarded parameter `a` and the safe parameter `b`, and the
last three go to `b`.  A value is assigned to the safe variable `t` and one returned from a safe
method; the second assignment is not reached.  When the first value is forbidden, `a` does not
admit it either. -/
theorem Scope.violations_exact_call :
    let m : Decl := ⟨⟨0⟩, "m", .method [⟨1⟩, ⟨2⟩] .void true false, [], []⟩
    let a : Decl := ⟨⟨1⟩, "a", .parameter .null m.id, [Marks.standard.guarded], []⟩
    let b : Decl := ⟨⟨2⟩, "b", .parameter .null m.id, [Marks.standard.safe], []⟩
    let h : Decl := ⟨⟨3⟩, "h", .classMethod .null, [Marks.standard.safe], []⟩
    let t : Decl := ⟨⟨4⟩, "t", .localVar .null false, [Marks.standard.safe], []⟩
    let sc : Scope := ⟨⟨#[m, a, b, h, t]⟩, .standard⟩
    let nodes : List Operation := [.var ⟨5⟩, .var ⟨6⟩, .methodAccess none m.id,
      .invocation 2 m.id [0, 1, 0, 1] .void, .var t.id, .assignment 4 0, .leave (some 1),
      .assignment 4 1]
    let g : Graph :=
      { nodes.foldl (fun g op => g.addNode 0 op) Graph.start with method := some h.id }
    let findings : Table NodeId Finding := Table.ofList [(0, ⟨.guarded, ∅⟩), (1, ⟨.forbidden, ∅⟩),
      (3, ⟨.unknown, ∅⟩), (5, ⟨.guarded, ∅⟩), (6, ⟨.forbidden, ∅⟩)]
    let o : Outcome := ⟨findings, ∅, none, 1, true⟩
    let o' : Outcome := { o with findings := findings.insert 0 ⟨.forbidden, ∅⟩ }
    let v : Violation := ⟨.assignment, 0, t.id, "t", .safe, .guarded⟩
    (sc.flagged g o).map (fun s => (s.node, s.place)) = [(3, 1), (3, 2), (3, 3), (5, 0), (6, 0)] ∧
      (sc.violations g o).map Violation.targetName = ["b", "b", "b", "t", "h"] ∧
      v ∈ sc.violations g o ∧ v.declared.rank < v.actual.rank ∧
      (Report.ofOutcome g.method o (sc.violations g o)).tally = ⟨3, 1, 1⟩ ∧
      (sc.flagged g o).Sublist (sc.flagged g o') ∧ (sc.flagged g o').length = 6 := by
  intro m a b h t sc nodes g findings o o' v
  have hget (n : NodeId) : o'.findings.get? n =
      if 0 = n then some ⟨.forbidden, ∅⟩ else o.findings.get? n := Table.get?_insert findings 0 n _
  have hraised (n : NodeId) :
      o'.isReached n = o.isReached n ∧ o.valueOf n ≤ o'.valueOf n := by
    by_cases hn : 0 = n
    · subst n
      decide +kernel
    · rw [Outcome.isReached, Table.contains, Outcome.valueOf, Outcome.valueOf, hget, if_neg hn]
      exact ⟨rfl, Nat.le_refl _⟩
  obtain ⟨-, -, -, hstricter, -, hmono⟩ := Scope.violations_exact sc g o
  have hv : v ∈ sc.violations g o := by decide +kernel
  have hsublist := hmono o' (fun n => (hraised n).1) (fun n => (hraised n).2)
  exact ⟨by decide +kernel, by decide +kernel, hv, (hstricter v hv).2.1, by decide +kernel,
    hsublist, by decide +kernel⟩

end Disclosure
