import Disclosure.Proofs.Analysis.Invariant
import Disclosure.Violation

/-!
# Where classes come from

The analysis invents no class.  `Sensitivity.join` and `Sensitivity.pool` give one of the two
classes that they are given, so whatever is computed from attested classes is attested: it is `safe`
or `unknown`, or annotations declare it on some declaration of the program.  This is an invariant of
the visit of a node, hence of all classes and all memories that the analysis reports.

A program in which nothing is annotated as guarded or forbidden attests no other classes than `safe`
and `unknown`, and every declaration of these classes admits both.
-/

namespace Disclosure

namespace Sensitivity

theorem pool_eq_or (a b : Sensitivity) : a.pool b = a ∨ a.pool b = b := by
  unfold pool
  split
  · exact Or.inr rfl
  · exact Or.inl rfl
  · exact join_eq_or a b

end Sensitivity

namespace Scope

variable {sc : Scope} {g : Graph} {a b : Sensitivity} {m m' : Memory} {v : Values}

/-- A class that is `safe` or `unknown`, or that the annotations of some declaration declare. -/
def Attested (sc : Scope) (s : Sensitivity) : Prop :=
  s = .safe ∨ s = .unknown ∨ ∃ d ∈ sc.program.decls, sc.marks.declaredOn d = some s

namespace Attested

theorem safe (sc : Scope) : sc.Attested .safe := Or.inl rfl

theorem unknown (sc : Scope) : sc.Attested .unknown := Or.inr (Or.inl rfl)

theorem declared {id : DeclId} {d : Decl} {s : Sensitivity} (hd : sc.program.decl? id = some d)
    (hs : sc.marks.declaredOn d = some s) : sc.Attested s :=
  Or.inr (Or.inr ⟨d, Array.mem_of_getElem? hd, hs⟩)

theorem join (ha : sc.Attested a) (hb : sc.Attested b) : sc.Attested (a.join b) := by
  cases a.join_eq_or b with
  | inl h => rwa [h]
  | inr h => rwa [h]

theorem pool (ha : sc.Attested a) (hb : sc.Attested b) : sc.Attested (a.pool b) := by
  cases a.pool_eq_or b with
  | inl h => rwa [h]
  | inr h => rwa [h]

end Attested

/-! ## Declared classes -/

theorem attested_classifyWithin (sc : Scope) (depth : Nat) (path : List DeclId) (id : DeclId) :
    sc.Attested (sc.classifyWithin depth path id) := by
  induction depth generalizing path id with
  | zero => exact .unknown sc
  | succ depth ih =>
      unfold classifyWithin
      cases hd : sc.program.decl? id with
      | none => exact .unknown sc
      | some d =>
          cases hs : sc.marks.declaredOn d with
          | some s =>
              simp only [hs]
              exact .declared hd hs
          | none =>
              simp only [hs]
              split
              · exact .unknown sc
              · exact Sensitivity.foldl_join_induction (.unknown sc)
                  fun source _ => ih (id :: path) source

theorem attested_classify (sc : Scope) (id : DeclId) : sc.Attested (sc.classify id) :=
  sc.attested_classifyWithin _ _ _

theorem attested_classifyTy (sc : Scope) (ty : Ty) : sc.Attested (sc.classifyTy ty) := by
  unfold classifyTy
  cases ty.declaration? with
  | none => exact .unknown sc
  | some id => exact sc.attested_classify id

theorem attested_classifyTyOf (sc : Scope) (id : DeclId) : sc.Attested (sc.classifyTyOf id) := by
  unfold classifyTyOf
  cases (sc.program.decl? id).bind Decl.ty? with
  | none => exact .unknown sc
  | some ty => exact sc.attested_classifyTy ty

/-! ## Computed classes -/

def AttestedIn (sc : Scope) (m : Memory) : Prop := ∀ {l s}, m.get? l = some s → sc.Attested s

theorem AttestedIn.read (h : sc.AttestedIn m) (l : Location) : sc.Attested (m.read l) := by
  unfold Memory.read
  cases hs : m.get? l with
  | none => exact .unknown sc
  | some s => exact h hs

theorem AttestedIn.insertAll (h : sc.AttestedIn m) {es : List (Location × Sensitivity)}
    (hes : ∀ e ∈ es, sc.Attested e.2) : sc.AttestedIn (m.insertAll es) := by
  intro l s hs
  cases Table.mem_or_get?_of_insertAll hs with
  | inl hmem => exact hes _ hmem
  | inr hold => exact h hold

theorem AttestedIn.join (h : sc.AttestedIn m) (h' : sc.AttestedIn m') :
    sc.AttestedIn (m.join m') := by
  intro l s hs
  -- a listed class is what the join reads there, so it is the join of two classes that are read
  have hread : (m.join m').read l = s := by rw [Memory.read, hs, Option.getD_some]
  rw [← hread, Memory.read_join]
  exact (h.read l).join (h'.read l)

theorem attestedIn_entryMemory (sc : Scope) (g : Graph) : sc.AttestedIn (sc.entryMemory g) := by
  have hempty : sc.AttestedIn ∅ := fun hs => by cases hs
  apply hempty.insertAll
  intro e he
  obtain ⟨param, -, rfl⟩ := List.mem_map.1 he
  exact sc.attested_classify param

theorem attested_evaluate (sc : Scope) (hm : sc.AttestedIn m)
    (hv : ∀ n, sc.Attested (v.read n)) (op : Operation) :
    sc.Attested (sc.evaluate m v op) := by
  cases op with
  | literal | nullCheck => exact .safe sc
  | unary _ n | display n | assignment _ n => exact hv n
  | binary _ l n | concat l n | concatUpdate l n | ternary _ l n => exact (hv l).join (hv n)
  | var id =>
      simp only [evaluate]
      split
      · exact .safe sc
      · exact hm.read _
  | declaration id => exact sc.attested_classifyTyOf id
  | field _ id => exact (sc.attested_classifyTyOf id).pool (sc.attested_classify id)
  | convert n | cast n => exact (hv n).pool (sc.attested_classifyTy _)
  | leave result =>
      cases result with
      | none => exact .safe sc
      | some n => exact hv n
  | invocation _ method | creation method =>
      exact (sc.attested_classifyTy _).pool (sc.attested_classify method)
  | _ => exact .unknown sc

theorem attested_of_mem_updatesOf (hv : ∀ n, sc.Attested (v.read n)) {op : Operation}
    {e : Location × Sensitivity} (he : e ∈ g.updatesOf v op) : sc.Attested e.2 := by
  cases op with
  | assignment target value =>
      cases Graph.snd_of_mem_updatesAt he with
      | inl h =>
          rw [h]
          exact hv value
      | inr h =>
          obtain ⟨n, h⟩ := h
          rw [h]
          exact (hv n).join (hv value)
  | _ => exact absurd he List.not_mem_nil

theorem maintains_attested (sc : Scope) (g : Graph) :
    sc.Maintains g (fun v => ∀ n, sc.Attested (v.read n)) fun m => sc.AttestedIn m where
  values_empty _ := .unknown sc
  entry := sc.attestedIn_entryMemory g
  join hm hm' := hm.join hm'
  visit {b block node pt} _ _ _ hv hm := by
    constructor
    · intro n
      simp only [visitNode, Values.read_insert]
      split
      · exact sc.attested_evaluate hm hv node.op
      · exact hv n
    · simp only [visitNode, Graph.execute_eq_insertAll]
      exact hm.insertAll fun e he => attested_of_mem_updatesOf hv he

theorem attested_valueOf (sc : Scope) (g : Graph) (bound : Nat) (n : NodeId) :
    sc.Attested ((sc.analyze g bound).valueOf n) := by
  cases (sc.maintains_attested g).of_valueOf bound n with
  | inl hunknown =>
      rw [hunknown]
      exact .unknown sc
  | inr hread =>
      obtain ⟨v, hv, hread⟩ := hread
      rw [hread]
      exact hv n

/-! ## Programs without warnings -/

/-- No declaration carries the annotation of guarded or of forbidden values. -/
def Unwarned (sc : Scope) : Prop :=
  ∀ d ∈ sc.program.decls,
    d.isMarked sc.marks.guarded = false ∧ d.isMarked sc.marks.forbidden = false

instance (sc : Scope) : Decidable sc.Unwarned :=
  inferInstanceAs (Decidable (∀ d ∈ sc.program.decls, _ ∧ _))

theorem Unwarned.attested (h : sc.Unwarned) {s : Sensitivity} (hs : sc.Attested s) :
    s = .safe ∨ s = .unknown := by
  cases hs with
  | inl hsafe => exact Or.inl hsafe
  | inr hs =>
      cases hs with
      | inl hunknown => exact Or.inr hunknown
      | inr hdeclared =>
          obtain ⟨d, hd, hs⟩ := hdeclared
          obtain ⟨hguarded, hforbidden⟩ := h d hd
          simp only [Marks.declaredOn, hguarded, hforbidden, Bool.false_eq_true, if_false,
            Option.ite_none_right_eq_some, Option.some.injEq] at hs
          exact Or.inl hs.2.symm

theorem Unwarned.admits (h : sc.Unwarned) (ha : sc.Attested a) (hb : sc.Attested b) :
    a.admits b = true := by
  cases h.attested ha with
  | inr hunknown => simp [hunknown, Sensitivity.admits]
  | inl hsafe =>
      cases h.attested hb with
      | inl hb => simp [hsafe, hb, Sensitivity.admits]
      | inr hb => simp [hsafe, hb, Sensitivity.admits]

/-- Every class that the analysis of a graph reports, for a value or in a memory, is attested, with
whatever bound.  So there are no violations where nothing is annotated as guarded or forbidden. -/
theorem attested_analyze (sc : Scope) (g : Graph) (bound : Nat) :
    (∀ n, sc.Attested ((sc.analyze g bound).valueOf n)) ∧
    (∀ m, (sc.analyze g bound).Reports m → ∀ l s, m.get? l = some s → sc.Attested s) ∧
    (sc.Unwarned → sc.violations g (sc.analyze g bound) = []) := by
  refine ⟨sc.attested_valueOf g bound, ?_, ?_⟩
  · intro m hm l s hs
    exact (sc.maintains_attested g).of_reports bound hm hs
  · intro h
    apply List.flatMap_eq_nil_iff.2
    intro node _
    apply List.filterMap_eq_nil_iff.2
    intro f _
    have hadmits := h.admits (sc.attested_classify f.target) (sc.attested_valueOf g bound f.value)
    simp [violation?, hadmits]

/-- A call in a loop passes a variable to a parameter that is declared safe.  The variable is
assigned a literal afterwards, so in the next round its class is the join of what it was before and
`safe`. -/
theorem attested_analyze_unwarned :
    let p : Program := ((((∅ : Program).declare "log" (.classMethod .void)).declareParameter ⟨0⟩
      "message" .null).mark ⟨1⟩ Marks.standard.safe).declare "count" (.localVar .null false)
    let g : Graph := (((((((((Graph.start.addBlock.addBlock.addNode
      3 (.methodAccess none ⟨0⟩)).addNode 3 (.var ⟨2⟩)).addNode
      3 (.invocation 0 ⟨0⟩ [1] .void)).addNode 3 (.literal (.int 1))).addNode
      3 (.assignment 1 3)).addEdge 0 2).addEdge 2 3).addEdge 2 1).addEdge 3 2)
    let sc : Scope := ⟨p, .standard⟩
    let o := sc.analyze g 100
    sc.Unwarned ∧ sc.classify ⟨1⟩ = .safe ∧ o.isReached 2 = true ∧ sc.violations g o = [] ∧
      ∃ m, o.atExit = some m ∧ m.get? (.var ⟨2⟩) = some .unknown ∧ sc.Attested .unknown := by
  intro p g sc o
  have hunwarned : sc.Unwarned := by decide +kernel
  have hsafe : sc.classify ⟨1⟩ = .safe := by decide +kernel
  have hreached : o.isReached 2 = true := by decide +kernel
  have hlisted : (o.atExit.bind fun m => m.get? (.var ⟨2⟩)) = some .unknown := by decide +kernel
  obtain ⟨m, hm, hread⟩ := Option.bind_eq_some_iff.1 hlisted
  obtain ⟨-, hmemories, hviolations⟩ := sc.attested_analyze g 100
  exact ⟨hunwarned, hsafe, hreached, hviolations hunwarned, m, hm, hread,
    hmemories m (.exit hm) _ _ hread⟩

end Scope

end Disclosure
