import Disclosure.Proofs.Memory
import Disclosure.Scope
import Mathlib.Data.List.Perm.Subperm
import Mathlib.Logic.Relation
import Mathlib.Order.Bounds.Basic

/-!
# What a declaration takes over

A declaration without a class of its own takes over classes along inheritance: a method from the
methods that it overrides, a parameter from those at its place in the methods that its method
overrides.  The class of a declaration is the one that its annotations declare, or else the
strictest among `unknown` and the classes that are declared on what can be reached along
inheritance.

Overrides may form cycles, name declarations that do not exist, or name declarations of another
kind.  The recursion gives up a declaration that it meets again, so it follows only chains without
repetition, and the class that it gets at one declaration on a cycle depends on where it started.
Nothing is lost at the start: if a declaration can be reached from `id` at all, it can be reached
from one of the sources of `id` without coming back to `id`.

The recursion is defined with a bound on its depth.  `Scope.Classifies` says by rules what it does
without a bound, where a class is given by a finite derivation.  What holds of the class is proved
from the rules, and the bound matters only for the derivation to exist: it is never used up.
-/

namespace Disclosure

/-- The annotations of a declaration declare a class; of several the strictest counts. -/
inductive Marks.Declares (m : Marks) (s : Decl) : Sensitivity → Prop where
  | forbidden (h : m.forbidden ∈ s.annotations) : m.Declares s .forbidden
  | guarded (hforbidden : m.forbidden ∉ s.annotations) (h : m.guarded ∈ s.annotations) :
      m.Declares s .guarded
  | safe (hforbidden : m.forbidden ∉ s.annotations) (hguarded : m.guarded ∉ s.annotations)
      (h : m.safe ∈ s.annotations) : m.Declares s .safe

theorem Marks.declaredOn_eq_some_iff {m : Marks} {s : Decl} {c : Sensitivity} :
    m.declaredOn s = some c ↔ m.Declares s c := by
  simp only [declaredOn, Decl.isMarked, List.contains_iff_mem]
  constructor
  · intro h
    split at h
    · cases h
      exact .forbidden ‹_›
    · split at h
      · cases h
        exact .guarded ‹_› ‹_›
      · split at h
        · cases h
          exact .safe ‹_› ‹_› ‹_›
        · cases h
  · intro h
    cases h with
    | forbidden h => simp [h]
    | guarded hforbidden h => simp [hforbidden, h]
    | safe hforbidden hguarded h => simp [hforbidden, hguarded, h]

theorem Decl.isVirtual_iff {s : Decl} :
    s.isVirtual = true ↔ ∃ params returnType, s.role = .method params returnType false false := by
  unfold Decl.isVirtual
  cases s.role with
  | method params returnType isStatic isConstructor =>
      cases isStatic <;> cases isConstructor <;> simp
  | _ => simp

theorem Program.getElem?_paramsOf_eq_some_iff {p : Program} {id param : DeclId} {i : Nat} :
    (p.paramsOf id)[i]? = some param ↔ ∃ s params returnType isStatic isConstructor,
      p.decl? id = some s ∧ s.role = .method params returnType isStatic isConstructor ∧
        params[i]? = some param := by
  unfold Program.paramsOf
  cases p.decl? id with
  | none => simp
  | some s =>
      obtain ⟨sid, name, role, annotations, overrides⟩ := s
      cases role with
      | method params returnType isStatic isConstructor =>
          cases isStatic <;> cases isConstructor <;> simp [Decl.params]
      | _ => simp [Decl.params]

theorem findIdx?_eq_some_iff_getElem? {ids : List DeclId} {id : DeclId} {i : Nat} :
    ids.findIdx? (fun q => decide (q = id)) = some i ↔ ids[i]? = some id ∧ id ∉ ids.take i := by
  rw [List.findIdx?_eq_some_iff_getElem]
  constructor
  · rintro ⟨hi, hid, hfirst⟩
    simp only [decide_eq_true_eq] at hid hfirst
    refine ⟨by rw [List.getElem?_eq_getElem hi, hid], fun hmem => ?_⟩
    obtain ⟨j, hj, hget⟩ := List.mem_take_iff_getElem.1 hmem
    exact hfirst j (by omega) hget
  · rintro ⟨hget, hfirst⟩
    obtain ⟨hi, hid⟩ := List.getElem?_eq_some_iff.1 hget
    refine ⟨hi, by simp [hid], fun j hj => ?_⟩
    simp only [decide_eq_true_eq]
    intro hjid
    exact hfirst (List.mem_take_iff_getElem.2 ⟨j, by omega, hjid⟩)

theorem Program.mem_overriddenParams_iff {p : Program} {param owner source : DeclId} :
    source ∈ p.overriddenParams param owner ↔ ∃ o params returnType i, p.decl? owner = some o ∧
      o.role = .method params returnType false false ∧ params[i]? = some param ∧
        param ∉ params.take i ∧ ∃ overridden ∈ o.overrides,
          (p.paramsOf overridden)[i]? = some source := by
  constructor
  · intro h
    unfold Program.overriddenParams at h
    split at h
    · rename_i o ho
      split at h
      · rename_i hvirtual
        obtain ⟨params, returnType, hrole⟩ := Decl.isVirtual_iff.1 hvirtual
        have hparams : p.paramsOf owner = params := by
          simp [Program.paramsOf, ho, Decl.params, hrole]
        have hoverrides : p.overridesOf owner = o.overrides := by simp [Program.overridesOf, ho]
        rw [hparams, hoverrides] at h
        split at h
        · rename_i i hi
          obtain ⟨hplace, hfirst⟩ := findIdx?_eq_some_iff_getElem?.1 hi
          obtain ⟨overridden, hoverridden, hsource⟩ := List.mem_filterMap.1 h
          exact ⟨o, params, returnType, i, ho, hrole, hplace, hfirst, overridden, hoverridden,
            hsource⟩
        · cases h
      · cases h
    · cases h
  · rintro ⟨o, params, returnType, i, ho, hrole, hplace, hfirst, overridden, hoverridden, hsource⟩
    have hvirtual : o.isVirtual = true := Decl.isVirtual_iff.2 ⟨params, returnType, hrole⟩
    have hparams : p.paramsOf owner = params := by simp [Program.paramsOf, ho, Decl.params, hrole]
    have hoverrides : p.overridesOf owner = o.overrides := by simp [Program.overridesOf, ho]
    have hi := findIdx?_eq_some_iff_getElem?.2 ⟨hplace, hfirst⟩
    simp only [Program.overriddenParams, ho, hvirtual, if_true, hparams, hi, hoverrides]
    exact List.mem_filterMap.2 ⟨overridden, hoverridden, hsource⟩

namespace Scope

def Declared (sc : Scope) (id : DeclId) (c : Sensitivity) : Prop :=
  ∃ s, sc.program.decl? id = some s ∧ sc.marks.Declares s c

/-- A declaration of the program that is not annotated with a class. -/
def Bare (sc : Scope) (id : DeclId) (s : Decl) : Prop :=
  sc.program.decl? id = some s ∧ ∀ c, ¬ sc.marks.Declares s c

/-- A declaration takes over the class of another. -/
inductive Inherits (sc : Scope) : DeclId → DeclId → Prop where
  /-- A method that is neither static nor a constructor inherits from each method it overrides. -/
  | method {id source : DeclId} {s : Decl} {params : List DeclId} {returnType : Ty}
      (hs : sc.Bare id s) (hrole : s.role = .method params returnType false false)
      (hsource : source ∈ s.overrides) : sc.Inherits id source
  /-- A parameter of such a method, which is first listed at place `i`, inherits from the parameter
  at that place of each method that is overridden. -/
  | parameter {id owner overridden source : DeclId} {s o t : Decl} {ty returnType returnType' : Ty}
      {params params' : List DeclId} {isStatic isConstructor : Bool} {i : Nat}
      (hs : sc.Bare id s) (hrole : s.role = .parameter ty owner)
      (ho : sc.program.decl? owner = some o)
      (howner : o.role = .method params returnType false false)
      (hplace : params[i]? = some id) (hfirst : id ∉ params.take i)
      (hoverridden : overridden ∈ o.overrides) (ht : sc.program.decl? overridden = some t)
      (hmethod : t.role = .method params' returnType' isStatic isConstructor)
      (hsource : params'[i]? = some source) : sc.Inherits id source

variable {sc : Scope} {id source : DeclId}

theorem Inherits.bare (h : sc.Inherits id source) : ∃ s, sc.Bare id s := by
  cases h with
  | method hs => exact ⟨_, hs⟩
  | parameter hs => exact ⟨_, hs⟩

theorem mem_sources_iff {s : Decl} (hs : sc.Bare id s) :
    source ∈ sc.program.sources id ↔ sc.Inherits id source := by
  unfold Program.sources
  rw [hs.1]
  constructor
  · intro h
    cases hrole : s.role with
    | method params returnType isStatic isConstructor =>
        simp only [hrole] at h
        split at h
        · obtain ⟨_, _, hvirtual⟩ := Decl.isVirtual_iff.1 ‹_›
          exact .method hs hvirtual h
        · cases h
    | parameter ty owner =>
        simp only [hrole] at h
        obtain ⟨o, params, returnType, i, ho, howner, hplace, hfirst, overridden, hoverridden,
          hget⟩ := Program.mem_overriddenParams_iff.1 h
        obtain ⟨t, params', returnType', isStatic, isConstructor, ht, hmethod, hsource⟩ :=
          Program.getElem?_paramsOf_eq_some_iff.1 hget
        exact .parameter hs hrole ho howner hplace hfirst hoverridden ht hmethod hsource
    | _ => simp [hrole] at h
  · intro h
    cases h with
    | method hs' hrole hsource =>
        cases hs.1.symm.trans hs'.1
        simpa [hrole, Decl.isVirtual_iff] using hsource
    | parameter hs' hrole ho howner hplace hfirst hoverridden ht hmethod hsource =>
        cases hs.1.symm.trans hs'.1
        simp only [hrole]
        have hget := Program.getElem?_paramsOf_eq_some_iff.2 ⟨_, _, _, _, _, ht, hmethod, hsource⟩
        exact Program.mem_overriddenParams_iff.2 ⟨_, _, _, _, ho, howner, hplace, hfirst, _,
          hoverridden, hget⟩

/-! ## Chains without repetition -/

/-- Reachable along inheritance, where no step starts at a declaration of `path`. -/
def ReachesOutside (sc : Scope) (path : List DeclId) : DeclId → DeclId → Prop :=
  Relation.ReflTransGen fun a b => a ∉ path ∧ sc.Inherits a b

variable {path : List DeclId}

/-- What is reached from `a` is reached without a step from `id`, or it is so reached from a source
of `id`: the chain is cut at its last visit of `id`. -/
theorem ReachesOutside.cut {a : DeclId} (h : sc.ReachesOutside path a source) (id : DeclId) :
    sc.ReachesOutside (id :: path) a source ∨
      ∃ next, sc.Inherits id next ∧ sc.ReachesOutside (id :: path) next source := by
  induction h using Relation.ReflTransGen.head_induction_on with
  | refl => exact Or.inl .refl
  | @head x y step _ ih =>
      cases ih with
      | inr hlater => exact Or.inr hlater
      | inl hrest =>
          by_cases hx : x = id
          · exact Or.inr ⟨y, hx ▸ step.2, hrest⟩
          · have hoff : x ∉ id :: path := by simp [hx, step.1]
            exact Or.inl (.head ⟨hoff, step.2⟩ hrest)

theorem ReachesOutside.eq_or_notMem (h : sc.ReachesOutside path id source) :
    id = source ∨ (id ∉ path ∧ ∃ s, sc.Bare id s) := by
  cases h.cases_head with
  | inl heq => exact Or.inl heq
  | inr hstep =>
      obtain ⟨next, hnext, _⟩ := hstep
      exact Or.inr ⟨hnext.1, hnext.2.bare⟩

theorem ReachesOutside.exists_inherits (h : sc.ReachesOutside path id source) (hne : id ≠ source) :
    ∃ next, sc.Inherits id next ∧ sc.ReachesOutside (id :: path) next source := by
  cases h.cut id with
  | inr hnext => exact hnext
  | inl hself =>
      cases hself.eq_or_notMem with
      | inl heq => exact absurd heq hne
      | inr hoff => exact absurd List.mem_cons_self hoff.1

end Scope

theorem Program.length_le_size {p : Program} {path : List DeclId} (hnodup : path.Nodup)
    (hpath : ∀ id ∈ path, (p.decl? id).isSome = true) : path.length ≤ p.size := by
  have hinjective : Function.Injective fun id : DeclId => id.index.toNat := by
    rintro ⟨i⟩ ⟨j⟩ hij
    exact congrArg DeclId.mk (UInt32.toNat_inj.1 hij)
  have hsubset : path.map (fun id => id.index.toNat) ⊆ List.range p.size := by
    intro i hi
    obtain ⟨id, hid, rfl⟩ := List.mem_map.1 hi
    obtain ⟨s, hs⟩ := Option.isSome_iff_exists.1 (hpath id hid)
    obtain ⟨hlt, _⟩ := Array.getElem?_eq_some_iff.1 hs
    exact List.mem_range.2 hlt
  have hlength := (List.subperm_of_subset (hnodup.map hinjective) hsubset).length_le
  simpa using hlength

namespace Scope

variable {sc : Scope} {id source : DeclId} {path : List DeclId} {depth : Nat}

/-! ## The class that the recursion gets -/

theorem Declared.unique {c c' : Sensitivity} (h : sc.Declared id c) (h' : sc.Declared id c') :
    c = c' := by
  obtain ⟨s, hs, hc⟩ := h
  obtain ⟨s', hs', hc'⟩ := h'
  cases hs.symm.trans hs'
  rw [← Marks.declaredOn_eq_some_iff] at hc hc'
  exact Option.some.inj (hc.symm.trans hc')

theorem Bare.not_declared {s : Decl} (hs : sc.Bare id s) (c : Sensitivity) :
    ¬ sc.Declared id c := by
  rintro ⟨s', hs', hc⟩
  cases hs.1.symm.trans hs'
  exact hs.2 c hc

theorem not_declared_of_absent {c : Sensitivity} (h : sc.program.decl? id = none) :
    ¬ sc.Declared id c := by
  rintro ⟨s, hs, _⟩
  cases h.symm.trans hs

theorem declared_or_bare_or_absent (sc : Scope) (id : DeclId) :
    (∃ c, sc.Declared id c) ∨ (∃ s, sc.Bare id s) ∨ sc.program.decl? id = none := by
  cases hs : sc.program.decl? id with
  | none => exact Or.inr (Or.inr rfl)
  | some s =>
      cases hc : sc.marks.declaredOn s with
      | some c => exact Or.inl ⟨c, s, hs, Marks.declaredOn_eq_some_iff.1 hc⟩
      | none =>
          have hbare : ∀ c, ¬ sc.marks.Declares s c := by
            intro c h
            rw [← Marks.declaredOn_eq_some_iff, hc] at h
            cases h
          exact Or.inr (Or.inl ⟨s, hs, hbare⟩)

theorem classifyWithin_of_declared {c : Sensitivity} (h : sc.Declared id c) :
    sc.classifyWithin (depth + 1) path id = c := by
  obtain ⟨s, hs, hc⟩ := h
  simp only [classifyWithin, hs, Marks.declaredOn_eq_some_iff.2 hc]

theorem classifyWithin_of_absent (h : sc.program.decl? id = none) :
    sc.classifyWithin depth path id = .unknown := by
  cases depth with
  | zero => rfl
  | succ depth => simp only [classifyWithin, h]

theorem classifyWithin_of_bare {s : Decl} (h : sc.Bare id s) :
    sc.classifyWithin (depth + 1) path id =
      if id ∈ path then .unknown
      else (sc.program.sources id).foldl
        (fun sofar source => sofar.join (sc.classifyWithin depth (id :: path) source))
        .unknown := by
  have hnone : sc.marks.declaredOn s = none := by
    cases hc : sc.marks.declaredOn s with
    | none => rfl
    | some c => exact absurd (Marks.declaredOn_eq_some_iff.1 hc) (h.2 c)
  simp only [classifyWithin, h.1, hnone]

/-- The recursion without a bound.  A declaration without a class of its own is given up where it is
met again; otherwise its sources are classified first, from a path that it has joined. -/
inductive Classifies (sc : Scope) : List DeclId → DeclId → Sensitivity → Prop where
  | declared {path : List DeclId} {id : DeclId} {c : Sensitivity} (hc : sc.Declared id c) :
      sc.Classifies path id c
  | absent {path : List DeclId} {id : DeclId} (h : sc.program.decl? id = none) :
      sc.Classifies path id .unknown
  | repeated {path : List DeclId} {id : DeclId} {s : Decl} (hs : sc.Bare id s) (hon : id ∈ path) :
      sc.Classifies path id .unknown
  | inherited {path : List DeclId} {id : DeclId} {s : Decl} {classOf : DeclId → Sensitivity}
      (hs : sc.Bare id s) (hoff : id ∉ path)
      (hsources : ∀ source ∈ sc.program.sources id,
        sc.Classifies (id :: path) source (classOf source)) :
      sc.Classifies path id ((sc.program.sources id).foldl
        (fun sofar source => sofar.join (classOf source)) .unknown)

/-- A depth that exceeds what the path leaves of the program is never used up: the path grows with
every step and does not repeat. -/
theorem classifies_classifyWithin (hnodup : path.Nodup)
    (hpath : ∀ id ∈ path, (sc.program.decl? id).isSome = true)
    (hdepth : sc.program.size < depth + path.length) :
    sc.Classifies path id (sc.classifyWithin depth path id) := by
  induction depth generalizing path id with
  | zero =>
      have hlength := Program.length_le_size hnodup hpath
      omega
  | succ depth ih =>
      rcases sc.declared_or_bare_or_absent id with ⟨c, hc⟩ | ⟨s, hs⟩ | habsent
      · rw [classifyWithin_of_declared hc]
        exact .declared hc
      · rw [classifyWithin_of_bare hs]
        split
        · exact .repeated hs ‹_›
        · refine .inherited hs ‹_› fun source _ => ih (List.nodup_cons.2 ⟨‹_›, hnodup⟩) ?_ ?_
          · intro id' hid'
            cases hid' with
            | head => rw [hs.1, Option.isSome_some]
            | tail _ hmem => exact hpath id' hmem
          · rw [List.length_cons]
            omega
      · rw [classifyWithin_of_absent habsent]
        exact .absent habsent

/-! ## The class in closed form -/

/-- The classes among which that of a declaration without annotations is the strictest: `unknown`,
and whatever is declared on what can be reached along inheritance. -/
def inheritable (sc : Scope) (id : DeclId) : Set Sensitivity :=
  {c | c = .unknown ∨ ∃ source, Relation.ReflTransGen sc.Inherits id source ∧ sc.Declared source c}

namespace Classifies

variable {c : Sensitivity}

theorem mem_inheritable (h : sc.Classifies path id c) : c ∈ sc.inheritable id := by
  induction h with
  | declared hc => exact Or.inr ⟨_, .refl, hc⟩
  | absent _ => exact Or.inl rfl
  | repeated _ _ => exact Or.inl rfl
  | @inherited path id s classOf hs _ _ ih =>
      apply Sensitivity.foldl_join_induction (P := (· ∈ sc.inheritable id)) (Or.inl rfl)
      intro source hsource
      cases ih source hsource with
      | inl hunknown => exact Or.inl hunknown
      | inr hreached =>
          obtain ⟨last, hlast, hc⟩ := hreached
          exact Or.inr ⟨last, .head ((mem_sources_iff hs).1 hsource) hlast, hc⟩

theorem declared_or_not (h : sc.Classifies path id c) :
    sc.Declared id c ∨ ∀ c', ¬ sc.Declared id c' := by
  cases h with
  | declared hc => exact Or.inl hc
  | absent habsent => exact Or.inr fun _ => not_declared_of_absent habsent
  | repeated hs _ => exact Or.inr hs.not_declared
  | inherited hs _ _ => exact Or.inr hs.not_declared

theorem unknown_le (h : sc.Classifies path id c) (hnone : ∀ c', ¬ sc.Declared id c') :
    .unknown ≤ c := by
  cases h with
  | declared hc => exact absurd hc (hnone c)
  | absent _ => exact le_refl _
  | repeated _ _ => exact le_refl _
  | inherited _ _ _ => exact Sensitivity.le_foldl_join

/-- The recursion misses nothing that can be reached without a step from its path. -/
theorem le_of_reachesOutside {c' : Sensitivity} (h : sc.Classifies path id c)
    (hreach : sc.ReachesOutside path id source) (hc' : sc.Declared source c') : c' ≤ c := by
  induction h with
  | declared hc =>
      rcases hreach.eq_or_notMem with rfl | ⟨_, s, hs⟩
      · exact (hc'.unique hc).le
      · exact absurd hc (hs.not_declared _)
  | absent habsent =>
      rcases hreach.eq_or_notMem with rfl | ⟨_, s, hs⟩
      · exact absurd hc' (not_declared_of_absent habsent)
      · cases habsent.symm.trans hs.1
  | repeated hs hon =>
      rcases hreach.eq_or_notMem with rfl | ⟨hoff, _⟩
      · exact absurd hc' (hs.not_declared _)
      · exact absurd hon hoff
  | @inherited path id s classOf hs _ _ ih =>
      have hne : id ≠ source := by
        rintro rfl
        exact hs.not_declared _ hc'
      obtain ⟨next, hnext, hrest⟩ := hreach.exists_inherits hne
      have hsource : next ∈ sc.program.sources id := (mem_sources_iff hs).2 hnext
      exact (ih next hsource hrest).trans (Sensitivity.le_foldl_join_of_mem hsource)

end Classifies

/-- The class of a declaration in closed form: declared by its annotations, or else the strictest of
`unknown` and what is declared on the declarations that it reaches along inheritance. -/
def Resolves (sc : Scope) (id : DeclId) (c : Sensitivity) : Prop :=
  sc.Declared id c ∨ (∀ c', ¬ sc.Declared id c') ∧ IsGreatest (sc.inheritable id) c

theorem Resolves.unique {c c' : Sensitivity} (h : sc.Resolves id c) (h' : sc.Resolves id c') :
    c = c' := by
  cases h with
  | inl hc =>
      cases h' with
      | inl hc' => exact hc.unique hc'
      | inr hc' => exact absurd hc (hc'.1 c)
  | inr hc =>
      cases h' with
      | inl hc' => exact absurd hc' (hc.1 c')
      | inr hc' => exact hc.2.unique hc'.2

theorem Classifies.resolves {c : Sensitivity} (h : sc.Classifies [] id c) : sc.Resolves id c := by
  cases h.declared_or_not with
  | inl hc => exact Or.inl hc
  | inr hnone =>
      refine Or.inr ⟨hnone, h.mem_inheritable, ?_⟩
      intro c' hc'
      cases hc' with
      | inl hunknown => exact hunknown ▸ h.unknown_le hnone
      | inr hreached =>
          obtain ⟨source, hreach, hsource⟩ := hreached
          have houtside : sc.ReachesOutside [] id source := by
            simpa [ReachesOutside] using hreach
          exact h.le_of_reachesOutside houtside hsource

theorem classifies_of_size_lt (sc : Scope) (id : DeclId) (hdepth : sc.program.size < depth) :
    sc.Classifies [] id (sc.classifyWithin depth [] id) :=
  classifies_classifyWithin List.nodup_nil (fun _ hid => absurd hid List.not_mem_nil) hdepth

theorem classifies_classify (sc : Scope) (id : DeclId) : sc.Classifies [] id (sc.classify id) :=
  sc.classifies_of_size_lt id (Nat.lt_succ_self _)

theorem classifyWithin_eq_classify (id : DeclId) (hdepth : sc.program.size < depth) :
    sc.classifyWithin depth [] id = sc.classify id :=
  (sc.classifies_of_size_lt id hdepth).resolves.unique (sc.classifies_classify id).resolves

/-- Every declaration has the class that the closed form gives.  A greater depth than the one that
is used changes nothing, and the class is the one that the recursion without a bound derives: it
ends by itself, also on cyclic overrides, and the depth is never used up. -/
theorem classify_eq_iff_resolves (sc : Scope) (id : DeclId) :
    (∀ c, sc.classify id = c ↔ sc.Resolves id c) ∧
      (∀ depth, sc.program.size < depth → sc.classifyWithin depth [] id = sc.classify id) ∧
      ∀ c, sc.Classifies [] id c ↔ sc.classify id = c := by
  have hclassify : sc.Classifies [] id (sc.classify id) := sc.classifies_classify id
  refine ⟨fun c => ⟨?_, ?_⟩, fun depth => classifyWithin_eq_classify id, fun c => ⟨?_, ?_⟩⟩
  · intro heq
    exact heq ▸ hclassify.resolves
  · intro hc
    exact hclassify.resolves.unique hc
  · intro hc
    exact hclassify.resolves.unique hc.resolves
  · intro heq
    exact heq ▸ hclassify

/-- Two methods override each other, the first of them also something that does not exist, and the
second also a method whose parameter is declared guarded.  The parameter of the first method is
guarded, too, through that of the second. -/
theorem classify_eq_iff_resolves_cycle :
    let methods := (((∅ : Program).declare "f" (.instanceMethod .void)).declare "g"
      (.instanceMethod .void)).declare "h" (.instanceMethod .void)
    let params := ((methods.declareParameter ⟨0⟩ "x" .null).declareParameter ⟨1⟩ "y"
      .null).declareParameter ⟨2⟩ "z" .null
    let p := ((((params.recordOverride ⟨0⟩ ⟨99⟩).recordOverride ⟨0⟩ ⟨1⟩).recordOverride
      ⟨1⟩ ⟨0⟩).recordOverride ⟨1⟩ ⟨2⟩).mark ⟨5⟩ Marks.standard.guarded
    let sc : Scope := ⟨p, .standard⟩
    sc.Resolves ⟨3⟩ .guarded ∧ sc.Resolves ⟨0⟩ .unknown ∧ p.size < 20 ∧
      sc.classifyWithin 20 [] ⟨3⟩ = sc.classify ⟨3⟩ ∧ sc.Classifies [] ⟨3⟩ .guarded := by
  intro methods params p sc
  have hsize : p.size < 20 := by decide +kernel
  have hparam : sc.classify ⟨3⟩ = .guarded := by decide +kernel
  have hmethod : sc.classify ⟨0⟩ = .unknown := by decide +kernel
  exact ⟨((sc.classify_eq_iff_resolves ⟨3⟩).1 .guarded).1 hparam,
    ((sc.classify_eq_iff_resolves ⟨0⟩).1 .unknown).1 hmethod, hsize,
    (sc.classify_eq_iff_resolves ⟨3⟩).2.1 20 hsize,
    ((sc.classify_eq_iff_resolves ⟨3⟩).2.2 .guarded).2 hparam⟩

end Scope

end Disclosure
