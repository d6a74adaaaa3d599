import Mathlib.Logic.Relation
import Slicing.Proofs.Lists
import Slicing.Resolution

/-!
# Call resolution is exact

Which callables a call may reach, said by the declarations of a program and the order of its
types alone. A type is *below* another (`Program.Below`) if it gets there by naming
supertypes; types may have several supertypes, and cycles are allowed.

`Hierarchy.resolve_exact` says that a virtual call reaches the methods that the types below
the root of its dispatch declare or inherit, no other, and that an error says just that the
root is not declared or that there is no such method.
-/

namespace Slicing

open Relation

namespace Program

variable (program : Program)

/-- A type names another one as a supertype. -/
def Extends (s t : TypeId) : Prop := ∃ decl ∈ program.types, decl.id = s ∧ t ∈ decl.supertypes

/-- A type is another one, or gets there by naming supertypes. -/
def Below : TypeId → TypeId → Prop := ReflTransGen program.Extends

/-- A type declares a method with a signature. -/
structure DeclaresMethod (t : TypeId) (signature : Signature) (decl : CallableDecl) : Prop where
  mem : decl ∈ program.callables
  owner : decl.owner = t
  kind : decl.kind = .method
  signature : decl.signature = signature

/-- A method with a signature is the first one that a type declares. -/
def FirstMethod (t : TypeId) (signature : Signature) (decl : CallableDecl) : Prop :=
  ∃ before after, program.callables = before ++ decl :: after ∧
    (decl.owner = t ∧ decl.kind = .method ∧ decl.signature = signature) ∧
    ∀ earlier ∈ before, ¬(earlier.owner = t ∧ earlier.kind = .method ∧ earlier.signature = signature)

end Program

namespace Hierarchy

variable {program : Program} {h : Hierarchy}

/-! ## Declarations -/

/-- The declarations of a program in which no number is given twice. -/
structure Describes (h : Hierarchy) (program : Program) : Prop where
  types : h.types = program.types
  callables : h.callables = program.callables
  supertypes : ∀ decl ∈ program.types, ∀ t ∈ decl.supertypes, ∃ decl' ∈ program.types, decl'.id = t
  types_nodup : (program.types.map (·.id)).Nodup
  callables_nodup : (program.callables.map (·.id)).Nodup

/-- The hierarchy of a program holds its declarations, and the supertypes are declared. -/
theorem declared_of_ofProgram (hh : ofProgram program = .ok h) :
    h = ⟨program.types, program.callables⟩ ∧
      ∀ decl ∈ program.types, ∀ t ∈ decl.supertypes, ∃ decl' ∈ program.types, decl'.id = t := by
  unfold ofProgram at hh
  split at hh
  · cases hh
  · rename_i hnone
    cases hh
    refine ⟨rfl, fun decl hdecl t ht => ?_⟩
    have hdeclared := List.find?_eq_none.1 hnone t
      (List.mem_append_left _ (List.mem_flatMap.2 ⟨decl, hdecl, ht⟩))
    simpa using hdeclared

/-- The hierarchy of a program with distinct numbers describes it. -/
theorem describes_of_ofProgram (hh : ofProgram program = .ok h)
    (htypes : (program.types.map (·.id)).Nodup) (hcallables : (program.callables.map (·.id)).Nodup) :
    h.Describes program := by
  obtain ⟨rfl, hsupertypes⟩ := declared_of_ofProgram hh
  exact ⟨rfl, rfl, hsupertypes, htypes, hcallables⟩

/-- The types of a program, whatever its callables are. -/
theorem describes_types (hh : ofProgram program = .ok h) (htypes : (program.types.map (·.id)).Nodup) :
    Describes ⟨h.types, []⟩ ⟨program.types, []⟩ := by
  obtain ⟨rfl, hsupertypes⟩ := declared_of_ofProgram hh
  exact ⟨rfl, rfl, hsupertypes, htypes, List.nodup_nil⟩

/-- A declaration is found by its number, where numbers are given once. -/
theorem find?_reverse_eq_some_iff {α : Type} {kind : IdentKind} {id : α → Ident kind} {items : List α}
    (hnodup : (items.map id).Nodup) {n : Ident kind} {a : α} :
    items.reverse.find? (fun a => id a == n) = some a ↔ a ∈ items ∧ id a = n := by
  rw [find?_eq_some_iff_of_unique, List.mem_reverse]
  intro a ha b hb
  exact List.inj_on_of_nodup_map hnodup (List.mem_reverse.1 ha) (List.mem_reverse.1 hb)

section Described

variable (hd : h.Describes program)

include hd

/-- A type is found by its number. -/
theorem Describes.type?_eq_some_iff {t : TypeId} {decl : TypeDecl} :
    h.type? t = some decl ↔ decl ∈ program.types ∧ decl.id = t := by
  rw [type?, hd.types]
  exact find?_reverse_eq_some_iff hd.types_nodup

theorem Describes.type?_isNone_iff {t : TypeId} :
    (h.type? t).isNone = true ↔ ¬∃ decl ∈ program.types, decl.id = t := by
  rw [Option.isNone_iff_eq_none, Option.eq_none_iff_forall_ne_some]
  push Not
  exact forall_congr' fun decl => by rw [Ne, hd.type?_eq_some_iff, not_and]

/-- A callable is found by its number. -/
theorem Describes.callable?_eq_some_iff {c : CallableId} {decl : CallableDecl} :
    h.callable? c = some decl ↔ decl ∈ program.callables ∧ decl.id = c := by
  rw [callable?, hd.callables]
  exact find?_reverse_eq_some_iff hd.callables_nodup

/-- The direct supertypes of a type are those that it names. -/
theorem Describes.mem_directSupertypes_iff {s t : TypeId} :
    t ∈ h.directSupertypes s ↔ program.Extends s t := by
  unfold directSupertypes Program.Extends
  constructor
  · intro ht
    split at ht
    · rename_i decl hdecl
      obtain ⟨hmem, hid⟩ := hd.type?_eq_some_iff.1 hdecl
      exact ⟨decl, hmem, hid, ht⟩
    · cases ht
  · rintro ⟨decl, hmem, hid, ht⟩
    rw [hd.type?_eq_some_iff.2 ⟨hmem, hid⟩]
    exact ht

/-- The direct subtypes of a type are those that name it. -/
theorem Describes.mem_directSubtypes_iff {s t : TypeId} :
    s ∈ h.directSubtypes t ↔ program.Extends s t := by
  simp only [directSubtypes, Program.Extends, hd.types, List.mem_map, List.mem_filter,
    List.contains_iff_mem]
  constructor
  · rintro ⟨decl, ⟨hmem, ht⟩, hid⟩
    exact ⟨decl, hmem, hid, ht⟩
  · rintro ⟨decl, hmem, hid, ht⟩
    exact ⟨decl, ⟨hmem, ht⟩, hid⟩

theorem Describes.mem_typeIds_iff {t : TypeId} : t ∈ h.typeIds ↔ ∃ decl ∈ program.types, decl.id = t := by
  rw [typeIds, List.mem_eraseDups, hd.types, List.mem_map]

/-- The types above a type. -/
theorem Describes.mem_supertypesOf_iff {s t : TypeId} : t ∈ h.supertypesOf s ↔ program.Below s t := by
  rw [supertypesOf, Digraph.mem_reach_iff]
  constructor
  · intro hreach
    induction hreach with
    | refl => exact .refl
    | step _ hnext _ ih => exact ih.tail (hd.mem_directSupertypes_iff.1 hnext)
  · intro hbelow
    induction hbelow with
    | refl => exact .refl s
    | tail _ hstep ih =>
      have ⟨decl, hmem, _, ht⟩ := hstep
      exact ih.step (hd.mem_directSupertypes_iff.2 hstep)
        (hd.mem_typeIds_iff.2 (hd.supertypes decl hmem _ ht))

/-- The types below a type. -/
theorem Describes.mem_subtypesOf_iff {s t : TypeId} : s ∈ h.subtypesOf t ↔ program.Below s t := by
  rw [subtypesOf, mem_ascending, Digraph.mem_reach_iff]
  constructor
  · intro hreach
    induction hreach with
    | refl => exact .refl
    | step _ hnext _ ih => exact .head (hd.mem_directSubtypes_iff.1 hnext) ih
  · intro hbelow
    induction hbelow using ReflTransGen.head_induction_on with
    | refl => exact .refl t
    | head hstep _ ih =>
      have ⟨decl, hmem, hid, _⟩ := hstep
      exact ih.step (hd.mem_directSubtypes_iff.2 hstep) (hd.mem_typeIds_iff.2 ⟨decl, hmem, hid⟩)

/-! ## Methods -/

/-- A declared callable is a method with a signature if its declaration says so. -/
theorem Describes.isMethodWith_iff {signature : Signature} {decl : CallableDecl}
    (hmem : decl ∈ program.callables) : h.isMethodWith signature decl.id = true ↔
      decl.kind = .method ∧ decl.signature = signature := by
  rw [isMethodWith, hd.callable?_eq_some_iff.2 ⟨hmem, rfl⟩]
  simp

/-- The method that a type declares itself. -/
theorem Describes.declaredMethod?_eq_some_iff {t : TypeId} {signature : Signature} {c : CallableId} :
    h.declaredMethod? t signature = some c ↔ ∃ decl, program.FirstMethod t signature decl ∧ decl.id = c := by
  have hmethod {before after : List CallableDecl} {decl d : CallableDecl}
      (hcallables : program.callables = before ++ decl :: after) (hd' : d ∈ before ∨ d = decl) :
      (d.owner = t ∧ h.isMethodWith signature d.id = true) ↔
        (d.owner = t ∧ d.kind = .method ∧ d.signature = signature) := by
    refine and_congr_right fun _ => hd.isMethodWith_iff ?_
    rw [hcallables]
    rcases hd' with hd' | rfl
    · exact List.mem_append_left _ hd'
    · simp
  rw [declaredMethod?, members, List.find?_map, List.find?_filter, hd.callables, Option.map_eq_some_iff]
  simp only [List.find?_eq_some_iff_append, Program.FirstMethod, Function.comp, beq_iff_eq,
    Bool.not_eq_true', decide_eq_true_eq, decide_eq_false_iff_not]
  refine exists_congr fun decl => and_congr_left fun _ => ?_
  constructor
  · rintro ⟨hdecl, before, after, hcallables, hbefore⟩
    refine ⟨before, after, hcallables, (hmethod hcallables (.inr rfl)).1 hdecl, fun earlier he hm => ?_⟩
    exact hbefore earlier he ((hmethod hcallables (.inl he)).2 hm)
  · rintro ⟨before, after, hcallables, hdecl, hbefore⟩
    refine ⟨(hmethod hcallables (.inr rfl)).2 hdecl, before, after, hcallables, fun earlier he hm => ?_⟩
    exact hbefore earlier he ((hmethod hcallables (.inl he)).1 hm)

/-- No method is found in a type if it declares none. -/
theorem Describes.declaredMethod?_eq_none_iff {t : TypeId} {signature : Signature} :
    h.declaredMethod? t signature = none ↔ ∀ decl, ¬program.DeclaresMethod t signature decl := by
  simp only [declaredMethod?, members, List.find?_eq_none, List.mem_map, List.mem_filter, hd.callables,
    beq_iff_eq]
  constructor
  · rintro hnone decl ⟨hmem, howner, hkind, hsignature⟩
    exact hnone decl.id ⟨decl, ⟨hmem, howner⟩, rfl⟩ ((hd.isMethodWith_iff hmem).2 ⟨hkind, hsignature⟩)
  · rintro hnone _ ⟨decl, ⟨hmem, howner⟩, rfl⟩ hmethod
    obtain ⟨hkind, hsignature⟩ := (hd.isMethodWith_iff hmem).1 hmethod
    exact hnone decl ⟨hmem, howner, hkind, hsignature⟩

/-- A type that declares a method runs it. -/
theorem Describes.findMethod?_of_first {t : TypeId} {signature : Signature} {decl : CallableDecl}
    (hfirst : program.FirstMethod t signature decl) : h.findMethod? t signature = some decl.id := by
  -- the search for a method starts with the type itself
  obtain ⟨rest, hrest⟩ := Digraph.reach_eq_cons ⟨h.typeIds, h.directSupertypes⟩ t
  rw [findMethod?, supertypesOf, hrest, List.findSome?_cons,
    hd.declaredMethod?_eq_some_iff.2 ⟨decl, hfirst, rfl⟩]

/-- A method that a type runs is the first one of a type above it. -/
theorem Describes.exists_first_of_findMethod? {t : TypeId} {signature : Signature} {c : CallableId}
    (hfind : h.findMethod? t signature = some c) :
    ∃ s decl, program.Below t s ∧ program.FirstMethod s signature decl ∧ decl.id = c := by
  obtain ⟨s, hs, hdeclared⟩ := List.exists_of_findSome?_eq_some hfind
  obtain ⟨decl, hfirst, hid⟩ := hd.declaredMethod?_eq_some_iff.1 hdeclared
  exact ⟨s, decl, hd.mem_supertypesOf_iff.1 hs, hfirst, hid⟩

/-- No method is found for a type if no type above it declares one. -/
theorem Describes.findMethod?_eq_none_iff {t : TypeId} {signature : Signature} :
    h.findMethod? t signature = none ↔
      ∀ s, program.Below t s → ∀ decl, ¬program.DeclaresMethod s signature decl := by
  simp only [findMethod?, List.findSome?_eq_none_iff, hd.mem_supertypesOf_iff,
    hd.declaredMethod?_eq_none_iff]

/-! ## Dispatch -/

/-- The targets of a dispatch are what the types below its root run. -/
theorem Describes.mem_dispatchTargets_iff {root : TypeId} {signature : Signature} {c : CallableId} :
    c ∈ h.dispatchTargets root signature ↔
      ∃ t, program.Below t root ∧ h.findMethod? t signature = some c := by
  simp only [dispatchTargets, mem_ascending, List.mem_filterMap, hd.mem_subtypesOf_iff]

end Described

/-- The callables that a virtual call with a root may reach. -/
structure Reaches (h : Hierarchy) (program : Program) (root : TypeId) (signature : Signature)
    (targets : List CallableId) : Prop where
  ascending : targets.Pairwise fun a b => a.rank < b.rank
  complete : ∀ t decl, program.Below t root → program.FirstMethod t signature decl → decl.id ∈ targets
  sound : ∀ c ∈ targets, ∃ t, program.Below t root ∧ h.findMethod? t signature = some c ∧
    ∃ s decl, program.Below t s ∧ program.DeclaresMethod s signature decl ∧ decl.id = c

/-- A dispatch reaches its targets and nothing else, in ascending order. -/
theorem Describes.reaches_dispatchTargets (hd : h.Describes program) (root : TypeId)
    (signature : Signature) : h.Reaches program root signature (h.dispatchTargets root signature) where
  ascending := pairwise_ascending fun _ _ => Ident.rank_injective
  complete := fun t _ hbelow hfirst =>
    hd.mem_dispatchTargets_iff.2 ⟨t, hbelow, hd.findMethod?_of_first hfirst⟩
  sound := by
    intro c hc
    obtain ⟨t, hbelow, hfind⟩ := hd.mem_dispatchTargets_iff.1 hc
    obtain ⟨s, decl, habove, ⟨before, after, hcallables, hmethod, -⟩, hid⟩ :=
      hd.exists_first_of_findMethod? hfind
    have hmem : decl ∈ program.callables := hcallables ▸ by simp
    exact ⟨t, hbelow, hfind, s, decl, habove, ⟨hmem, hmethod.1, hmethod.2.1, hmethod.2.2⟩, hid⟩

/-- A dispatch has no targets if no type above one below its root declares a method. -/
theorem Describes.dispatchTargets_eq_nil_iff (hd : h.Describes program) {root : TypeId}
    {signature : Signature} : h.dispatchTargets root signature = [] ↔
      ¬∃ t s decl, program.Below t root ∧ program.Below t s ∧
        program.DeclaresMethod s signature decl := by
  rw [List.eq_nil_iff_forall_not_mem]
  constructor
  · rintro hnone ⟨t, s, decl, hbelow, habove, hdeclares⟩
    cases hfind : h.findMethod? t signature with
    | none => exact hd.findMethod?_eq_none_iff.1 hfind s habove decl hdeclares
    | some c => exact hnone c (hd.mem_dispatchTargets_iff.2 ⟨t, hbelow, hfind⟩)
  · intro hnone c hc
    obtain ⟨t, hbelow, -, s, decl, habove, hdeclares, -⟩ :=
      (hd.reaches_dispatchTargets root signature).sound c hc
    exact hnone ⟨t, s, decl, hbelow, habove, hdeclares⟩

/-- A wider root may only add targets. -/
theorem Describes.dispatchTargets_mono (hd : h.Describes program) {root root' : TypeId}
    {signature : Signature} (hbelow : program.Below root' root) :
    ∀ c ∈ h.dispatchTargets root' signature, c ∈ h.dispatchTargets root signature := by
  intro c hc
  obtain ⟨t, ht, hfind⟩ := hd.mem_dispatchTargets_iff.1 hc
  exact hd.mem_dispatchTargets_iff.2 ⟨t, ht.trans hbelow, hfind⟩

/-- How a virtual call is resolved. -/
theorem Describes.resolve_virtual (hd : h.Describes program) (caller : CallableDecl)
    {callee : CallableDecl} (hcallee : callee ∈ program.callables) (hdispatched : callee.isDispatched = true)
    {site : CallSite} (htarget : site.target = .declared callee.id) {receiver : Receiver}
    (hvirtual : site.dispatch = .virtual receiver) :
    h.resolve caller site =
      if (h.type? (h.dispatchRoot caller callee receiver)).isNone then
        .error (.unknownType (h.dispatchRoot caller callee receiver))
      else if h.dispatchTargets (h.dispatchRoot caller callee receiver) callee.signature = [] then
        .error (.noDispatchTarget site.id callee.signature.label)
      else .ok (h.dispatchTargets (h.dispatchRoot caller callee receiver) callee.signature) := by
  simp only [resolve, htarget, hd.callable?_eq_some_iff.2 ⟨hcallee, rfl⟩, hvirtual, hdispatched]
  split
  · rfl
  · split
    · rename_i hnil
      rw [hnil, if_pos rfl]
    · rename_i hne
      rw [if_neg hne]

/-- A call that is not virtual, or of what takes no part in dispatch, reaches its target. A
    virtual call reaches what the types below the root of its dispatch run, unless the root is
    not declared or there is nothing to run, and no more if the root is narrowed. -/
theorem resolve_exact (hh : ofProgram program = .ok h) (htypes : (program.types.map (·.id)).Nodup)
    (hcallables : (program.callables.map (·.id)).Nodup) (caller : CallableDecl) {callee : CallableDecl}
    (hcallee : callee ∈ program.callables) {site : CallSite}
    (htarget : site.target = .declared callee.id) :
    (site.dispatch = .direct ∨ callee.kind = .constructor ∨ callee.kind = .initializer ∨
        callee.isStatic = true → h.resolve caller site = .ok [callee.id]) ∧
      ∀ receiver root, site.dispatch = .virtual receiver → callee.kind = .method →
        callee.isStatic = false → h.dispatchRoot caller callee receiver = root →
        (h.resolve caller site = .error (.unknownType root) ↔ ¬∃ decl ∈ program.types, decl.id = root) ∧
        ((∃ decl ∈ program.types, decl.id = root) →
          (h.resolve caller site = .error (.noDispatchTarget site.id callee.signature.label) ↔
            ¬∃ t s decl, program.Below t root ∧ program.Below t s ∧
              program.DeclaresMethod s callee.signature decl) ∧
          ((∃ t s decl, program.Below t root ∧ program.Below t s ∧
              program.DeclaresMethod s callee.signature decl) →
            ∃ targets, h.resolve caller site = .ok targets ∧
              h.Reaches program root callee.signature targets ∧
              ∀ caller' site' receiver' targets', site'.target = .declared callee.id →
                site'.dispatch = .virtual receiver' →
                program.Below (h.dispatchRoot caller' callee receiver') root →
                h.resolve caller' site' = .ok targets' → ∀ c ∈ targets', c ∈ targets)) := by
  have hd := describes_of_ofProgram hh htypes hcallables
  constructor
  · intro hdirect
    simp only [resolve, htarget, hd.callable?_eq_some_iff.2 ⟨hcallee, rfl⟩]
    split
    · rename_i hvirtual hdispatched
      simp only [CallableDecl.isDispatched, Bool.and_eq_true, beq_iff_eq, Bool.not_eq_true'] at hdispatched
      simp [hvirtual, hdispatched] at hdirect
    · rfl
  · rintro receiver root hvirtual hkind hstatic rfl
    have hdispatched : callee.isDispatched = true := by simp [CallableDecl.isDispatched, hkind, hstatic]
    have hresolve := hd.resolve_virtual caller hcallee hdispatched htarget hvirtual
    refine ⟨?_, fun hdeclared => ?_⟩
    · rw [hresolve, ← hd.type?_isNone_iff]
      split
      · simp [*]
      · split <;> simp [*]
    -- from here on the root is declared, and the targets decide
    rw [if_neg fun hnone => hd.type?_isNone_iff.1 hnone hdeclared] at hresolve
    rw [hresolve]
    refine ⟨?_, fun hsome => ⟨_, if_neg fun hnil => hd.dispatchTargets_eq_nil_iff.1 hnil hsome,
      hd.reaches_dispatchTargets _ _, ?_⟩⟩
    · rw [← hd.dispatchTargets_eq_nil_iff]
      by_cases hnil : h.dispatchTargets (h.dispatchRoot caller callee receiver) callee.signature = []
      · simp [hnil]
      · simp [hnil]
    · intro caller' site' receiver' targets' htarget' hvirtual' hbelow hok c hc
      rw [hd.resolve_virtual caller' hcallee hdispatched htarget' hvirtual'] at hok
      split at hok
      · cases hok
      · split at hok
        · cases hok
        · cases hok
          exact hd.dispatchTargets_mono hbelow c hc

/-- The area that a type declares. -/
def area (owner : UInt32) : CallableDecl where
  id := ⟨owner⟩
  name := "area"
  kind := .method
  owner := ⟨owner⟩
  signature := ⟨"area", []⟩
  isStatic := false
  params := []
  returnsValue := true
  body := some []
  span := none

/-- Shapes with an area: circles have one of their own, squares and rectangles, which are below
    each other, inherit it. -/
def shapes : Program where
  types := [⟨⟨0⟩, "Shape", []⟩, ⟨⟨1⟩, "Circle", [⟨0⟩]⟩, ⟨⟨2⟩, "Square", [⟨3⟩, ⟨0⟩]⟩,
    ⟨⟨3⟩, "Rectangle", [⟨2⟩]⟩]
  callables := [area 0, area 1]

/-- The area of something with a static type is asked for. -/
def areaOf (staticType : TypeId) : CallSite :=
  ⟨⟨0⟩, "o.area()", .declared ⟨0⟩, .virtual (.expr staticType), [], true, []⟩

/-- A shape may run whatever a rectangle may run. -/
theorem shapes_resolve : ∃ targets,
    Hierarchy.resolve ⟨shapes.types, shapes.callables⟩ (area 1) (areaOf ⟨0⟩) = .ok targets ∧
      Reaches ⟨shapes.types, shapes.callables⟩ shapes ⟨0⟩ ⟨"area", []⟩ targets ∧
      ∀ targets', Hierarchy.resolve ⟨shapes.types, shapes.callables⟩ (area 1) (areaOf ⟨3⟩) = .ok targets' →
        ∀ c ∈ targets', c ∈ targets := by
  have hsquare : shapes.Below ⟨2⟩ ⟨0⟩ :=
    .single ⟨⟨⟨2⟩, "Square", [⟨3⟩, ⟨0⟩]⟩, by simp [shapes], rfl, by simp⟩
  have hrectangle : shapes.Below ⟨3⟩ ⟨0⟩ :=
    .head ⟨⟨⟨3⟩, "Rectangle", [⟨2⟩]⟩, by simp [shapes], rfl, by simp⟩ hsquare
  have hprogram : ofProgram shapes = .ok ⟨shapes.types, shapes.callables⟩ := rfl
  have hcallee : area 0 ∈ shapes.callables := by simp [shapes]
  have htarget : (areaOf ⟨0⟩).target = .declared (area 0).id := rfl
  have hexact := (resolve_exact hprogram (by decide) (by decide) (area 1) hcallee htarget).2 (.expr ⟨0⟩)
    ⟨0⟩ rfl rfl rfl rfl
  obtain ⟨targets, hok, hreaches, hnarrow⟩ := (hexact.2 ⟨⟨⟨0⟩, "Shape", []⟩, by simp [shapes], rfl⟩).2
    ⟨⟨0⟩, ⟨0⟩, area 0, .refl, .refl, ⟨by simp [shapes], rfl, rfl, rfl⟩⟩
  exact ⟨targets, hok, hreaches, fun targets' =>
    hnarrow (area 1) (areaOf ⟨3⟩) (.expr ⟨3⟩) targets' rfl rfl hrectangle⟩

end Hierarchy

end Slicing
