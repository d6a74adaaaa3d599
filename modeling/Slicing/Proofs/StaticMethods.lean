import Mathlib
import Slicing.Proofs.Resolution

/-!
# Static methods and dispatch

An object runs no static method, so a virtual call should resolve as if there were none
(`Hierarchy.withoutStatic`). The lookup of a method makes no difference between methods, though.
A static method is taken for one that an object runs, and it hides the one that is inherited
(`staticSquares_hide_inherited`).

Nothing else goes wrong (`resolve_withoutStatic`): a virtual call reaches instance methods alone
just if every receiver finds what it would find without static methods. This is so wherever none
of the types above a receiver declares a static method with the signature.
-/

namespace Slicing

namespace Program

variable {program : Program} {t : TypeId} {signature : Signature} {decl : CallableDecl}

/-- The program without its static callables. -/
def withoutStatic (program : Program) : Program :=
  { program with callables := program.callables.filter (!·.isStatic) }

/-- A number is that of an instance method. -/
def IsInstanceMethod (program : Program) (c : CallableId) : Prop :=
  ∃ decl ∈ program.callables, decl.id = c ∧ decl.isDispatched = true

@[simp] theorem mem_withoutStatic_callables :
    decl ∈ program.withoutStatic.callables ↔ decl ∈ program.callables ∧ decl.isStatic = false := by
  simp [withoutStatic]

/-- Without static methods a type declares its instance methods. -/
theorem declaresMethod_withoutStatic_iff : program.withoutStatic.DeclaresMethod t signature decl ↔
    program.DeclaresMethod t signature decl ∧ decl.isStatic = false := by
  constructor
  · rintro ⟨hmem, howner, hkind, hsignature⟩
    obtain ⟨hmem, hstatic⟩ := mem_withoutStatic_callables.1 hmem
    exact ⟨⟨hmem, howner, hkind, hsignature⟩, hstatic⟩
  · rintro ⟨⟨hmem, howner, hkind, hsignature⟩, hstatic⟩
    exact ⟨mem_withoutStatic_callables.2 ⟨hmem, hstatic⟩, howner, hkind, hsignature⟩

/-- The first method of a type is one that it declares. -/
theorem FirstMethod.declares (hfirst : program.FirstMethod t signature decl) :
    program.DeclaresMethod t signature decl := by
  obtain ⟨before, after, hcallables, ⟨howner, hkind, hsignature⟩, -⟩ := hfirst
  exact ⟨hcallables ▸ by simp, howner, hkind, hsignature⟩

/-- An instance method that comes first does so without the static ones. -/
theorem FirstMethod.withoutStatic (hfirst : program.FirstMethod t signature decl)
    (hstatic : decl.isStatic = false) : program.withoutStatic.FirstMethod t signature decl := by
  obtain ⟨before, after, hcallables, hdecl, hbefore⟩ := hfirst
  refine ⟨before.filter (!·.isStatic), after.filter (!·.isStatic), ?_, hdecl, fun earlier he => ?_⟩
  · simp [Program.withoutStatic, hcallables, hstatic]
  · exact hbefore earlier (List.mem_of_mem_filter he)

end Program

namespace Hierarchy

variable {program : Program} {h : Hierarchy} {t root : TypeId} {signature : Signature} {c : CallableId}

/-- The hierarchy without the static callables. -/
def withoutStatic (h : Hierarchy) : Hierarchy :=
  { h with callables := h.callables.filter (!·.isStatic) }

@[simp] theorem supertypesOf_withoutStatic : h.withoutStatic.supertypesOf t = h.supertypesOf t := rfl

@[simp] theorem subtypesOf_withoutStatic : h.withoutStatic.subtypesOf t = h.subtypesOf t := rfl

@[simp] theorem type?_withoutStatic : h.withoutStatic.type? t = h.type? t := rfl

@[simp] theorem dispatchRoot_withoutStatic (caller callee : CallableDecl) (receiver : Receiver) :
    h.withoutStatic.dispatchRoot caller callee receiver = h.dispatchRoot caller callee receiver := rfl

/-! ## What objects run without static methods -/

section Described

variable (hd : h.Describes program)

include hd

/-- Without its static methods a program is described by the hierarchy without them. -/
theorem Describes.withoutStatic : h.withoutStatic.Describes program.withoutStatic where
  types := hd.types
  callables := by rw [Hierarchy.withoutStatic, Program.withoutStatic, hd.callables]
  supertypes := hd.supertypes
  types_nodup := hd.types_nodup
  callables_nodup := hd.callables_nodup.sublist (List.filter_sublist.map _)

/-- A type without any method has no instance method. -/
theorem Describes.declaredMethod?_withoutStatic_eq_none (hnone : h.declaredMethod? t signature = none) :
    h.withoutStatic.declaredMethod? t signature = none := by
  rw [hd.withoutStatic.declaredMethod?_eq_none_iff]
  intro decl hdeclares
  exact hd.declaredMethod?_eq_none_iff.1 hnone decl (Program.declaresMethod_withoutStatic_iff.1 hdeclares).1

/-- What is found without static methods is an instance method. -/
theorem Describes.isInstanceMethod_of_withoutStatic
    (hfind : h.withoutStatic.findMethod? t signature = some c) : program.IsInstanceMethod c := by
  obtain ⟨s, decl, -, hfirst, hid⟩ := hd.withoutStatic.exists_first_of_findMethod? hfind
  obtain ⟨⟨hmem, -, hkind, -⟩, hstatic⟩ := Program.declaresMethod_withoutStatic_iff.1 hfirst.declares
  exact ⟨decl, hmem, hid, by simp [CallableDecl.isDispatched, hkind, hstatic]⟩

/-- An instance method that is found is found without static methods as well. -/
theorem Describes.findMethod?_withoutStatic_eq_some (hfind : h.findMethod? t signature = some c)
    (hinstance : program.IsInstanceMethod c) : h.withoutStatic.findMethod? t signature = some c := by
  obtain ⟨before, s, after, hlist, hdeclared, hbefore⟩ := List.findSome?_eq_some_iff.1 hfind
  obtain ⟨decl, hfirst, hid⟩ := hd.declaredMethod?_eq_some_iff.1 hdeclared
  have hstatic : decl.isStatic = false := by
    obtain ⟨decl', hmem, hid', hdispatched⟩ := hinstance
    obtain rfl : decl' = decl :=
      List.inj_on_of_nodup_map hd.callables_nodup hmem hfirst.declares.mem (hid'.trans hid.symm)
    simp [CallableDecl.isDispatched] at hdispatched
    exact hdispatched.2
  refine List.findSome?_eq_some_iff.2 ⟨before, s, after, hlist, ?_, fun u hu => ?_⟩
  · exact hd.withoutStatic.declaredMethod?_eq_some_iff.2 ⟨decl, hfirst.withoutStatic hstatic, hid⟩
  · exact hd.declaredMethod?_withoutStatic_eq_none (hbefore u hu)

/-- Where no method is found, none is found without static methods either. -/
theorem Describes.findMethod?_withoutStatic_eq_none (hnone : h.findMethod? t signature = none) :
    h.withoutStatic.findMethod? t signature = none := by
  rw [findMethod?, List.findSome?_eq_none_iff] at hnone ⊢
  exact fun s hs => hd.declaredMethod?_withoutStatic_eq_none (hnone s hs)

/-- The targets of a dispatch are instance methods just if every receiver finds what it finds
    without static methods. -/
theorem Describes.isInstanceMethod_iff_findMethod?_eq :
    (∀ c ∈ h.dispatchTargets root signature, program.IsInstanceMethod c) ↔
      ∀ t, program.Below t root → h.findMethod? t signature = h.withoutStatic.findMethod? t signature := by
  constructor
  · intro hinstance t hbelow
    cases hfind : h.findMethod? t signature with
    | none => exact (hd.findMethod?_withoutStatic_eq_none hfind).symm
    | some c =>
      have hc : c ∈ h.dispatchTargets root signature := hd.mem_dispatchTargets_iff.2 ⟨t, hbelow, hfind⟩
      exact (hd.findMethod?_withoutStatic_eq_some hfind (hinstance c hc)).symm
  · intro hsame c hc
    obtain ⟨t, hbelow, hfind⟩ := hd.mem_dispatchTargets_iff.1 hc
    exact hd.isInstanceMethod_of_withoutStatic (hsame t hbelow ▸ hfind)

/-- What is found above receivers is an instance method if no type there declares a static one. -/
theorem Describes.isInstanceMethod_of_declares
    (hstatic : ∀ t s decl, program.Below t root → program.Below t s →
      program.DeclaresMethod s signature decl → decl.isStatic = false) :
    ∀ c ∈ h.dispatchTargets root signature, program.IsInstanceMethod c := by
  intro c hc
  obtain ⟨t, hbelow, hfind⟩ := hd.mem_dispatchTargets_iff.1 hc
  obtain ⟨s, decl, habove, hfirst, hid⟩ := hd.exists_first_of_findMethod? hfind
  have hdeclares := hfirst.declares
  refine ⟨decl, hdeclares.mem, hid, ?_⟩
  simp [CallableDecl.isDispatched, hdeclares.kind, hstatic t s decl hbelow habove hdeclares]

/-- A dispatch on receivers that find the same as without static methods has the same targets. -/
theorem Describes.dispatchTargets_withoutStatic
    (hsame : ∀ t, program.Below t root →
      h.findMethod? t signature = h.withoutStatic.findMethod? t signature) :
    h.withoutStatic.dispatchTargets root signature = h.dispatchTargets root signature := by
  simp only [dispatchTargets, subtypesOf_withoutStatic]
  rw [List.filterMap_congr fun t ht => (hsame t (hd.mem_subtypesOf_iff.1 ht)).symm]

end Described

/-- Static methods apart, a virtual call of an instance method reaches what it should. The
    targets are methods with the signature; they are instance methods just if each receiver finds
    what it finds without static methods. Both hold, and the call resolves as if there were no
    static methods, where no type above a receiver declares one with the signature. -/
theorem resolve_withoutStatic (hh : ofProgram program = .ok h)
    (htypes : (program.types.map (·.id)).Nodup) (hcallables : (program.callables.map (·.id)).Nodup)
    (caller : CallableDecl) {callee : CallableDecl} (hcallee : callee ∈ program.callables)
    (hdispatched : callee.isDispatched = true) {site : CallSite}
    (htarget : site.target = .declared callee.id) {receiver : Receiver}
    (hvirtual : site.dispatch = .virtual receiver) (hroot : h.dispatchRoot caller callee receiver = root)
    {targets : List CallableId} (hok : h.resolve caller site = .ok targets) :
    (∀ c ∈ targets, ∃ decl ∈ program.callables, decl.id = c ∧ decl.kind = .method ∧
      decl.signature = callee.signature) ∧
    ((∀ c ∈ targets, program.IsInstanceMethod c) ↔ ∀ t, program.Below t root →
      h.findMethod? t callee.signature = h.withoutStatic.findMethod? t callee.signature) ∧
    ((∀ t s decl, program.Below t root → program.Below t s →
        program.DeclaresMethod s callee.signature decl → decl.isStatic = false) →
      (∀ c ∈ targets, program.IsInstanceMethod c) ∧
      (∀ t, program.Below t root →
        h.findMethod? t callee.signature = h.withoutStatic.findMethod? t callee.signature) ∧
      h.withoutStatic.resolve caller site = .ok targets) := by
  subst hroot
  have hd := describes_of_ofProgram hh htypes hcallables
  have hresolve := hd.resolve_virtual caller hcallee hdispatched htarget hvirtual
  have hok' := hok
  rw [hresolve] at hok
  split at hok
  · cases hok
  split at hok
  · cases hok
  cases hok
  refine ⟨fun c hc => ?_, hd.isInstanceMethod_iff_findMethod?_eq, fun hstatic => ?_⟩
  · obtain ⟨-, -, -, -, decl, -, ⟨hmem, -, hkind, hsignature⟩, hid⟩ :=
      (hd.reaches_dispatchTargets _ _).sound c hc
    exact ⟨decl, hmem, hid, hkind, hsignature⟩
  · have hinstance := hd.isInstanceMethod_of_declares hstatic
    have hsame := hd.isInstanceMethod_iff_findMethod?_eq.1 hinstance
    refine ⟨hinstance, hsame, ?_⟩
    have hcallee' : callee ∈ program.withoutStatic.callables := by
      simp [CallableDecl.isDispatched] at hdispatched
      exact Program.mem_withoutStatic_callables.2 ⟨hcallee, hdispatched.2⟩
    rw [hd.withoutStatic.resolve_virtual caller hcallee' hdispatched htarget hvirtual,
      dispatchRoot_withoutStatic, type?_withoutStatic, hd.dispatchTargets_withoutStatic hsame,
      ← hresolve, hok']

/-- The area of figures in general, as a static method of a type. -/
def staticArea (owner : UInt32) : CallableDecl := { area owner with isStatic := true }

/-- Shapes and circles have an area of their own; a type beside them has a static one. -/
def plots : Program where
  types := [⟨⟨0⟩, "Shape", []⟩, ⟨⟨1⟩, "Circle", [⟨0⟩]⟩, ⟨⟨2⟩, "Geometry", []⟩]
  callables := [area 0, area 1, staticArea 2]

/-- The static method of another type does not matter to shapes. -/
theorem plots_resolve : ofProgram plots = .ok ⟨plots.types, plots.callables⟩ ∧
    Hierarchy.resolve ⟨plots.types, plots.callables⟩ (area 0) (areaOf ⟨0⟩) = .ok [⟨0⟩, ⟨1⟩] ∧
    (∀ c ∈ [⟨0⟩, ⟨1⟩], plots.IsInstanceMethod c) ∧
    Hierarchy.resolve (withoutStatic ⟨plots.types, plots.callables⟩) (area 0) (areaOf ⟨0⟩) =
      .ok [⟨0⟩, ⟨1⟩] := by
  have hprogram : ofProgram plots = .ok ⟨plots.types, plots.callables⟩ := rfl
  have hcallee : area 0 ∈ plots.callables := by simp [plots]
  have htarget : (areaOf ⟨0⟩).target = .declared (area 0).id := rfl
  have hvirtual : (areaOf ⟨0⟩).dispatch = .virtual (.expr ⟨0⟩) := rfl
  have hok : Hierarchy.resolve ⟨plots.types, plots.callables⟩ (area 0) (areaOf ⟨0⟩) = .ok [⟨0⟩, ⟨1⟩] := by
    cbv
  have hexact := resolve_withoutStatic hprogram (by decide) (by decide) (area 0) hcallee rfl htarget
    hvirtual rfl hok
  have hcases {s u : TypeId} (hbelow : plots.Below s u) : s = u ∨ s = ⟨1⟩ ∧ u = ⟨0⟩ := by
    induction hbelow with
    | refl => exact .inl rfl
    | tail _ hstep ih =>
      obtain ⟨decl, hmem, rfl, hu⟩ := hstep
      simp only [plots, List.mem_cons, List.not_mem_nil, or_false] at hmem
      rcases hmem with rfl | rfl | rfl <;> simp_all
  have hstatic : ∀ t s decl, plots.Below t ⟨0⟩ → plots.Below t s →
      plots.DeclaresMethod s (area 0).signature decl → decl.isStatic = false := by
    rintro t s decl hbelow habove ⟨hmem, rfl, -, -⟩
    simp only [plots, List.mem_cons, List.not_mem_nil, or_false] at hmem
    rcases hmem with rfl | rfl | rfl
    · rfl
    · rfl
    · -- what is above a shape is not the type beside them
      rcases hcases hbelow with rfl | ⟨rfl, -⟩ <;> rcases hcases habove with hs | ⟨-, hs⟩ <;>
        exact absurd hs (by decide)
  obtain ⟨hinstance, -, hsame⟩ := hexact.2.2 hstatic
  exact ⟨hprogram, hok, hinstance, hsame⟩

/-- Squares have a static area only, and what they inherit is an instance method. -/
def staticSquares : Program where
  types := [⟨⟨0⟩, "Shape", []⟩, ⟨⟨1⟩, "Square", [⟨0⟩]⟩]
  callables := [area 0, staticArea 1]

/-- The area of a shape is asked for, and a static method is reached; if the shape is known to be a
    square, nothing else is. -/
theorem staticSquares_hide_inherited :
    ofProgram staticSquares = .ok ⟨staticSquares.types, staticSquares.callables⟩ ∧
    (staticSquares.types.map (·.id)).Nodup ∧ (staticSquares.callables.map (·.id)).Nodup ∧
    area 0 ∈ staticSquares.callables ∧ (area 0).isDispatched = true ∧
    Hierarchy.resolve ⟨staticSquares.types, staticSquares.callables⟩ (area 0) (areaOf ⟨0⟩) =
      .ok [⟨0⟩, ⟨1⟩] ∧
    ¬staticSquares.IsInstanceMethod ⟨1⟩ ∧
    Hierarchy.resolve ⟨staticSquares.types, staticSquares.callables⟩ (area 0) (areaOf ⟨1⟩) = .ok [⟨1⟩] ∧
    Hierarchy.findMethod? ⟨staticSquares.types, staticSquares.callables⟩ ⟨1⟩ ⟨"area", []⟩ = some ⟨1⟩ ∧
    Hierarchy.findMethod? (withoutStatic ⟨staticSquares.types, staticSquares.callables⟩) ⟨1⟩
      ⟨"area", []⟩ = some (area 0).id := by
  have hstatic : ¬staticSquares.IsInstanceMethod ⟨1⟩ := by
    rintro ⟨decl, hmem, hid, hdispatched⟩
    simp only [staticSquares, List.mem_cons, List.not_mem_nil, or_false] at hmem
    rcases hmem with rfl | rfl
    · exact absurd hid (by decide)
    · exact absurd hdispatched (by decide)
  exact ⟨rfl, by decide, by decide, by simp [staticSquares], rfl, by cbv, hstatic, by cbv, by cbv, by cbv⟩

end Hierarchy

end Slicing
