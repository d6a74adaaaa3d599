import Mathlib
import Slicing.Proofs.BreadthFirst
import Slicing.Proofs.Resolution

/-!
# Overriding

Which of the methods with a signature, among those that the types above a type declare, an
object of the type runs. `Hierarchy.findMethod?` takes a nearest one, by the number of
supertypes that are named on the way (`Describes.findMethod?_nearest`).

What an object should run is a method that no type in between overrides (`Program.Runs`). This
is what is found where no type is listed before one below it (`Hierarchy.SubtypesFirst`). So it
is where types are named in order (`Program.Layered`), as they are if each names one supertype at
most (`Program.layered_of_single`); a type that names one supertype past another below it may hide
the override there (`rings_hide_override`).
-/

namespace Slicing

open Relation

namespace Program

variable {program : Program} {s t u : TypeId} {m n : Nat}

/-- A type is reached from another one by naming a number of supertypes. -/
inductive Climbs (program : Program) (t : TypeId) : Nat → TypeId → Prop
  | refl : Climbs program t 0 t
  | tail {n : Nat} {s u : TypeId} :
    Climbs program t n s → program.Extends s u → Climbs program t (n + 1) u

/-- A type is above another one if it is reached by naming some number of supertypes. -/
theorem below_iff_exists_climbs : program.Below t s ↔ ∃ n, program.Climbs t n s := by
  constructor
  · intro h
    induction h with
    | refl => exact ⟨0, .refl⟩
    | tail _ hstep ih =>
      obtain ⟨n, hn⟩ := ih
      exact ⟨n + 1, hn.tail hstep⟩
  · rintro ⟨n, hn⟩
    induction hn with
    | refl => exact .refl
    | tail _ hstep ih => exact ih.tail hstep

/-- Types are named in order above a type: each is nearer to it than the types above it. -/
def Layered (program : Program) (t : TypeId) : Prop :=
  ∀ u s, program.Below t u → program.Below u s → u ≠ s →
    ∃ n, program.Climbs t n u ∧ ∀ m, program.Climbs t m s → n < m

/-- A type declares or inherits a method, and no type in between overrides it. -/
structure Runs (program : Program) (t : TypeId) (signature : Signature) (decl : CallableDecl) : Prop where
  declares : program.DeclaresMethod decl.owner signature decl
  below : program.Below t decl.owner
  specific : ∀ u, u ≠ decl.owner → program.Below t u → program.Below u decl.owner →
    ∀ d, ¬program.DeclaresMethod u signature d

/-- What is above has no larger number, if no type names a supertype with a larger one. -/
theorem rank_le_of_below
    (hrank : ∀ decl ∈ program.types, ∀ s ∈ decl.supertypes, s.rank ≤ decl.id.rank)
    (h : program.Below t s) : s.rank ≤ t.rank := by
  induction h with
  | refl => exact Nat.le_refl _
  | tail _ hstep ih =>
    obtain ⟨decl, hmem, rfl, hs⟩ := hstep
    exact Nat.le_trans (hrank decl hmem _ hs) ih

section Single

variable (hsingle : ∀ s u u', program.Extends s u → program.Extends s u' → u = u')

include hsingle

/-- The only way up leads to one type for each number of supertypes. -/
theorem Climbs.unique (hs : program.Climbs t n s) (hu : program.Climbs t n u) : s = u := by
  induction hs generalizing u with
  | refl =>
    cases hu
    rfl
  | tail _ hstep ih =>
    cases hu with
    | tail hu hstep' => exact hsingle _ _ _ hstep (ih hu ▸ hstep')

/-- On the only way up, what is named later is above. -/
theorem Climbs.below_of_le (hs : program.Climbs t m s) (hu : program.Climbs t n u) (hle : m ≤ n) :
    program.Below s u := by
  induction hu with
  | refl =>
    obtain rfl := Nat.le_zero.1 hle
    cases hs
    exact .refl
  | @tail n v u hv hstep ih =>
    rcases Nat.lt_or_eq_of_le hle with hlt | rfl
    · exact (ih (Nat.le_of_lt_succ hlt)).tail hstep
    · exact hs.unique hsingle (hv.tail hstep) ▸ .refl

/-- Types are named in order if each of them names one supertype at most, and none is above
    itself. -/
theorem layered_of_single (hacyclic : ∀ s u, program.Below s u → program.Below u s → s = u)
    (t : TypeId) : program.Layered t := by
  intro u s htu hus hne
  obtain ⟨n, hn⟩ := below_iff_exists_climbs.1 htu
  refine ⟨n, hn, fun m hm => Nat.lt_of_not_le fun hle => hne ?_⟩
  exact hacyclic u s hus (hm.below_of_le hsingle hn hle)

end Single

/-- Types are named in order if each is on a level of its own height, one above the types that
    name it. -/
theorem layered_of_level (level : TypeId → Nat)
    (hlevel : ∀ s u, program.Extends s u → level s = level u + 1) (t : TypeId) : program.Layered t := by
  have hclimbs {n : Nat} {t s : TypeId} (h : program.Climbs t n s) : level t = level s + n := by
    induction h with
    | refl => rfl
    | tail _ hstep ih =>
      have := hlevel _ _ hstep
      omega
  intro u s htu hus hne
  obtain ⟨n, hn⟩ := below_iff_exists_climbs.1 htu
  obtain ⟨k, hk⟩ := below_iff_exists_climbs.1 hus
  refine ⟨n, hn, fun m hm => ?_⟩
  have hpos : k ≠ 0 := by
    rintro rfl
    cases hk
    exact hne rfl
  have := hclimbs hn
  have := hclimbs hk
  have := hclimbs hm
  omega

end Program

namespace Hierarchy

variable {program : Program} {h : Hierarchy} {s t : TypeId} {signature : Signature} {c : CallableId}

/-! ## The nearest declaration -/

/-- Arrows lead up as types name supertypes. -/
theorem Describes.reachesIn_iff (hd : h.Describes program) {n : Nat} :
    Digraph.ReachesIn ⟨h.typeIds, h.directSupertypes⟩ t n s ↔ program.Climbs t n s := by
  constructor
  · intro hreach
    induction hreach with
    | refl => exact .refl
    | step _ hnext _ ih => exact ih.tail (hd.mem_directSupertypes_iff.1 hnext)
  · intro hclimbs
    induction hclimbs with
    | refl => exact .refl
    | tail _ hstep ih =>
      have ⟨decl, hmem, _, hs⟩ := hstep
      exact ih.step (hd.mem_directSupertypes_iff.2 hstep)
        (hd.mem_typeIds_iff.2 (hd.supertypes decl hmem _ hs))

/-- What is found is declared by a type above, and no type that is listed before that one declares
    such a method. -/
theorem Describes.findMethod?_split (hd : h.Describes program)
    (hfind : h.findMethod? t signature = some c) : ∃ decl before after,
      h.supertypesOf t = before ++ decl.owner :: after ∧ decl.id = c ∧
      program.DeclaresMethod decl.owner signature decl ∧ program.Below t decl.owner ∧
      ∀ u ∈ before, ∀ d, ¬program.DeclaresMethod u signature d := by
  obtain ⟨before, s, after, hlist, hdeclared, hbefore⟩ := List.findSome?_eq_some_iff.1 hfind
  obtain ⟨decl, ⟨first, rest, hcallables, ⟨rfl, hkind, hsignature⟩, -⟩, hid⟩ :=
    hd.declaredMethod?_eq_some_iff.1 hdeclared
  exact ⟨decl, before, after, hlist, hid, ⟨hcallables ▸ by simp, rfl, hkind, hsignature⟩,
    hd.mem_supertypesOf_iff.1 (hlist ▸ by simp),
    fun u hu => hd.declaredMethod?_eq_none_iff.1 (hbefore u hu)⟩

/-- No type that declares a method with the signature is nearer than the one whose method is
    found. -/
theorem Describes.findMethod?_nearest (hd : h.Describes program)
    (hfind : h.findMethod? t signature = some c) : ∃ decl, decl.id = c ∧
      program.DeclaresMethod decl.owner signature decl ∧ program.Below t decl.owner ∧
      ∀ u d n, program.DeclaresMethod u signature d → program.Climbs t n u →
        ∃ m ≤ n, program.Climbs t m decl.owner := by
  obtain ⟨decl, before, after, hlist, hid, hdeclares, hbelow, hbefore⟩ := hd.findMethod?_split hfind
  refine ⟨decl, hid, hdeclares, hbelow, fun u d n hu hn => ?_⟩
  obtain ⟨k, hk⟩ := Program.below_iff_exists_climbs.1 hbelow
  have hsorted : (h.supertypesOf t).Pairwise _ := Digraph.pairwise_reach ⟨h.typeIds, h.directSupertypes⟩ t
  have hmem : u ∈ h.supertypesOf t :=
    hd.mem_supertypesOf_iff.2 (Program.below_iff_exists_climbs.2 ⟨n, hn⟩)
  rw [hlist] at hsorted hmem
  rcases List.mem_append.1 hmem with hmem | hmem
  · -- the types that come before declare no such method
    exact absurd hu (hbefore u hmem d)
  · rcases List.mem_cons.1 hmem with rfl | hmem
    · exact ⟨n, Nat.le_refl n, hn⟩
    · have hle := (List.pairwise_cons.1 (List.pairwise_append.1 hsorted).2.1).1 u hmem
      exact ⟨_, Nat.le_trans hle (hd.reachesIn_iff.2 hn).distance_le,
        hd.reachesIn_iff.1 (hd.reachesIn_iff.2 hk).reachesIn_distance⟩

/-! ## Overriders first -/

/-- Above a type, none is listed before one below it. -/
def SubtypesFirst (h : Hierarchy) (program : Program) (t : TypeId) : Prop :=
  (h.supertypesOf t).Pairwise fun s u => program.Below u s → u = s

/-- Types that are named in order are listed in order. -/
theorem Describes.subtypesFirst_of_layered (hd : h.Describes program) (hlayered : program.Layered t) :
    h.SubtypesFirst program t := by
  have hsorted : (h.supertypesOf t).Pairwise _ := Digraph.pairwise_reach ⟨h.typeIds, h.directSupertypes⟩ t
  refine List.Pairwise.imp_of_mem (fun {s u} hs hu hle hus => ?_) hsorted
  by_contra hne
  obtain ⟨n, hn, hlt⟩ := hlayered u s (hd.mem_supertypesOf_iff.1 hu) hus hne
  obtain ⟨k, hk⟩ := Program.below_iff_exists_climbs.1 (hd.mem_supertypesOf_iff.1 hs)
  have hdistance := hlt _ (hd.reachesIn_iff.1 (hd.reachesIn_iff.2 hk).reachesIn_distance)
  have := (hd.reachesIn_iff.2 hn).distance_le
  omega

/-- Where no type is listed before one below it, what is found is not overridden. -/
theorem Describes.exists_runs (hd : h.Describes program) (hfirst : h.SubtypesFirst program t)
    (hfind : h.findMethod? t signature = some c) :
    ∃ decl, program.Runs t signature decl ∧ decl.id = c := by
  obtain ⟨decl, before, after, hlist, hid, hdeclares, hbelow, hbefore⟩ := hd.findMethod?_split hfind
  refine ⟨decl, ⟨hdeclares, hbelow, fun u hne htu hus d hu => ?_⟩, hid⟩
  have hmem : u ∈ h.supertypesOf t := hd.mem_supertypesOf_iff.2 htu
  rw [SubtypesFirst, hlist] at hfirst
  rw [hlist] at hmem
  -- an overrider is neither listed before what is found nor behind it
  rcases List.mem_append.1 hmem with hmem | hmem
  · exact hbefore u hmem d hu
  · have hmem := (List.mem_cons.1 hmem).resolve_left hne
    exact hne ((List.pairwise_cons.1 (List.pairwise_append.1 hfirst).2.1).1 u hmem hus)

/-- Where no type is listed before one below it, an object of a type runs a method that no type in
    between overrides. What a virtual call may reach is what the objects of types below its root run. -/
theorem findMethod?_specific (hh : ofProgram program = .ok h)
    (htypes : (program.types.map (·.id)).Nodup) (hcallables : (program.callables.map (·.id)).Nodup)
    (hfirst : h.SubtypesFirst program t) (hfind : h.findMethod? t signature = some c) :
    (∃ decl, program.Runs t signature decl ∧ decl.id = c) ∧
    ∀ caller callee site receiver targets, callee ∈ program.callables → callee.isDispatched = true →
      callee.signature = signature → site.target = .declared callee.id →
      site.dispatch = .virtual receiver → program.Below t (h.dispatchRoot caller callee receiver) →
      h.resolve caller site = .ok targets → c ∈ targets := by
  have hd := describes_of_ofProgram hh htypes hcallables
  refine ⟨hd.exists_runs hfirst hfind, ?_⟩
  rintro caller callee site receiver targets hcallee hdispatched rfl htarget hvirtual hbelow hok
  rw [hd.resolve_virtual caller hcallee hdispatched htarget hvirtual] at hok
  split at hok
  · cases hok
  · split at hok
    · cases hok
    · cases hok
      exact hd.mem_dispatchTargets_iff.2 ⟨t, hbelow, hfind⟩

/-- A disc is a circle and filled, and says once more that it is a shape. -/
def discs : Program where
  types := [⟨⟨0⟩, "Shape", []⟩, ⟨⟨1⟩, "Circle", [⟨0⟩]⟩, ⟨⟨2⟩, "Filled", [⟨0⟩]⟩,
    ⟨⟨3⟩, "Disc", [⟨2⟩, ⟨1⟩, ⟨0⟩]⟩]
  callables := [area 0, area 1]

/-- A disc has the area of a circle: it names shapes as well, but behind circles. -/
theorem discs_specific : SubtypesFirst ⟨discs.types, discs.callables⟩ discs ⟨3⟩ ∧
    (∃ decl, discs.Runs ⟨3⟩ ⟨"area", []⟩ decl ∧ decl.id = ⟨1⟩) ∧
    ∀ targets, Hierarchy.resolve ⟨discs.types, discs.callables⟩ (area 0) (areaOf ⟨0⟩) = .ok targets →
      ⟨1⟩ ∈ targets := by
  have hprogram : ofProgram discs = .ok ⟨discs.types, discs.callables⟩ := rfl
  have hlist : Hierarchy.supertypesOf ⟨discs.types, discs.callables⟩ ⟨3⟩ = [⟨3⟩, ⟨2⟩, ⟨1⟩, ⟨0⟩] := by cbv
  have hfirst : SubtypesFirst ⟨discs.types, discs.callables⟩ discs ⟨3⟩ := by
    have hdescending : [⟨3⟩, ⟨2⟩, ⟨1⟩, (⟨0⟩ : TypeId)].Pairwise fun s u => u.rank < s.rank := by decide
    rw [SubtypesFirst, hlist]
    refine hdescending.imp fun {s u} hlt hus => ?_
    exact absurd hlt (Nat.not_lt.2 (Program.rank_le_of_below (by decide) hus))
  have hfind : Hierarchy.findMethod? ⟨discs.types, discs.callables⟩ ⟨3⟩ ⟨"area", []⟩ = some ⟨1⟩ := by cbv
  obtain ⟨hruns, hcalls⟩ := findMethod?_specific hprogram (by decide) (by decide) hfirst hfind
  have hbelow : discs.Below ⟨3⟩ ⟨0⟩ :=
    .single ⟨⟨⟨3⟩, "Disc", [⟨2⟩, ⟨1⟩, ⟨0⟩]⟩, by simp [discs], rfl, by simp⟩
  exact ⟨hfirst, hruns, fun targets =>
    hcalls (area 0) (area 0) (areaOf ⟨0⟩) (.expr ⟨0⟩) targets (by simp [discs]) rfl rfl rfl rfl hbelow⟩

/-- A ring is a disc, and thereby a circle, and says once more that it is a shape. -/
def rings : Program where
  types := [⟨⟨0⟩, "Shape", []⟩, ⟨⟨1⟩, "Circle", [⟨0⟩]⟩, ⟨⟨2⟩, "Disc", [⟨1⟩]⟩,
    ⟨⟨3⟩, "Ring", [⟨2⟩, ⟨0⟩]⟩]
  callables := [area 0, area 1]

/-- The area of a circle is asked for, of something with a static type. -/
def circleAreaOf (staticType : TypeId) : CallSite :=
  ⟨⟨0⟩, "o.area()", .declared ⟨1⟩, .virtual (.expr staticType), [], true, []⟩

/-- A ring runs the area of a shape, though circles have one of their own, and even a call of that
    one reaches only the other. -/
theorem rings_hide_override : ofProgram rings = .ok ⟨rings.types, rings.callables⟩ ∧
    (rings.types.map (·.id)).Nodup ∧ (rings.callables.map (·.id)).Nodup ∧
    (∀ s u, rings.Below s u → rings.Below u s → s = u) ∧
    Hierarchy.findMethod? ⟨rings.types, rings.callables⟩ ⟨3⟩ ⟨"area", []⟩ = some (area 0).id ∧
    ⟨1⟩ ≠ (area 0).owner ∧ rings.Below ⟨3⟩ ⟨1⟩ ∧ rings.Below ⟨1⟩ (area 0).owner ∧
    rings.DeclaresMethod ⟨1⟩ ⟨"area", []⟩ (area 1) ∧
    Hierarchy.resolve ⟨rings.types, rings.callables⟩ (area 0) (circleAreaOf ⟨3⟩) = .ok [(area 0).id] := by
  have hrank {s u : TypeId} (h : rings.Below s u) : u.rank ≤ s.rank :=
    Program.rank_le_of_below (by decide) h
  have hring : rings.Below ⟨3⟩ ⟨2⟩ := .single ⟨⟨⟨3⟩, "Ring", [⟨2⟩, ⟨0⟩]⟩, by simp [rings], rfl, by simp⟩
  have hdisc : rings.Below ⟨2⟩ ⟨1⟩ := .single ⟨⟨⟨2⟩, "Disc", [⟨1⟩]⟩, by simp [rings], rfl, by simp⟩
  have hcircle : rings.Below ⟨1⟩ ⟨0⟩ := .single ⟨⟨⟨1⟩, "Circle", [⟨0⟩]⟩, by simp [rings], rfl, by simp⟩
  exact ⟨rfl, by decide, by decide,
    fun s u hsu hus => Ident.rank_injective (Nat.le_antisymm (hrank hus) (hrank hsu)), by cbv,
    by decide, hring.trans hdisc, hcircle, ⟨by simp [rings], rfl, rfl, rfl⟩, by cbv⟩

end Hierarchy

end Slicing
