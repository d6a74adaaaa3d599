import Slicing.Proofs.Dispatch

/-!
# The order of subtypes

What is above a type and what is below it are found by two walks: one follows the supertypes that
each type names, the other one the types that name it. Both walks find the same order
(`Program.Below`), also where types name several supertypes, name one twice, or go around in
circles (`Hierarchy.walks_order`). The walk upwards lists the types by the number of supertypes
that are named on the way (`Program.Climbs`).

The walks go along a queue and list a type when it comes to the front for the first time, so that
the queue may hold a type several times (`Digraph.Walk`). The types that name a type are entered
there as the declarations are gone through, once for each time they name it
(`Hierarchy.enteredSubtypes`). Walks end, and list what `supertypesOf` and `subtypesOf` say
(`Hierarchy.walks_list`).

Only the types of a program matter here: nothing is asked of the numbers of its callables.
-/

namespace Slicing

open Relation

variable {program : Program} {h : Hierarchy} {s t : TypeId}

/-- The ways up depend on the types of a program only. -/
theorem Program.climbs_types_iff {n : Nat} :
    Program.Climbs ⟨program.types, []⟩ t n s ↔ program.Climbs t n s := by
  constructor
  · intro hclimbs
    induction hclimbs with
    | refl => exact .refl
    | tail _ hstep ih => exact ih.tail hstep
  · intro hclimbs
    induction hclimbs with
    | refl => exact .refl
    | tail _ hstep ih => exact ih.tail hstep

namespace Hierarchy

/-! ## Steps of the walks -/

/-- A declaration enters its type at each supertype that it names. -/
def enter (table : TypeId → List TypeId) (decl : TypeDecl) : TypeId → List TypeId :=
  decl.supertypes.foldl (fun table t => Function.update table t (table t ++ [decl.id])) table

/-- The types entered as subtypes of each type, as the declarations are gone through. -/
def enteredSubtypes (h : Hierarchy) : TypeId → List TypeId := h.types.foldl enter fun _ => []

/-- A declaration enters its type as often as it names the supertype. -/
theorem enter_apply (table : TypeId → List TypeId) (decl : TypeDecl) (t : TypeId) :
    enter table decl t = table t ++ List.replicate (decl.supertypes.count t) decl.id := by
  unfold enter
  generalize decl.supertypes = supertypes
  induction supertypes generalizing table with
  | nil => simp
  | cons s supertypes ih =>
    rw [List.foldl_cons, ih]
    by_cases hs : s = t
    · subst hs
      simp [List.replicate_succ]
    · rw [Function.update_of_ne (Ne.symm hs), List.count_cons_of_ne hs]

/-- The types entered at a supertype, in the order of the declarations. -/
theorem enteredSubtypes_eq (h : Hierarchy) (t : TypeId) : h.enteredSubtypes t =
    h.types.flatMap fun decl => List.replicate (decl.supertypes.count t) decl.id := by
  have hfoldl (table : TypeId → List TypeId) (types : List TypeDecl) : types.foldl enter table t =
      table t ++ types.flatMap fun decl => List.replicate (decl.supertypes.count t) decl.id := by
    induction types generalizing table with
    | nil => simp
    | cons decl types ih => rw [List.foldl_cons, ih, enter_apply, List.flatMap_cons, List.append_assoc]
  rw [enteredSubtypes, hfoldl, List.nil_append]

/-- Types that are entered several times are discovered as if each was entered once. -/
theorem discoverAll_enteredSubtypes (h : Hierarchy) (g : Digraph TypeId)
    (e : Digraph.Exploration TypeId) (t : TypeId) :
    g.discoverAll e (h.enteredSubtypes t) = g.discoverAll e (h.directSubtypes t) := by
  have htwice (e : Digraph.Exploration TypeId) (s : TypeId) :
      g.discover (g.discover e s) s = g.discover e s := by
    refine if_neg fun hfresh => hfresh.1 ?_
    exact Digraph.mem_met_discover.2 (.inr ⟨rfl, hfresh.2⟩)
  have hrepeated (e : Digraph.Exploration TypeId) (s : TypeId) (n : Nat) :
      (List.replicate (n + 1) s).foldl g.discover e = g.discover e s := by
    induction n with
    | zero => rfl
    | succ n ih => rw [List.replicate_succ', List.foldl_append, ih, List.foldl_cons, List.foldl_nil, htwice]
  rw [enteredSubtypes_eq, directSubtypes, Digraph.discoverAll, Digraph.discoverAll]
  generalize h.types = types
  induction types generalizing e with
  | nil => rfl
  | cons decl types ih =>
    rw [List.flatMap_cons, List.foldl_append, ih]
    by_cases ht : t ∈ decl.supertypes
    · obtain ⟨n, hn⟩ := Nat.exists_eq_succ_of_ne_zero (List.count_pos_iff.2 ht).ne'
      rw [hn, hrepeated, List.filter_cons_of_pos (by simpa using ht), List.map_cons, List.foldl_cons]
    · rw [List.count_eq_zero.2 ht, List.filter_cons_of_neg (by simpa using ht), List.replicate_zero,
        List.foldl_nil]

/-- A declared type is one of the types. -/
theorem mem_typeIds_of_mem {decl : TypeDecl} (hdecl : decl ∈ h.types) : decl.id ∈ h.typeIds :=
  List.mem_eraseDups.2 (List.mem_map_of_mem hdecl)

/-- The supertypes that types of a program name are types of it. -/
theorem directSupertypes_subset (hh : ofProgram program = .ok h) (t : TypeId) :
    h.directSupertypes t ⊆ h.typeIds := by
  obtain ⟨rfl, hdeclared⟩ := declared_of_ofProgram hh
  intro s hs
  unfold directSupertypes at hs
  split at hs
  · rename_i decl hdecl
    obtain ⟨decl', hmem, rfl⟩ := hdeclared decl (List.mem_reverse.1 (List.mem_of_find?_eq_some hdecl)) s hs
    exact mem_typeIds_of_mem hmem
  · cases hs

/-- What is entered are types. -/
theorem enteredSubtypes_subset (h : Hierarchy) (t : TypeId) : h.enteredSubtypes t ⊆ h.typeIds := by
  intro s hs
  rw [enteredSubtypes_eq] at hs
  obtain ⟨decl, hmem, hs⟩ := List.mem_flatMap.1 hs
  rw [List.eq_of_mem_replicate hs]
  exact mem_typeIds_of_mem hmem

/-- Both walks end. The one along the supertypes that types name lists `supertypesOf`, and what the
    one along the entered subtypes lists is, in ascending order, `subtypesOf`. -/
theorem walks_list (hh : ofProgram program = .ok h) (t : TypeId) :
    (∀ list, Digraph.Walk h.directSupertypes [t] [] list ↔ list = h.supertypesOf t) ∧
    ∃ list, (∀ list', Digraph.Walk h.enteredSubtypes [t] [] list' ↔ list' = list) ∧
      h.subtypesOf t = list.mergeSort fun a b => a.rank ≤ b.rank := by
  constructor
  · intro list
    exact Digraph.walk_iff (g := ⟨h.typeIds, h.directSupertypes⟩) (directSupertypes_subset hh)
  · refine ⟨_, fun list => Digraph.walk_iff (g := ⟨h.typeIds, h.enteredSubtypes⟩)
      (enteredSubtypes_subset h), ?_⟩
    rw [Digraph.reach_congr t fun e s => discoverAll_enteredSubtypes h _ e s, subtypesOf, ascending,
      eraseDups_of_nodup (Digraph.nodup_reach _ t)]

/-! ## The order -/

section Walks

variable (hh : ofProgram program = .ok h) (htypes : (program.types.map (·.id)).Nodup)

include hh htypes

/-- The walk upwards finds the types above. -/
theorem mem_supertypesOf_iff_below : s ∈ h.supertypesOf t ↔ program.Below t s :=
  (describes_types hh htypes).mem_supertypesOf_iff

/-- The walk downwards finds the types below. -/
theorem mem_subtypesOf_iff_below : s ∈ h.subtypesOf t ↔ program.Below s t :=
  (describes_types hh htypes).mem_subtypesOf_iff

theorem isSubtype_iff_below : h.isSubtype s t = true ↔ program.Below s t := by
  rw [isSubtype, List.contains_iff_mem, mem_supertypesOf_iff_below hh htypes]

/-- What is listed above a type is no farther than what is listed after it. -/
theorem pairwise_supertypesOf (t : TypeId) : (h.supertypesOf t).Pairwise fun a b =>
    ∀ n, program.Climbs t n b → ∃ m ≤ n, program.Climbs t m a := by
  have hreaches {n : Nat} {u : TypeId} :
      Digraph.ReachesIn ⟨h.typeIds, h.directSupertypes⟩ t n u ↔ program.Climbs t n u :=
    (describes_types hh htypes).reachesIn_iff.trans Program.climbs_types_iff
  have hsorted : (h.supertypesOf t).Pairwise _ := Digraph.pairwise_reach ⟨h.typeIds, h.directSupertypes⟩ t
  refine List.Pairwise.imp_of_mem (fun {a b} ha _ hle n hn => ?_) hsorted
  obtain ⟨k, hk⟩ := Program.below_iff_exists_climbs.1 ((mem_supertypesOf_iff_below hh htypes).1 ha)
  exact ⟨_, Nat.le_trans hle (hreaches.2 hn).distance_le, hreaches.1 (hreaches.2 hk).reachesIn_distance⟩

/-- The walks upwards and downwards find one order of the types. A type comes first among the types
    above it, and the others are listed once each, by their distance. -/
theorem walks_order :
    (∀ t, (∃ rest, h.supertypesOf t = t :: rest) ∧ (h.supertypesOf t).Nodup ∧
      ((h.supertypesOf t).Pairwise fun a b =>
        ∀ n, program.Climbs t n b → ∃ m ≤ n, program.Climbs t m a) ∧
      ∀ s, s ∈ h.supertypesOf t ↔ program.Below t s) ∧
    (∀ t, (h.subtypesOf t).Pairwise (·.rank < ·.rank)) ∧
    (∀ s t, (s ∈ h.subtypesOf t ↔ h.isSubtype s t = true) ∧
      (h.isSubtype s t = true ↔ t ∈ h.supertypesOf s)) ∧
    (∀ t, h.isSubtype t t = true) ∧
    ∀ s t u, h.isSubtype s t = true → h.isSubtype t u = true → h.isSubtype s u = true := by
  refine ⟨fun t => ⟨?_, ?_, ?_, fun s => ?_⟩, fun t => ?_, fun s t => ⟨?_, ?_⟩, fun t => ?_, ?_⟩
  · exact Digraph.reach_eq_cons ⟨h.typeIds, h.directSupertypes⟩ t
  · exact Digraph.nodup_reach ⟨h.typeIds, h.directSupertypes⟩ t
  · exact pairwise_supertypesOf hh htypes t
  · exact mem_supertypesOf_iff_below hh htypes
  · exact pairwise_ascending fun a b => Ident.rank_injective
  · rw [mem_subtypesOf_iff_below hh htypes, isSubtype_iff_below hh htypes]
  · rw [isSubtype_iff_below hh htypes, mem_supertypesOf_iff_below hh htypes]
  · exact (isSubtype_iff_below hh htypes).2 .refl
  · intro s t u hst htu
    rw [isSubtype_iff_below hh htypes] at hst htu ⊢
    exact ReflTransGen.trans hst htu

end Walks

/-- Two types name each other, one of them twice; a third type is below both of them, and a fourth
    one above. -/
def knot : Program where
  types := [⟨⟨0⟩, "Left", [⟨1⟩, ⟨1⟩]⟩, ⟨⟨1⟩, "Right", [⟨0⟩, ⟨3⟩]⟩, ⟨⟨2⟩, "Both", [⟨0⟩, ⟨1⟩]⟩,
    ⟨⟨3⟩, "Top", []⟩]
  callables := []

/-- Each of two types that name each other is below the other one. -/
theorem knot_walks : ofProgram knot = .ok ⟨knot.types, []⟩ ∧ (knot.types.map (·.id)).Nodup ∧
    Hierarchy.supertypesOf ⟨knot.types, []⟩ ⟨2⟩ = [⟨2⟩, ⟨0⟩, ⟨1⟩, ⟨3⟩] ∧
    Hierarchy.subtypesOf ⟨knot.types, []⟩ ⟨0⟩ = [⟨0⟩, ⟨1⟩, ⟨2⟩] ∧
    knot.Below ⟨2⟩ ⟨3⟩ ∧ Hierarchy.isSubtype ⟨knot.types, []⟩ ⟨1⟩ ⟨1⟩ = true := by
  have hprogram : ofProgram knot = .ok ⟨knot.types, []⟩ := rfl
  have htypes : (knot.types.map (·.id)).Nodup := by decide
  have hsupertypes : Hierarchy.supertypesOf ⟨knot.types, []⟩ ⟨2⟩ = [⟨2⟩, ⟨0⟩, ⟨1⟩, ⟨3⟩] := by cbv
  obtain ⟨hup, -, -, hrefl, -⟩ := walks_order hprogram htypes
  refine ⟨hprogram, htypes, hsupertypes, by cbv, (hup ⟨2⟩).2.2.2 ⟨3⟩ |>.1 ?_, hrefl ⟨1⟩⟩
  rw [hsupertypes]
  decide

end Hierarchy

end Slicing
