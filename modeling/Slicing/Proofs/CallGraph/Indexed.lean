import Mathlib.Data.List.Nodup
import Slicing.CallGraph.Indexed

/-!
# The tables of a call graph

While a call graph is built up, its tables agree with its calls (`CallGraph.Indexed.Coherent`). Each
change keeps this: a callable that is new takes the next position, a call is added with its site, and
a mark concerns no other site. So after any changes, in any order, what the tables answer is what the
calls say (`CallGraph.Indexed.run_agrees`), and a plain call graph that was built up by the same
changes, whose answers are read off its calls, gives the same ones (`CallGraph.Indexed.run_answers`).
-/

namespace Slicing

/-- A call joins two callables at a site. -/
def CallEdge.Joins (e : CallEdge) (caller callee : CallableId) (site : CallSiteId) : Prop :=
  e.caller = caller ∧ e.callee = callee ∧ e.site = site

namespace CallGraph

/-- A change of a call graph. -/
inductive Change where
  | vertex (callable : CallableId)
  | edge (edge : CallEdge)
  | exclusion (site : CallSiteId) (callable : CallableId)
  deriving DecidableEq, Repr

/-! ## Tables -/

section Tables

variable {κ α : Type} [BEq κ] {key k : κ} {a : α} {table : List (κ × α)}

theorem lookup_cons_eq (key k : κ) (a : α) (table : List (κ × α)) :
    ((key, a) :: table).lookup k = if k == key then some a else table.lookup k := by
  rw [List.lookup_cons]
  cases k == key <;> rfl

variable [LawfulBEq κ]

/-- Only what a table holds for the key changes. -/
theorem lookup_amend (key k : κ) (initial : α) (change : α → α) (table : List (κ × α)) :
    (amend key initial change table).lookup k =
      if k == key then some (change ((table.lookup key).getD initial)) else table.lookup k := by
  induction table with
  | nil => exact lookup_cons_eq key k _ []
  | cons entry rest ih =>
    obtain ⟨key', a⟩ := entry
    rw [amend]
    by_cases hkey : key' = key
    · subst hkey
      rw [if_pos BEq.rfl, lookup_cons_eq, lookup_cons_eq, lookup_cons_eq, if_pos BEq.rfl]
      split <;> rfl
    · have hkey' : ¬(key == key') = true := by simpa using Ne.symm hkey
      rw [if_neg (by simpa using hkey), lookup_cons_eq, ih, lookup_cons_eq, if_neg hkey', lookup_cons_eq]
      by_cases hk : k = key'
      · subst hk
        simp [hkey]
      · simp [hk]

/-- A table with a key that is new. -/
theorem lookup_concat_eq_some_iff (hkey : table.lookup key = none) {b : α} :
    (table ++ [(key, a)]).lookup k = some b ↔ table.lookup k = some b ∨ k = key ∧ a = b := by
  rw [List.lookup_append, lookup_cons_eq, List.lookup_nil]
  by_cases hk : k = key
  · subst hk
    simp [hkey]
  · simp [hk]

theorem getElem?_concat_eq_some_iff {as : List α} {b : α} {p : Nat} :
    (as ++ [a])[p]? = some b ↔ as[p]? = some b ∨ p = as.length ∧ a = b := by
  rcases Nat.lt_trichotomy p as.length with hlt | rfl | hlt
  · rw [List.getElem?_append_left hlt]
    simp [Nat.ne_of_lt hlt]
  · simp
  · rw [List.getElem?_eq_none (by simpa using Nat.succ_le_of_lt hlt), List.getElem?_eq_none (Nat.le_of_lt hlt)]
    simp [Nat.ne_of_gt hlt]

end Tables

namespace Indexed

variable {g g' : Indexed} {c caller callee : CallableId} {site : CallSiteId} {e : CallEdge} {arc : Arc}
  {p source target : Nat}

/-- The tables of a call graph agree with its calls. -/
structure Coherent (g : Indexed) : Prop where
  labels_nodup : g.labels.Nodup
  positions : ∀ c p, g.position? c = some p ↔ g.labels[p]? = some c
  inRange : ∀ arc ∈ g.arcs, arc.source < g.labels.length ∧ arc.target < g.labels.length
  /-- There is at most one call between two positions at a site. -/
  unique : g.arcs.Pairwise fun arc arc' =>
    ¬(arc'.source = arc.source ∧ arc'.target = arc.target ∧ arc'.site = arc.site)
  targets : ∀ site, g.targetsOf site = (g.edges.filter (·.site == site)).map (·.callee)
  excluded_nodup : ∀ site, (g.excludedTargetsOf site).Nodup

/-- The tables of an empty graph fit each other. -/
theorem coherent_empty : Coherent {} where
  labels_nodup := List.nodup_nil
  positions c p := by simp [position?]
  inRange arc harc := (List.not_mem_nil harc).elim
  unique := .nil
  targets site := rfl
  excluded_nodup site := List.nodup_nil

/-! ## Answers -/

theorem labelAt_of_getElem? (hp : g.labels[p]? = some c) : g.labelAt p = c := by
  rw [labelAt, List.getD_eq_getElem?_getD, hp, Option.getD_some]

theorem getElem?_labels (hp : p < g.labels.length) : g.labels[p]? = some (g.labelAt p) := by
  rw [labelAt, List.getD_eq_getElem?_getD, List.getElem?_eq_getElem hp, Option.getD_some]

namespace Coherent

variable (hg : g.Coherent)

include hg

/-- A callable is found at its position. -/
theorem position?_labelAt (hp : p < g.labels.length) : g.position? (g.labelAt p) = some p :=
  (hg.positions _ _).2 (getElem?_labels hp)

/-- Where a callable is found, its label is. -/
theorem labelAt_eq (hc : g.position? c = some p) : g.labelAt p = c :=
  labelAt_of_getElem? ((hg.positions _ _).1 hc)

theorem lt_length (hc : g.position? c = some p) : p < g.labels.length :=
  (List.getElem?_eq_some_iff.1 ((hg.positions _ _).1 hc)).1

/-- A callable has a position if it is there. -/
theorem exists_position?_iff : (∃ p, g.position? c = some p) ↔ c ∈ g.labels := by
  rw [List.mem_iff_getElem?]
  exact exists_congr fun p => hg.positions c p

/-- An arc starts at the position of its caller, and ends at that of its callee. -/
theorem position?_ends (harc : arc ∈ g.arcs) : g.position? (g.edgeOf arc).caller = some arc.source ∧
    g.position? (g.edgeOf arc).callee = some arc.target :=
  ⟨hg.position?_labelAt (hg.inRange arc harc).1, hg.position?_labelAt (hg.inRange arc harc).2⟩

/-- Edges join vertices. -/
theorem ends_mem (he : e ∈ g.edges) : e.caller ∈ g.labels ∧ e.callee ∈ g.labels := by
  obtain ⟨arc, harc, rfl⟩ := List.mem_map.1 he
  obtain ⟨hsource, htarget⟩ := hg.position?_ends harc
  exact ⟨hg.exists_position?_iff.1 ⟨_, hsource⟩, hg.exists_position?_iff.1 ⟨_, htarget⟩⟩

theorem containsVertex_iff : g.containsVertex c = true ↔ c ∈ g.labels := by
  rw [containsVertex, Option.isSome_iff_exists, hg.exists_position?_iff]

/-- An edge is found if there is one that joins the callables at the site. -/
theorem containsEdge_iff :
    g.containsEdge caller callee site = true ↔ ∃ e ∈ g.edges, e.Joins caller callee site := by
  unfold containsEdge
  constructor
  · intro hany
    split at hany
    · rename_i source target hsource htarget
      obtain ⟨arc, harc, heq⟩ := List.any_eq_true.1 hany
      simp only [Bool.and_eq_true, beq_iff_eq] at heq
      obtain ⟨⟨rfl, rfl⟩, rfl⟩ := heq
      exact ⟨g.edgeOf arc, List.mem_map_of_mem harc, hg.labelAt_eq hsource, hg.labelAt_eq htarget, rfl⟩
    · cases hany
  · rintro ⟨e, he, rfl, rfl, rfl⟩
    obtain ⟨arc, harc, rfl⟩ := List.mem_map.1 he
    obtain ⟨hsource, htarget⟩ := hg.position?_ends harc
    rw [hsource, htarget]
    exact List.any_eq_true.2 ⟨arc, harc, by simp [edgeOf]⟩

/-- No two edges join the same callables at the same site. -/
theorem edges_unique : g.edges.Pairwise fun e e' => ¬e'.Joins e.caller e.callee e.site := by
  rw [edges, List.pairwise_map]
  refine hg.unique.imp_of_mem fun {arc arc'} harc harc' hne => ?_
  obtain ⟨hsource, htarget⟩ := hg.position?_ends harc
  obtain ⟨hsource', htarget'⟩ := hg.position?_ends harc'
  rintro ⟨hcaller, hcallee, hsite⟩
  rw [hcaller, hsource] at hsource'
  rw [hcallee, htarget] at htarget'
  exact hne ⟨(Option.some.inj hsource').symm, (Option.some.inj htarget').symm, hsite⟩

/-- The callables at the other ends of the arcs at a callable. -/
theorem neighbours_eq {here there : Arc → Nat} (hhere : ∀ arc ∈ g.arcs, here arc < g.labels.length)
    (c : CallableId) : g.neighbours here there c = ascending Ident.rank
      ((g.arcs.filter fun arc => g.labelAt (here arc) == c).map fun arc => g.labelAt (there arc)) := by
  unfold neighbours
  split
  · rename_i p hp
    have hsame : ∀ arc ∈ g.arcs, (here arc == p) = (g.labelAt (here arc) == c) := by
      intro arc harc
      rw [Bool.eq_iff_iff, beq_iff_eq, beq_iff_eq]
      constructor
      · rintro rfl
        exact hg.labelAt_eq hp
      · rintro rfl
        exact Option.some.inj ((hg.position?_labelAt (hhere arc harc)).symm.trans hp)
    rw [List.filter_congr hsame]
  · rename_i hnone
    -- the ends of arcs have positions, so no arc is at a callable that has none
    have hnil : (g.arcs.filter fun arc => g.labelAt (here arc) == c) = [] := by
      refine List.filter_eq_nil_iff.2 fun arc harc hc => ?_
      rw [← eq_of_beq hc, hg.position?_labelAt (hhere arc harc)] at hnone
      cases hnone
    rw [hnil]
    simp [ascending]

/-- The callees of a callable are the ends of its edges. -/
theorem calleesOf_eq (c : CallableId) : g.calleesOf c =
    ascending Ident.rank ((g.edges.filter (·.caller == c)).map (·.callee)) := by
  rw [calleesOf, hg.neighbours_eq fun arc harc => (hg.inRange arc harc).1, edges, List.filter_map,
    List.map_map]
  rfl

theorem callersOf_eq (c : CallableId) : g.callersOf c =
    ascending Ident.rank ((g.edges.filter (·.callee == c)).map (·.caller)) := by
  rw [callersOf, hg.neighbours_eq fun arc harc => (hg.inRange arc harc).2, edges, List.filter_map,
    List.map_map]
  rfl

/-- The callees of a callable, by its edges. -/
theorem mem_calleesOf_iff :
    callee ∈ g.calleesOf caller ↔ ∃ e ∈ g.edges, e.caller = caller ∧ e.callee = callee := by
  rw [hg.calleesOf_eq, mem_ascending]
  simp [and_assoc]

/-- The callers of a callable, by the edges to it. -/
theorem mem_callersOf_iff :
    caller ∈ g.callersOf callee ↔ ∃ e ∈ g.edges, e.caller = caller ∧ e.callee = callee := by
  rw [hg.callersOf_eq, mem_ascending]
  simp [and_assoc, and_comm]

end Coherent

/-! ## New callables -/

/-- The call graph with one more callable, at the next position. -/
def withVertex (g : Indexed) (c : CallableId) : Indexed :=
  { g with labels := g.labels ++ [c], positions := g.positions ++ [(c, g.labels.length)] }

/-- Only callables have been added. -/
structure Widens (g g' : Indexed) : Prop where
  labels : g.labels <+: g'.labels
  arcs : g'.arcs = g.arcs
  targets : g'.targets = g.targets
  excluded : g'.excluded = g.excluded

theorem Widens.refl (g : Indexed) : g.Widens g := ⟨List.prefix_rfl, rfl, rfl, rfl⟩

theorem Widens.trans {g'' : Indexed} (h : g.Widens g') (h' : g'.Widens g'') : g.Widens g'' :=
  ⟨h.labels.trans h'.labels, h'.arcs.trans h.arcs, h'.targets.trans h.targets, h'.excluded.trans h.excluded⟩

/-- Vertices keep their positions. -/
theorem Widens.getElem? (h : g.Widens g') (hp : g.labels[p]? = some c) : g'.labels[p]? = some c := by
  obtain ⟨rest, hrest⟩ := h.labels
  rw [← hrest, List.getElem?_append_left (List.getElem?_eq_some_iff.1 hp).1, hp]

/-- The calls stay what they are. -/
theorem Widens.edges_eq (hg : g.Coherent) (h : g.Widens g') : g'.edges = g.edges := by
  have hlabel {p : Nat} (hp : p < g.labels.length) : g'.labelAt p = g.labelAt p :=
    labelAt_of_getElem? (h.getElem? (getElem?_labels hp))
  rw [edges, edges, h.arcs]
  refine List.map_congr_left fun arc harc => ?_
  obtain ⟨hsource, htarget⟩ := hg.inRange arc harc
  rw [edgeOf, edgeOf, hlabel hsource, hlabel htarget]

theorem withVertex_widens (g : Indexed) (c : CallableId) : g.Widens (g.withVertex c) :=
  ⟨List.prefix_append _ _, rfl, rfl, rfl⟩

/-- A new vertex gets the next position, and the tables still fit. -/
theorem Coherent.withVertex (hg : g.Coherent) (hc : c ∉ g.labels) : (g.withVertex c).Coherent where
  labels_nodup := by
    refine List.nodup_append.2 ⟨hg.labels_nodup, List.nodup_singleton c, fun a ha b hb heq => hc ?_⟩
    rwa [← List.mem_singleton.1 hb, ← heq]
  positions c' p := by
    -- a callable that is nowhere on the list is not in the table, so its entry there is the only one
    have hnone : g.positions.lookup c = none := by
      refine Option.eq_none_iff_forall_ne_some.2 fun q hq => hc ?_
      exact List.mem_of_getElem? ((hg.positions c q).1 hq)
    refine (lookup_concat_eq_some_iff hnone).trans (Iff.trans ?_ getElem?_concat_eq_some_iff.symm)
    refine or_congr (hg.positions c' p) ?_
    rw [eq_comm (a := c'), eq_comm (a := p), and_comm]
  inRange arc harc := by
    have hlength : g.labels.length ≤ (g.withVertex c).labels.length := (withVertex_widens g c).labels.length_le
    obtain ⟨hsource, htarget⟩ := hg.inRange arc harc
    exact ⟨Nat.lt_of_lt_of_le hsource hlength, Nat.lt_of_lt_of_le htarget hlength⟩
  unique := hg.unique
  targets site := by
    rw [(withVertex_widens g c).edges_eq hg]
    exact hg.targets site
  excluded_nodup := hg.excluded_nodup

/-- What it is to look for the position of a callable, and to add it if it has none. -/
structure Finds (g : Indexed) (c : CallableId) (g' : Indexed) (p : Nat) : Prop where
  coherent : g'.Coherent
  widens : g.Widens g'
  labels : g'.labels = if c ∈ g.labels then g.labels else g.labels ++ [c]
  position : g'.position? c = some p

/-- A callable is a vertex from then on that it is asked for. -/
theorem Coherent.finds (hg : g.Coherent) (c : CallableId) : g.Finds c (g.vertex c).1 (g.vertex c).2 := by
  unfold vertex
  split
  · rename_i p hp
    exact ⟨hg, .refl g, (if_pos (hg.exists_position?_iff.1 ⟨p, hp⟩)).symm, hp⟩
  · rename_i hnone
    have hc : c ∉ g.labels := fun hc => by
      obtain ⟨p, hp⟩ := hg.exists_position?_iff.2 hc
      exact absurd (hnone.symm.trans hp) (Option.some_ne_none p).symm
    have hcoherent := hg.withVertex hc
    refine ⟨hcoherent, withVertex_widens g c, (if_neg hc).symm, (hcoherent.positions c _).2 ?_⟩
    exact List.getElem?_concat_length

/-- A callable stays where it is found. -/
theorem Coherent.position?_mono (hg : g.Coherent) (hg' : g'.Coherent) (h : g.Widens g')
    (hc : g.position? c = some p) : g'.position? c = some p :=
  (hg'.positions c p).2 (h.getElem? ((hg.positions c p).1 hc))

/-! ## New calls -/

/-- The call graph with one more call between positions. -/
def withArc (g : Indexed) (arc : Arc) (callee : CallableId) : Indexed :=
  { g with arcs := g.arcs ++ [arc], targets := amend arc.site [] (· ++ [callee]) g.targets }

/-- An arc adds its edge behind the others. -/
theorem edges_withArc (g : Indexed) (arc : Arc) (callee : CallableId) :
    (g.withArc arc callee).edges = g.edges ++ [g.edgeOf arc] :=
  List.map_append

/-- A new edge between vertices is entered in all tables, and they still fit. -/
theorem Coherent.withArc (hg : g.Coherent) (hsource : g.position? e.caller = some source)
    (htarget : g.position? e.callee = some target)
    (hnew : ¬∃ e' ∈ g.edges, e'.Joins e.caller e.callee e.site) :
    (g.withArc ⟨source, target, e.site, e.node⟩ e.callee).Coherent ∧
      (g.withArc ⟨source, target, e.site, e.node⟩ e.callee).edges = g.edges ++ [e] := by
  have hedge : g.edgeOf ⟨source, target, e.site, e.node⟩ = e := by
    rw [edgeOf, hg.labelAt_eq hsource, hg.labelAt_eq htarget]
  have hedges := (g.edges_withArc ⟨source, target, e.site, e.node⟩ e.callee).trans (by rw [hedge])
  refine ⟨⟨hg.labels_nodup, hg.positions, fun arc harc => ?_, ?_, fun site => ?_, hg.excluded_nodup⟩, hedges⟩
  · rcases List.mem_append.1 harc with harc | harc
    · exact hg.inRange arc harc
    · rw [List.mem_singleton.1 harc]
      exact ⟨hg.lt_length hsource, hg.lt_length htarget⟩
  · refine List.pairwise_append.2 ⟨hg.unique, List.pairwise_singleton _ _, fun arc harc arc' harc' => ?_⟩
    -- an arc with the same positions and site would be the same call
    rw [List.mem_singleton.1 harc']
    rintro ⟨rfl, rfl, hsite⟩
    exact hnew ⟨g.edgeOf arc, List.mem_map_of_mem harc, hg.labelAt_eq hsource, hg.labelAt_eq htarget,
      hsite.symm⟩
  · have hold := hg.targets
    rw [hedges, targetsOf, Indexed.withArc, lookup_amend, List.filter_append, List.map_append, ← hold]
    by_cases hsite : site = e.site
    · subst hsite
      simp [targetsOf]
    · simp [hsite, Ne.symm hsite, targetsOf]

/-- A call is there already, and nothing happens, or it is the last one afterwards. -/
theorem Coherent.addEdge_cases (hg : g.Coherent) (e : CallEdge) :
    (g.addEdge e = (g, false) ∧ ∃ e' ∈ g.edges, e'.Joins e.caller e.callee e.site) ∨
    ((¬∃ e' ∈ g.edges, e'.Joins e.caller e.callee e.site) ∧ ∃ g' g'' source target,
      g.Finds e.caller g' source ∧ g'.Finds e.callee g'' target ∧
      g.addEdge e = (g''.withArc ⟨source, target, e.site, e.node⟩ e.callee, true) ∧
      (g.addEdge e).1.Coherent ∧ (g.addEdge e).1.edges = g.edges ++ [e]) := by
  by_cases hold : g.containsEdge e.caller e.callee e.site = true
  · exact .inl ⟨if_pos hold, hg.containsEdge_iff.1 hold⟩
  · have hnew := mt hg.containsEdge_iff.2 hold
    have hcaller := hg.finds e.caller
    have hcallee := hcaller.coherent.finds e.callee
    have hadd : g.addEdge e = (((g.vertex e.caller).1.vertex e.callee).1.withArc
        ⟨(g.vertex e.caller).2, ((g.vertex e.caller).1.vertex e.callee).2, e.site, e.node⟩ e.callee, true) :=
      if_neg hold
    have hedges : ((g.vertex e.caller).1.vertex e.callee).1.edges = g.edges :=
      (hcaller.widens.trans hcallee.widens).edges_eq hg
    -- the callee may be the caller, and then it is found; in either case the caller stays where it is
    have hsource := hcaller.coherent.position?_mono hcallee.coherent hcallee.widens hcaller.position
    obtain ⟨hcoherent, hlast⟩ := hcallee.coherent.withArc hsource hcallee.position (by rwa [hedges])
    refine .inr ⟨hnew, _, _, _, _, hcaller, hcallee, hadd, ?_⟩
    rw [hadd]
    exact ⟨hcoherent, hlast.trans (by rw [hedges])⟩

/-! ## Marks -/

/-- A target is noted as excluded once, behind those of its site. -/
theorem excludedTargetsOf_markExcluded (g : Indexed) (site s : CallSiteId) (c : CallableId) :
    (g.markExcluded site c).excludedTargetsOf s =
      if s = site ∧ c ∉ g.excludedTargetsOf s then g.excludedTargetsOf s ++ [c]
      else g.excludedTargetsOf s := by
  rw [excludedTargetsOf, excludedTargetsOf, markExcluded, lookup_amend]
  by_cases hs : s = site
  · subst hs
    by_cases hc : c ∈ (g.excluded.lookup s).getD []
    · simp [hc]
    · simp [hc]
  · simp [hs]

theorem Coherent.markExcluded (hg : g.Coherent) (site : CallSiteId) (c : CallableId) :
    (g.markExcluded site c).Coherent := by
  refine ⟨hg.labels_nodup, hg.positions, hg.inRange, hg.unique, hg.targets, fun s => ?_⟩
  rw [excludedTargetsOf_markExcluded]
  split
  · rename_i hnew
    refine List.nodup_append.2 ⟨hg.excluded_nodup s, List.nodup_singleton c, fun a ha b hb heq => hnew.2 ?_⟩
    rwa [← List.mem_singleton.1 hb, ← heq]
  · exact hg.excluded_nodup s

/-! ## Any changes -/

/-- The call graph after a change. -/
def change (g : Indexed) : Change → Indexed
  | .vertex c => g.addVertex c
  | .edge e => (g.addEdge e).1
  | .exclusion site c => g.markExcluded site c

/-- The call graph that is built up by changes. -/
def run (changes : List Change) : Indexed := changes.foldl change {}

/-- Every change keeps the tables fitting each other. -/
theorem Coherent.change (hg : g.Coherent) (change : Change) : (g.change change).Coherent := by
  cases change with
  | vertex c => exact (hg.finds c).coherent
  | edge e =>
    rcases hg.addEdge_cases e with ⟨hsame, -⟩ | ⟨-, _, _, _, _, -, -, -, hcoherent, -⟩
    · rw [Indexed.change, hsame]
      exact hg
    · exact hcoherent
  | exclusion site c => exact hg.markExcluded site c

theorem Coherent.foldl_change (hg : g.Coherent) (changes : List Change) :
    (changes.foldl Indexed.change g).Coherent := by
  induction changes generalizing g with
  | nil => exact hg
  | cons change changes ih => exact ih (hg.change change)

/-- The tables fit each other after any run. -/
theorem coherent_run (changes : List Change) : (run changes).Coherent :=
  coherent_empty.foldl_change changes

/-- What the tables of a call graph answer is what its calls say, and what a change does to it is
    what it is meant to do. -/
structure Agrees (g : Indexed) : Prop where
  vertices_nodup : g.vertices.Nodup
  ends_mem : ∀ e ∈ g.edges, e.caller ∈ g.vertices ∧ e.callee ∈ g.vertices
  edges_unique : g.edges.Pairwise fun e e' => ¬e'.Joins e.caller e.callee e.site
  containsVertex_iff : ∀ c, g.containsVertex c = true ↔ c ∈ g.vertices
  containsEdge_iff : ∀ caller callee site,
    g.containsEdge caller callee site = true ↔ ∃ e ∈ g.edges, e.Joins caller callee site
  targetsOf_eq : ∀ site, g.targetsOf site = (g.edges.filter (·.site == site)).map (·.callee)
  calleesOf_ascending : ∀ c, (g.calleesOf c).Pairwise (·.rank < ·.rank)
  callersOf_ascending : ∀ c, (g.callersOf c).Pairwise (·.rank < ·.rank)
  mem_calleesOf_iff : ∀ caller callee,
    callee ∈ g.calleesOf caller ↔ ∃ e ∈ g.edges, e.caller = caller ∧ e.callee = callee
  dual : ∀ caller callee, callee ∈ g.calleesOf caller ↔ caller ∈ g.callersOf callee
  excluded_nodup : ∀ site, (g.excludedTargetsOf site).Nodup
  addVertex_vertices : ∀ c,
    (g.addVertex c).vertices = if c ∈ g.vertices then g.vertices else g.vertices ++ [c]
  addVertex_edges : ∀ c, (g.addVertex c).edges = g.edges
  addEdge_eq_false_iff : ∀ e,
    (g.addEdge e).2 = false ↔ ∃ e' ∈ g.edges, e'.Joins e.caller e.callee e.site
  addEdge_of_eq_false : ∀ e, (g.addEdge e).2 = false → (g.addEdge e).1 = g
  addEdge_of_eq_true : ∀ e, (g.addEdge e).2 = true → (g.addEdge e).1.edges = g.edges ++ [e]
  /-- A mark changes nothing but what is left out, ... -/
  markExcluded_frame : ∀ site c, g.markExcluded site c =
    { g with excluded := (g.markExcluded site c).excluded }
  /-- ... and this only for its site. -/
  excludedTargetsOf_markExcluded : ∀ site c s, (g.markExcluded site c).excludedTargetsOf s =
    if s = site ∧ c ∉ g.excludedTargetsOf s then g.excludedTargetsOf s ++ [c]
    else g.excludedTargetsOf s

/-- Whether a call is added hangs on the calls that are there. -/
theorem Coherent.addEdge_result (hg : g.Coherent) (e : CallEdge) :
    ((g.addEdge e).2 = false ↔ ∃ e' ∈ g.edges, e'.Joins e.caller e.callee e.site) ∧
    ((g.addEdge e).2 = false → (g.addEdge e).1 = g) ∧
    ((g.addEdge e).2 = true → (g.addEdge e).1.edges = g.edges ++ [e]) := by
  rcases hg.addEdge_cases e with ⟨hsame, hold⟩ | ⟨hnew, _, _, _, _, -, -, hadd, -, hedges⟩
  · rw [hsame]
    exact ⟨iff_of_true rfl hold, fun _ => rfl, fun h => (Bool.false_ne_true h).elim⟩
  · have htrue : (g.addEdge e).2 = true := congrArg Prod.snd hadd
    rw [htrue]
    exact ⟨iff_of_false Bool.false_ne_true.symm hnew, fun h => (Bool.false_ne_true h.symm).elim,
      fun _ => hedges⟩

/-- The tables of a call graph agree with its calls after any changes. -/
theorem run_agrees (changes : List Change) : (run changes).Agrees := by
  have hg := coherent_run changes
  generalize run changes = g at hg
  exact {
    vertices_nodup := hg.labels_nodup
    ends_mem := fun e he => hg.ends_mem he
    edges_unique := hg.edges_unique
    containsVertex_iff := fun c => hg.containsVertex_iff
    containsEdge_iff := fun caller callee site => hg.containsEdge_iff
    targetsOf_eq := hg.targets
    calleesOf_ascending := fun c =>
      (hg.calleesOf_eq c).symm ▸ pairwise_ascending fun _ _ => Ident.rank_injective
    callersOf_ascending := fun c =>
      (hg.callersOf_eq c).symm ▸ pairwise_ascending fun _ _ => Ident.rank_injective
    mem_calleesOf_iff := fun caller callee => hg.mem_calleesOf_iff
    dual := fun caller callee => hg.mem_calleesOf_iff.trans hg.mem_callersOf_iff.symm
    excluded_nodup := hg.excluded_nodup
    addVertex_vertices := fun c => (hg.finds c).labels
    addVertex_edges := fun c => (hg.finds c).widens.edges_eq hg
    addEdge_eq_false_iff := fun e => (hg.addEdge_result e).1
    addEdge_of_eq_false := fun e => (hg.addEdge_result e).2.1
    addEdge_of_eq_true := fun e => (hg.addEdge_result e).2.2
    markExcluded_frame := fun site c => rfl
    excludedTargetsOf_markExcluded := fun site c s => g.excludedTargetsOf_markExcluded site s c }

-- A callable that calls itself is its own caller; two sites make two calls of one callable.
example :
    let g := run [.edge ⟨⟨3⟩, ⟨3⟩, ⟨0⟩, ⟨1⟩⟩, .edge ⟨⟨3⟩, ⟨2⟩, ⟨1⟩, ⟨4⟩⟩, .edge ⟨⟨3⟩, ⟨2⟩, ⟨5⟩, ⟨6⟩⟩]
    g.edges.length = 3 ∧ g.callersOf ⟨3⟩ = [⟨3⟩] ∧ g.calleesOf ⟨3⟩ = [⟨2⟩, ⟨3⟩] := by
  cbv

end Indexed

/-! ## Without tables -/

variable {g : Indexed} {plain : CallGraph} {e : CallEdge}

/-- The plain call graph after a change. -/
def change (plain : CallGraph) : Change → CallGraph
  | .vertex c => plain.addVertex c
  | .edge e => plain.addEdge e
  | .exclusion site c => plain.markExcluded site c

/-- The plain call graph that is built up by changes. -/
def run (changes : List Change) : CallGraph := changes.foldl change empty

/-- An edge is found if there is one that joins the callables at the site. -/
theorem containsEdge_iff {caller callee : CallableId} {site : CallSiteId} :
    plain.containsEdge caller callee site = true ↔ ∃ e ∈ plain.edges, e.Joins caller callee site := by
  simp [containsEdge, CallEdge.Joins, and_assoc]

/-- A vertex is added once. -/
theorem vertices_addVertex (plain : CallGraph) (c : CallableId) : (plain.addVertex c).vertices =
    if c ∈ plain.vertices then plain.vertices else plain.vertices ++ [c] := by
  rw [addVertex, containsVertex]
  split <;> simp_all

theorem edges_addVertex (plain : CallGraph) (c : CallableId) : (plain.addVertex c).edges = plain.edges := by
  rw [addVertex]
  split <;> rfl

theorem excluded_addVertex (plain : CallGraph) (c : CallableId) :
    (plain.addVertex c).excluded = plain.excluded := by
  rw [addVertex]
  split <;> rfl

/-- A target is noted as excluded once, behind those of its site. -/
theorem excludedTargetsOf_markExcluded (plain : CallGraph) (site s : CallSiteId) (c : CallableId) :
    (plain.markExcluded site c).excludedTargetsOf s =
      if s = site ∧ c ∉ plain.excludedTargetsOf s then plain.excludedTargetsOf s ++ [c]
      else plain.excludedTargetsOf s := by
  have hmem : plain.excluded.contains (site, c) = true ↔ c ∈ plain.excludedTargetsOf site := by
    simp [excludedTargetsOf]
  rw [markExcluded]
  by_cases hs : s = site
  · subst hs
    by_cases hc : c ∈ plain.excludedTargetsOf s
    · rw [if_pos (hmem.2 hc), if_neg fun h => h.2 hc]
    · rw [if_neg (mt hmem.1 hc), if_pos ⟨rfl, hc⟩]
      simp [excludedTargetsOf]
  · rw [if_neg (mt And.left hs)]
    split
    · rfl
    · simp [excludedTargetsOf, Ne.symm hs]

/-- The tables hold what a plain call graph holds. -/
structure Indexed.Mirrors (g : Indexed) (plain : CallGraph) : Prop where
  vertices : g.vertices = plain.vertices
  edges : g.edges = plain.edges
  excluded : ∀ site, g.excludedTargetsOf site = plain.excludedTargetsOf site

/-- Both find a callable, or else both add it. -/
theorem Indexed.Finds.mirrors {g' : Indexed} {c : CallableId} {p : Nat} (hfinds : g.Finds c g' p)
    (hg : g.Coherent) (h : g.Mirrors plain) : g'.Mirrors (plain.addVertex c) where
  vertices := by
    rw [vertices_addVertex, ← h.vertices]
    exact hfinds.labels
  edges := by rw [hfinds.widens.edges_eq hg, edges_addVertex, h.edges]
  excluded site := by
    rw [excludedTargetsOf, hfinds.widens.excluded, CallGraph.excludedTargetsOf, excluded_addVertex]
    exact h.excluded site

/-- Adding an edge does the same to both graphs. -/
theorem Indexed.Mirrors.addEdge (h : g.Mirrors plain) (hg : g.Coherent) (e : CallEdge) :
    (g.addEdge e).1.Mirrors (plain.addEdge e) := by
  rcases hg.addEdge_cases e with ⟨hsame, hold⟩ |
    ⟨hnew, g', g'', source, target, hcaller, hcallee, hadd, -, hedges⟩
  · rw [h.edges, ← containsEdge_iff] at hold
    rw [hsame, CallGraph.addEdge, if_pos hold]
    exact h
  · rw [h.edges, ← containsEdge_iff] at hnew
    have hends := hcallee.mirrors hcaller.coherent (hcaller.mirrors hg h)
    rw [CallGraph.addEdge, if_neg hnew]
    refine ⟨?_, ?_, ?_⟩
    · rw [hadd]
      exact hends.vertices
    · dsimp only
      rw [hedges, h.edges, edges_addVertex, edges_addVertex]
    · rw [hadd]
      exact hends.excluded

/-- Every change does the same to both graphs. -/
theorem Indexed.Mirrors.change (h : g.Mirrors plain) (hg : g.Coherent) (change : Change) :
    (g.change change).Mirrors (plain.change change) := by
  cases change with
  | vertex c => exact (hg.finds c).mirrors hg h
  | edge e => exact h.addEdge hg e
  | exclusion site c =>
    have hplain : (plain.markExcluded site c).vertices = plain.vertices ∧
        (plain.markExcluded site c).edges = plain.edges := by
      rw [CallGraph.markExcluded]
      split <;> exact ⟨rfl, rfl⟩
    refine ⟨h.vertices.trans hplain.1.symm, h.edges.trans hplain.2.symm, fun s => ?_⟩
    rw [Indexed.change, CallGraph.change, Indexed.excludedTargetsOf_markExcluded,
      CallGraph.excludedTargetsOf_markExcluded, h.excluded]

/-- Some changes do the same to both graphs. -/
theorem Indexed.Mirrors.foldl_change (h : g.Mirrors plain) (hg : g.Coherent) (changes : List Change) :
    (changes.foldl Indexed.change g).Mirrors (changes.foldl CallGraph.change plain) := by
  induction changes generalizing g plain with
  | nil => exact h
  | cons change changes ih => exact ih (h.change hg change) (hg.change change)

/-- After the same changes, every question has the same answer with the tables and without. -/
theorem run_answers (changes : List Change) :
    (∀ c, (Indexed.run changes).containsVertex c = (run changes).containsVertex c) ∧
    (∀ caller callee site, (Indexed.run changes).containsEdge caller callee site =
      (run changes).containsEdge caller callee site) ∧
    (∀ site, (Indexed.run changes).targetsOf site = (run changes).targetsOf site) ∧
    (∀ site, (Indexed.run changes).excludedTargetsOf site = (run changes).excludedTargetsOf site) ∧
    (∀ c, (Indexed.run changes).calleesOf c = (run changes).calleesOf c) ∧
    (∀ c, (Indexed.run changes).callersOf c = (run changes).callersOf c) ∧
    (Indexed.run changes).toJson = (run changes).toJson := by
  have hg := Indexed.coherent_run changes
  have h : (Indexed.run changes).Mirrors (run changes) :=
    Indexed.Mirrors.foldl_change ⟨rfl, rfl, fun _ => rfl⟩ Indexed.coherent_empty changes
  generalize Indexed.run changes = g at hg h
  refine ⟨fun c => ?_, fun caller callee site => ?_, fun site => ?_, h.excluded, fun c => ?_, fun c => ?_, ?_⟩
  · rw [Bool.eq_iff_iff, hg.containsVertex_iff, containsVertex, List.contains_iff_mem, ← h.vertices]
    rfl
  · rw [Bool.eq_iff_iff, hg.containsEdge_iff, containsEdge_iff, h.edges]
  · rw [hg.targets, h.edges, targetsOf]
  · rw [hg.calleesOf_eq, h.edges, calleesOf]
  · rw [hg.callersOf_eq, h.edges, callersOf]
  · rw [Indexed.toJson, h.vertices, h.edges, toJson]

end CallGraph

end Slicing
