import Slicing.Proofs.Flow.Coverage
import Slicing.Proofs.Flow.StraightLine

/-!
# What becomes of the source

Each statement, case and catch clause of a callable should have a node in its flow graph, or be
reported as unreachable together with what it encloses. `try` statements and blocks have no node
of their own. This module keeps an account (`Lowering.Accounts`) of the elements that lowering
gives a node, of those that it reports and of those that it drops, and carries it along the
derivation (`Lowering.Lowered.accounted`).

What is dropped without a report belongs to counting loops (`Loop.Drops`): the header, the body
and the update of a loop if no execution of its `init` comes to its end, and the update of a loop
if no execution of its body ends a round (`FlowGraph.emptyRound_drops`). That nothing else is
dropped is shown on executions: where one comes to its end, lowering goes on as well
(`Lowering.Lowered.neverEnds`), unless the end is one that a `finally` block without nodes may
lose (`blockEndsApart`). All else is accounted for if no element is there twice
(`FlowGraph.build_accounts`).
-/

namespace Slicing

/-! ## Places -/

/-- A place in the source. -/
structure Place where
  id : ElementId
  /-- The constructs around it, the innermost first. -/
  around : List ElementId
  /-- It has a node of its own if control gets there. -/
  owned : Bool

/-- The place, inside of one more construct. -/
def Place.within (place : Place) (id : ElementId) : Place :=
  { place with around := place.around ++ [id] }

/-- The place or a construct around it is among some elements. -/
def Place.Covered (place : Place) (ids : List ElementId) : Prop :=
  place.id ∈ ids ∨ ∃ id ∈ place.around, id ∈ ids

instance (place : Place) (ids : List ElementId) : Decidable (place.Covered ids) :=
  inferInstanceAs (Decidable (_ ∨ ∃ id ∈ place.around, id ∈ ids))

/-- A construct, and the places in it. -/
def enclosing (id : ElementId) (owned : Bool) (inner : List Place) : List Place :=
  ⟨id, [], owned⟩ :: inner.map (·.within id)

/-- The elements at some places. -/
def placeIds (places : List Place) : List ElementId := places.map (·.id)

mutual

/-- The places in a statement. -/
def Stmt.places : Stmt → List Place
  | .simple source _ | .breakJump source | .continueJump source | .returnJump source _
  | .throwJump source _ _ => enclosing source.id true []
  | .branch source _ thenBranch elseBranch =>
    enclosing source.id true (blockPlaces thenBranch ++ blockPlaces elseBranch)
  | .whileLoop source _ body | .doWhile source body _ | .forEach source _ _ body =>
    enclosing source.id true (blockPlaces body)
  | .forLoop source init _ update body =>
    enclosing source.id true (blockPlaces init ++ (blockPlaces body ++ blockPlaces update))
  | .select source _ cases => enclosing source.id true (casesPlaces cases)
  | .tryBlock source body catches none =>
    enclosing source.id false (blockPlaces body ++ catchesPlaces catches)
  | .tryBlock source body catches (some finalizer) =>
    enclosing source.id false (blockPlaces body ++ (catchesPlaces catches ++ blockPlaces finalizer))
  | .block source body => enclosing source.id false (blockPlaces body)

/-- The places in a block. -/
def blockPlaces : List Stmt → List Place
  | [] => []
  | stmt :: stmts => stmt.places ++ blockPlaces stmts

/-- The places in the cases of a `switch`. -/
def casesPlaces : List (SwitchCase Stmt) → List Place
  | [] => []
  | ⟨id, _, body⟩ :: cases => enclosing id true (blockPlaces body) ++ casesPlaces cases

/-- The places in the catch clauses of a `try`. -/
def catchesPlaces : List (CatchClause Stmt) → List Place
  | [] => []
  | ⟨id, _, _, body⟩ :: clauses => enclosing id true (blockPlaces body) ++ catchesPlaces clauses

end

/-- The elements in a block. -/
def blockIds (stmts : List Stmt) : List ElementId := placeIds (blockPlaces stmts)

/-! ## Loops -/

open Lowering (Lowered)

mutual

/-- The loops with their test in front in a statement. -/
def Stmt.loops : Stmt → List Loop
  | .simple .. | .breakJump _ | .continueJump _ | .returnJump .. | .throwJump .. => []
  | .branch _ _ thenBranch elseBranch => blockLoops thenBranch ++ blockLoops elseBranch
  | .whileLoop source cond body => ⟨source, [], [], some cond, [], body⟩ :: blockLoops body
  | .forEach source var iterable body =>
    ⟨source, [], [var], some iterable, [], body⟩ :: blockLoops body
  | .forLoop source init cond update body =>
    ⟨source, init, [], cond, update, body⟩ ::
      (blockLoops init ++ (blockLoops body ++ blockLoops update))
  | .doWhile _ body _ | .block _ body => blockLoops body
  | .select _ _ cases => casesLoops cases
  | .tryBlock _ body catches none => blockLoops body ++ catchesLoops catches
  | .tryBlock _ body catches (some finalizer) =>
    blockLoops body ++ (catchesLoops catches ++ blockLoops finalizer)

/-- The loops with their test in front in a block. -/
def blockLoops : List Stmt → List Loop
  | [] => []
  | stmt :: stmts => stmt.loops ++ blockLoops stmts

/-- The loops with their test in front in the cases of a `switch`. -/
def casesLoops : List (SwitchCase Stmt) → List Loop
  | [] => []
  | ⟨_, _, body⟩ :: cases => blockLoops body ++ casesLoops cases

/-- The loops with their test in front in the catch clauses of a `try`. -/
def catchesLoops : List (CatchClause Stmt) → List Loop
  | [] => []
  | ⟨_, _, _, body⟩ :: clauses => blockLoops body ++ catchesLoops clauses

end

/-- No execution of a block ends in some ways, if ends and ways out stay apart in it. -/
def NeverEnds (h : Hierarchy) (stmts : List Stmt) (ends : Ending → Prop) : Prop :=
  blockEndsApart false stmts = true → ∀ τ o, Runs h (.block stmts) τ o → ¬ends o

/-- What lowering a loop drops without a report, and why: where it was dropped nothing waits, and
    executions do not come there. -/
inductive Loop.Drops (h : Hierarchy) (l : Loop) : List ElementId → Prop
  /-- The whole loop but its start, which is entered and does not come to its end. -/
  | entry {s t : Lowering} : Lowered h (.block l.init) s t → s.pending ≠ [] → t.pending = [] →
    NeverEnds h l.init (· = .normal) →
    Drops h l (l.source.id :: (blockIds l.body ++ blockIds l.update))
  /-- The update, which neither the end of the body nor a `continue` in it leads to. -/
  | update {s t : Lowering} : Lowered h (.block l.body) (s.entered (.loop [] [])) t →
    s.pending ≠ [] → t.pending ++ t.innermost.continues = [] →
    NeverEnds h l.body Ending.EndsRound → Drops h l (blockIds l.update)

section Loops

variable {h : Hierarchy} {stmt : Stmt} {l : Loop} {group : List ElementId} {id : ElementId}

/-- The loops in a loop are itself and those in its parts. -/
theorem Stmt.loops_of_loop (hl : stmt.loop? = some l) :
    stmt.loops = l :: (blockLoops l.init ++ (blockLoops l.body ++ blockLoops l.update)) := by
  cases stmt <;> cases hl <;> simp [Stmt.loops, blockLoops]

/-- Only a loop that starts with something, or has an update, drops anything. -/
theorem Loop.Drops.counting (hd : l.Drops h group) (hid : id ∈ group) :
    l.init ≠ [] ∨ l.update ≠ [] := by
  cases hd with
  | entry _ _ _ hnever =>
    refine .inl fun hinit => ?_
    rw [hinit] at hnever
    exact hnever rfl _ _ .blockEnd rfl
  | update _ _ _ _ =>
    refine .inr fun hupdate => ?_
    rw [hupdate] at hid
    cases hid

end Loops

section Places

variable {place : Place} {id : ElementId} {ids ids' : List ElementId} {places places' : List Place}

/-- A place is covered by more elements as well. -/
theorem Place.Covered.mono (hsub : ids ⊆ ids') (hc : place.Covered ids) : place.Covered ids' :=
  hc.imp (hsub ·) fun ⟨id, hid, hmem⟩ => ⟨id, hid, hsub hmem⟩

/-- A place is covered inside of one more construct as well. -/
theorem Place.Covered.within (hc : place.Covered ids) (id : ElementId) :
    (place.within id).Covered ids :=
  hc.imp_right fun ⟨id, hid, hmem⟩ => ⟨id, List.mem_append_left _ hid, hmem⟩

@[simp] theorem placeIds_append : placeIds (places ++ places') = placeIds places ++ placeIds places' :=
  List.map_append

@[simp] theorem placeIds_within : placeIds (places.map (·.within id)) = placeIds places := by
  simp [placeIds, Place.within]

@[simp] theorem placeIds_enclosing {owned : Bool} :
    placeIds (enclosing id owned places) = id :: placeIds places := by
  rw [enclosing, placeIds, List.map_cons]
  exact congrArg _ placeIds_within

/-- The places in front of a construct that it encloses as well. -/
theorem enclosing_perm (id : ElementId) (owned : Bool) (before after : List Place) :
    (before.map (·.within id) ++ enclosing id owned after).Perm
      (enclosing id owned (before ++ after)) := by
  rw [enclosing, enclosing, List.map_append]
  exact List.perm_middle

/-- A construct is around all that it encloses. -/
theorem covered_of_mem_enclosing {owned : Bool} (hp : place ∈ enclosing id owned places)
    (hid : id ∈ ids) : place.Covered ids := by
  rcases List.mem_cons.1 hp with rfl | hp
  · exact .inl hid
  · obtain ⟨inner, -, rfl⟩ := List.mem_map.1 hp
    exact .inr ⟨id, by simp [Place.within], hid⟩

theorem Stmt.places_eq (stmt : Stmt) :
    ∃ owned inner, stmt.places = enclosing stmt.source.id owned inner := by
  cases stmt with
  | tryBlock _ _ _ finalizer => cases finalizer <;> exact ⟨_, _, by rw [Stmt.places]; rfl⟩
  | _ => exact ⟨_, _, by rw [Stmt.places]; rfl⟩

/-- A jump is one place. -/
theorem Stmt.places_of_jump {stmt : Stmt} {j : Jump} (hj : stmt.jump? = some j) :
    stmt.places = enclosing j.source.id true [] := by
  cases stmt with
  | returnJump _ value => cases value <;> · cases hj; rw [Stmt.places]
  | _ => first | cases hj; rw [Stmt.places] | cases hj

/-- The places in a loop are its own and those in its parts. -/
theorem Stmt.places_of_loop {stmt : Stmt} {l : Loop} (hl : stmt.loop? = some l) :
    stmt.places = enclosing l.source.id true
      (blockPlaces l.init ++ (blockPlaces l.body ++ blockPlaces l.update)) := by
  cases stmt with
  | whileLoop => cases hl; simp [Stmt.places, blockPlaces]
  | forEach => cases hl; simp [Stmt.places, blockPlaces]
  | forLoop => cases hl; rw [Stmt.places]
  | _ => cases hl

end Places

namespace FlowGraph

/-- The source elements that the nodes of a graph stand for. -/
def elements (g : FlowGraph) : List ElementId := g.nodes.filterMap (·.element)

/-- The number of nodes that stand for a source element. -/
def nodeCount (g : FlowGraph) (id : ElementId) : Nat := g.nodes.countP (·.element == some id)

/-- The nodes for an element are counted by what the nodes stand for. -/
theorem nodeCount_eq (g : FlowGraph) (id : ElementId) : g.nodeCount id = g.elements.count id := by
  rw [nodeCount, elements, List.count_filterMap]

end FlowGraph

namespace Lowering

variable {h : Hierarchy} {s s' t u : Lowering} {inner inner' : List Place}
  {quiet : List ElementId → Prop} {g g' g'' : FlowGraph} {id : ElementId}

/-! ## Accounts -/

/-- Between two graphs, some elements were given a node, some were reported, and some were
    dropped. None was treated twice, each place is among them, or in a construct that was
    reported, and what was dropped was dropped in whole groups that may be kept quiet. -/
structure Accounts (places : List Place) (quiet : List ElementId → Prop) (g g' : FlowGraph)
    (made told dropped : List ElementId) : Prop where
  elements : g'.elements = g.elements ++ made
  unreachable : g'.unreachable = g.unreachable ++ told
  once : ∀ id, made.count id + told.count id + dropped.count id ≤ (placeIds places).count id
  each : ∀ place ∈ places, place.owned = true →
    place.id ∈ made ∨ place.Covered told ∨ place.id ∈ dropped
  groups : ∀ id ∈ dropped, ∃ group, quiet group ∧ id ∈ group ∧ group ⊆ dropped

/-- There is an account of some places. -/
def Accounted (places : List Place) (quiet : List ElementId → Prop) (g g' : FlowGraph) : Prop :=
  ∃ made told dropped, Accounts places quiet g g' made told dropped

namespace Accounted

/-- Nothing was done with no places. -/
theorem nil (hnodes : g'.nodes = g.nodes) (htold : g'.unreachable = g.unreachable) :
    Accounted [] quiet g g' :=
  ⟨[], [], [], by simp [FlowGraph.elements, hnodes], by simp [htold], by simp, by simp, by simp⟩

/-- The accounts of two things that are lowered one behind the other. -/
theorem append (ha : Accounted inner quiet g g') (hb : Accounted inner' quiet g' g'') :
    Accounted (inner ++ inner') quiet g g'' := by
  obtain ⟨made, told, dropped, ha⟩ := ha
  obtain ⟨made', told', dropped', hb⟩ := hb
  refine ⟨made ++ made', told ++ told', dropped ++ dropped', ?_, ?_, fun id => ?_,
    fun place hp howned => ?_, fun id hid => ?_⟩
  · rw [hb.elements, ha.elements, List.append_assoc]
  · rw [hb.unreachable, ha.unreachable, List.append_assoc]
  · have := ha.once id
    have := hb.once id
    simp only [List.count_append, placeIds_append]
    omega
  · rcases List.mem_append.1 hp with hp | hp
    · refine (ha.each place hp howned).imp (List.mem_append_left _) (Or.imp ?_ (List.mem_append_left _))
      exact .mono (List.subset_append_left _ _)
    · refine (hb.each place hp howned).imp (List.mem_append_right _) (Or.imp ?_ (List.mem_append_right _))
      exact .mono (List.subset_append_right _ _)
  · rcases List.mem_append.1 hid with hid | hid
    · obtain ⟨group, hgroup, hmem, hsub⟩ := ha.groups id hid
      exact ⟨group, hgroup, hmem, List.Subset.trans hsub (List.subset_append_left _ _)⟩
    · obtain ⟨group, hgroup, hmem, hsub⟩ := hb.groups id hid
      exact ⟨group, hgroup, hmem, List.Subset.trans hsub (List.subset_append_right _ _)⟩

/-- Edges, flags and records do not matter for an account. -/
theorem congr (ha : Accounted inner quiet g g') (hnodes : g''.nodes = g'.nodes)
    (htold : g''.unreachable = g'.unreachable) : Accounted inner quiet g g'' := by
  obtain ⟨made, told, dropped, ha⟩ := ha
  refine ⟨made, told, dropped, ?_, htold.trans ha.unreachable, ha.once, ha.each, ha.groups⟩
  rw [FlowGraph.elements, hnodes]
  exact ha.elements

theorem perm (hp : inner.Perm inner') (ha : Accounted inner quiet g g') :
    Accounted inner' quiet g g' := by
  obtain ⟨made, told, dropped, ha⟩ := ha
  refine ⟨made, told, dropped, ha.elements, ha.unreachable, fun id => ?_, fun place hmem => ?_, ha.groups⟩
  · rw [placeIds, ← (hp.map _).count_eq]
    exact ha.once id
  · exact ha.each place (hp.mem_iff.2 hmem)

/-- What is accounted for is accounted for inside of one more construct. -/
theorem within (ha : Accounted inner quiet g g') (id : ElementId) :
    Accounted (inner.map (·.within id)) quiet g g' := by
  obtain ⟨made, told, dropped, ha⟩ := ha
  refine ⟨made, told, dropped, ha.elements, ha.unreachable, ?_, fun place hp howned => ?_, ha.groups⟩
  · simpa using ha.once
  · obtain ⟨own, hmem, rfl⟩ := List.mem_map.1 hp
    exact (ha.each own hmem howned).imp_right (.imp_left (·.within id))

/-- A construct with a node of its own, in front of what it encloses. -/
theorem enclosed (ha : Accounted (enclosing id true []) quiet g g') (hb : Accounted inner quiet g' g'') :
    Accounted (enclosing id true inner) quiet g g'' :=
  ha.append (hb.within id)

/-- A construct with a node of its own, behind what it encloses. -/
theorem footed (ha : Accounted inner quiet g g') (hb : Accounted (enclosing id true []) quiet g' g'') :
    Accounted (enclosing id true inner) quiet g g'' := by
  have h := ((ha.within id).append hb).perm (enclosing_perm id true inner [])
  rwa [List.append_nil] at h

/-- A construct without a node of its own. -/
theorem unowned (ha : Accounted inner quiet g g') :
    Accounted (enclosing id false inner) quiet g g' := by
  obtain ⟨made, told, dropped, ha⟩ := ha.within id
  refine ⟨made, told, dropped, ha.elements, ha.unreachable, fun id' => ?_, fun place hp howned => ?_,
    ha.groups⟩
  · have := ha.once id'
    rw [placeIds_within] at this
    rw [placeIds_enclosing]
    exact Nat.le_trans this List.count_le_count_cons
  · rcases List.mem_cons.1 hp with rfl | hp
    · cases howned
    · exact ha.each place hp howned

/-- A construct that is reported, and all that it encloses. -/
theorem told {owned : Bool} :
    Accounted (enclosing id owned inner) quiet s.graph (s.skipped id).graph := by
  refine ⟨[], [id], [], by simp [FlowGraph.elements], rfl, fun id' => ?_, fun place hp _ => ?_, by simp⟩
  · rw [placeIds_enclosing]
    simp [List.count_cons]
  · exact .inr (.inl (covered_of_mem_enclosing hp (List.mem_singleton_self id)))

/-- A group that is dropped. -/
theorem dropped (hgroup : quiet (placeIds inner)) : Accounted inner quiet g g := by
  refine ⟨[], [], placeIds inner, by simp, by simp, by simp, fun place hp _ => ?_, fun id hid => ?_⟩
  · exact .inr (.inr (List.mem_map_of_mem hp))
  · exact ⟨_, hgroup, hid, List.Subset.refl _⟩

end Accounted

/-! ## Constructs -/

mutual

/-- The steps of a call stand for no source element. -/
theorem callSteps_element (h : Hierarchy) :
    ∀ (site : CallSite), ∀ step ∈ callSteps h site, step.point.element = none
  | ⟨id, text, target, dispatch, args, resultUsed, throws⟩ => by
    intro step hstep
    rw [callSteps] at hstep
    rcases List.mem_append.1 hstep with hstep | hstep
    · exact argSteps_element h id 0 args step hstep
    · rcases List.mem_cons.1 hstep with rfl | hstep
      · rfl
      · obtain ⟨slot, -, rfl⟩ := List.mem_map.1 hstep
        rfl

/-- The steps of arguments stand for no source element. -/
theorem argSteps_element (h : Hierarchy) (site : CallSiteId) (position : Nat) :
    ∀ (args : List (Argument CallSite)), ∀ step ∈ argSteps h site position args,
      step.point.element = none
  | [] => by
    rw [argSteps]
    simp
  | ⟨_, _, calls, _⟩ :: args => by
    intro step hstep
    rw [argSteps] at hstep
    rcases List.mem_append.1 hstep with hstep | hstep
    · exact callsSteps_element h calls step hstep
    · rcases List.mem_cons.1 hstep with rfl | hstep
      · rfl
      · exact argSteps_element h site (position + 1) args step hstep

/-- The steps of calls stand for no source element. -/
theorem callsSteps_element (h : Hierarchy) :
    ∀ (sites : List CallSite), ∀ step ∈ callsSteps h sites, step.point.element = none
  | [] => by
    rw [callsSteps]
    simp
  | site :: sites => by
    intro step hstep
    rw [callsSteps] at hstep
    rcases List.mem_append.1 hstep with hstep | hstep
    · exact callSteps_element h site step hstep
    · exact callsSteps_element h sites step hstep

end

/-- Only the last step of a construct stands for a source element. -/
theorem steps_elements (h : Hierarchy) (effects : Effects) (kind : NodeKind) :
    (effects.steps h ⟨kind, some id⟩).filterMap (·.point.element) = [id] := by
  rw [Effects.steps, List.filterMap_append,
    List.filterMap_eq_nil_iff.2 (callsSteps_element h effects.calls)]
  rfl

/-- The nodes of a construct stand for it alone. -/
theorem Constructs.accounted {kind : NodeKind} {effects : Effects} {head node : NodeId}
    (hc : Constructs h s ⟨kind, some id⟩ effects head node t) :
    Accounted (enclosing id true []) quiet s.graph t.graph := by
  obtain ⟨es, he, hsteps, -, -⟩ := hc
  have hmade : es.filterMap (·.node.element) = [id] := by
    have := congrArg (List.filterMap (·.point.element)) hsteps
    rwa [List.filterMap_map, steps_elements] at this
  refine ⟨[id], [], [], ?_, ?_, fun id' => ?_, fun place hp _ => ?_, by simp⟩
  · rw [FlowGraph.elements, he.nodes_eq, List.filterMap_append, List.filterMap_map]
    exact congrArg _ hmade
  · rw [he.unreachable_eq, List.append_nil]
  · rw [placeIds_enclosing]
    simp [placeIds]
  · rw [List.mem_singleton.1 hp]
    simp

/-! ## Derivations -/

/-- The places in a part. -/
def Part.places : Part → List Place
  | .stmt st => st.places
  | .block stmts | .update stmts => blockPlaces stmts
  | .rounds _ _ _ body next _ => blockPlaces body ++ blockPlaces next
  | .cases _ _ _ rest => casesPlaces rest
  | .catches _ clauses _ => catchesPlaces clauses

/-- The loops of a part are among some loops. Its rounds are those of one of them, and so is an
    update that nothing leads to. -/
def Part.Among (h : Hierarchy) (loops : List Loop) (s : Lowering) : Part → Prop
  | .stmt st => st.loops ⊆ loops
  | .block stmts => blockLoops stmts ⊆ loops
  | .update stmts =>
    (s.pending = [] → ∃ l ∈ loops, l.Drops h (blockIds stmts)) ∧ blockLoops stmts ⊆ loops
  | .rounds _ _ _ body next _ => (∃ l ∈ loops, l.body = body ∧ l.update = next) ∧
    blockLoops body ⊆ loops ∧ blockLoops next ⊆ loops
  | .cases _ _ _ rest => casesLoops rest ⊆ loops
  | .catches _ clauses _ => catchesLoops clauses ⊆ loops

/-- There is a handler for each of the catch clauses. -/
def Part.Matched : Part → Prop
  | .catches handlers clauses _ => handlers.length = clauses.length
  | _ => True

/-- Behind the body of a `try` there is a handler for each of its clauses. -/
theorem try_matched {body : List Stmt} {catches : List (CatchClause Stmt)} {after : List Pending}
    {hasFinalizer : Bool}
    (hl : Lowered h (.block body) (s.entered (tryScope catches hasFinalizer)) t) :
    Part.Matched (.catches t.innermost.handlers catches after) := by
  obtain ⟨-, hscope⟩ := hl.grown.ext.leave
  obtain ⟨handlers, escapes, heq, hhandlers, -⟩ := hscope.of_tryScope
  rw [heq]
  exact hhandlers.length_eq.symm

/-- An execution of a block comes to where lowering it has come to. -/
theorem Lowered.comes_to {stmts : List Stmt} {τ : List Point} {o : Ending}
    (hl : Lowered h (.block stmts) s t) (hne : s.pending ≠ []) (hapart : blockEndsApart false stmts)
    (hr : Runs h (.block stmts) τ o) :
    ∃ y, (o = .normal → From t.pending y) ∧ ∀ escape, o = .abrupt escape → t.Escapes h escape y := by
  obtain ⟨p, hp⟩ := List.exists_mem_of_ne_nil _ hne
  have hcovers := covers_of_runs hr hl hne (.refl _) hapart
  obtain ⟨y, -, hends, hleaves⟩ := hcovers.goes hl (.refl _) ⟨p, hp, rfl⟩
  exact ⟨y, hends, hleaves⟩

/-- A block behind which nothing waits is not run to its end. -/
theorem Lowered.neverEnds {stmts : List Stmt} (hl : Lowered h (.block stmts) s t)
    (hne : s.pending ≠ []) (hnil : t.pending = []) : NeverEnds h stmts (· = .normal) := by
  intro hapart τ o hr ho
  obtain ⟨y, hends, -⟩ := hl.comes_to hne hapart hr
  exact from_ne_nil (hends ho) hnil

/-- The body of a loop behind which nothing leads on to the update does not end a round. -/
theorem Lowered.neverEnds_round {body : List Stmt}
    (hl : Lowered h (.block body) (s.entered (.loop [] [])) t) (hne : s.pending ≠ [])
    (hnil : t.pending ++ t.innermost.continues = []) : NeverEnds h body Ending.EndsRound := by
  intro hapart τ o hr ho
  obtain ⟨y, hends, hleaves⟩ := hl.comes_to hne hapart hr
  exact from_ne_nil (endsRound_from hl.grown.ext ho hends hleaves) hnil

/-- A loop whose header comes behind what it starts with. -/
theorem loop_accounted {stmt : Stmt} {l : Loop} (hloop : stmt.loop? = some l)
    (hinit : Accounted (blockPlaces l.init) quiet g g')
    (hheader : Accounted (enclosing l.source.id true []) quiet g' g'')
    (hrounds : Accounted (blockPlaces l.body ++ blockPlaces l.update) quiet g'' s.graph) :
    Accounted stmt.places quiet g s.graph := by
  have h := (hinit.within l.source.id).append (hheader.enclosed hrounds)
  rw [Stmt.places_of_loop hloop]
  exact h.perm (enclosing_perm _ _ _ _)

/-- A loop of which nothing is reached but what it starts with. -/
theorem unentered_accounted {stmt : Stmt} {l : Loop} (hloop : stmt.loop? = some l)
    (hinit : Accounted (blockPlaces l.init) quiet g g')
    (hquiet : quiet (l.source.id :: (blockIds l.body ++ blockIds l.update))) :
    Accounted stmt.places quiet g g' := by
  have hrest : Accounted (enclosing l.source.id true (blockPlaces l.body ++ blockPlaces l.update))
      quiet g' g' := .dropped (by simpa [blockIds] using hquiet)
  rw [Stmt.places_of_loop hloop]
  exact ((hinit.within l.source.id).append hrest).perm (enclosing_perm _ _ _ _)

/-- Lowering a part accounts for its places: it drops nothing but what some of its loops drop. -/
theorem Lowered.accounted {part : Part} {loops : List Loop} (hl : Lowered h part s s')
    (hm : part.Matched) (hloops : part.Among h loops s) :
    Accounted part.places (fun group => ∃ l ∈ loops, l.Drops h group) s.graph s'.graph := by
  -- the places of a construct are its own and then those of its parts, as they are lowered
  induction hl with
  | @skip stmt s _ _ =>
    obtain ⟨owned, inner, heq⟩ := stmt.places_eq
    rw [Part.places, heq]
    exact .told
  | simple _ _ hc =>
    rw [Part.places, Stmt.places]
    exact hc.accounted
  | branch _ _ hc _ _ ih₁ ih₂ =>
    rw [Part.Among, Stmt.loops, List.append_subset] at hloops
    rw [Part.places, Stmt.places]
    exact hc.accounted.enclosed ((ih₁ trivial hloops.1).append (ih₂ trivial hloops.2))
  | loopUnentered _ hp hloop hl hnil ih =>
    rw [Part.Among, Stmt.loops_of_loop hloop, List.cons_subset, List.append_subset] at hloops
    exact unentered_accounted hloop (ih trivial hloops.2.1)
      ⟨_, hloops.1, .entry hl hp hnil (hl.neverEnds hp hnil)⟩
  | tested _ _ hloop _ _ _ hc _ ih₁ ih₂ =>
    rw [Part.Among, Stmt.loops_of_loop hloop, List.cons_subset, List.append_subset,
      List.append_subset] at hloops
    exact loop_accounted (s := Lowering.withPending _ _) hloop (ih₁ trivial hloops.2.1) hc.accounted
      (ih₂ trivial ⟨⟨_, hloops.1, rfl, rfl⟩, hloops.2.2⟩)
  | endless _ _ hloop _ _ _ hc _ ih₁ ih₂ =>
    rw [Part.Among, Stmt.loops_of_loop hloop, List.cons_subset, List.append_subset,
      List.append_subset] at hloops
    have := loop_accounted hloop (ih₁ trivial hloops.2.1) hc.accounted
      (ih₂ trivial ⟨⟨_, hloops.1, rfl, rfl⟩, hloops.2.2⟩)
    split
    exacts [this, this]
  | @rounds _ _ _ _ _ _ t _ _ hl _ ih₁ ih₂ =>
    obtain ⟨⟨l, hmem, rfl, rfl⟩, hbody, hnext⟩ := hloops
    -- an update that nothing leads to is that of a loop whose body ends no round
    have hdrops (hnil : t.pending ++ t.innermost.continues = []) :
        ∃ l' ∈ loops, l'.Drops h (blockIds l.update) :=
      ⟨l, hmem, .update hl (by simp) hnil (hl.neverEnds_round (by simp) hnil)⟩
    exact ((ih₁ trivial hbody).append (ih₂ trivial ⟨hdrops, hnext⟩)).congr (closed_nodes _ _ _)
      (closed_unreachable _ _ _)
  | updateUnentered _ hnil => exact .dropped (hloops.1 hnil)
  | update _ _ _ ih => exact ih trivial hloops.2
  | footless _ _ _ _ ih =>
    rw [Part.places, Stmt.places]
    exact (ih trivial hloops).footed (.told (s := Lowering.withPending _ _))
  | footed _ _ _ _ hc ih =>
    rw [Part.places, Stmt.places]
    exact ((ih trivial hloops).footed hc.accounted).congr (closed_nodes _ _ _)
      (closed_unreachable _ _ _)
  | select _ _ hc _ ih =>
    rw [Part.places, Stmt.places]
    exact hc.accounted.enclosed (ih trivial hloops)
  | casesEnd _ => exact .nil rfl rfl
  | case _ hc _ _ ih₁ ih₂ =>
    rw [Part.Among, casesLoops, List.append_subset] at hloops
    exact (hc.accounted.enclosed (ih₁ trivial hloops.1)).append (ih₂ trivial hloops.2)
  | jump _ _ hj hc =>
    rw [Part.places, Stmt.places_of_jump hj]
    exact hc.accounted
  | tryPlain _ _ hl₁ _ ih₁ ih₂ =>
    rw [Part.Among, Stmt.loops, List.append_subset] at hloops
    rw [Part.places, Stmt.places]
    exact ((ih₁ trivial hloops.1).append (ih₂ (try_matched hl₁) hloops.2)).unowned
  | tryNodeless _ _ hl₁ _ _ _ ih₁ ih₂ ih₃ | tryFinally _ _ hl₁ _ _ _ ih₁ ih₂ ih₃ =>
    rw [Part.Among, Stmt.loops, List.append_subset, List.append_subset] at hloops
    rw [Part.places, Stmt.places, sentAll_graph]
    exact ((ih₁ trivial hloops.1).append
      ((ih₂ (try_matched hl₁) hloops.2.1).append (ih₃ trivial hloops.2.2))).unowned
  | catchesEnd _ => exact .nil rfl rfl
  | catchesUnhandled _ =>
    obtain rfl := List.length_eq_zero_iff.1 hm.symm
    exact .nil rfl rfl
  | catchUnentered _ _ _ ih =>
    rw [Part.Among, catchesLoops, List.append_subset] at hloops
    exact Accounted.append .told (ih (Nat.succ.inj hm) hloops.2)
  | «catch» _ _ hc _ _ ih₁ ih₂ =>
    rw [Part.Among, catchesLoops, List.append_subset] at hloops
    exact (hc.accounted.enclosed (ih₁ trivial hloops.1)).append (ih₂ (Nat.succ.inj hm) hloops.2)
  | nested _ _ _ ih =>
    rw [Part.places, Stmt.places]
    exact (ih trivial hloops).unowned
  | blockEnd _ => exact .nil rfl rfl
  | blockNext _ _ _ ih₁ ih₂ =>
    rw [Part.Among, blockLoops, List.append_subset] at hloops
    exact (ih₁ trivial hloops.1).append (ih₂ trivial hloops.2)

namespace Builds

variable {decl : CallableDecl} {body : List Stmt} {n : Nat} {ins es : List Emission}
  {outs : List (OutputSlot × NodeId)}

/-- Only the nodes of the body stand for source elements. -/
theorem elements_eq (hb : Builds h decl body n ins t s es outs u g) :
    g.elements = s.graph.elements ∧
      (t.withFormals (ins.map (·.node.id)) []).graph.elements = [] := by
  have hins : (ins.map (·.node)).filterMap (·.element) = [] := by
    refine List.filterMap_eq_nil_iff.2 fun node hnode => ?_
    obtain ⟨e, he, rfl⟩ := List.mem_map.1 hnode
    exact (hb.of_mem_ins he).1
  have hes : (es.map (·.node)).filterMap (·.element) = [] := by
    refine List.filterMap_eq_nil_iff.2 fun node hnode => ?_
    obtain ⟨e, he, rfl⟩ := List.mem_map.1 hnode
    exact hb.element_of_mem_outs he
  constructor
  · rw [FlowGraph.elements, hb.whole.nodes, List.filterMap_append, hes, List.append_nil,
      FlowGraph.elements]
  · rw [FlowGraph.elements, withFormals_nodes, hb.opening.nodes_eq, List.filterMap_append, hins,
      List.append_nil]
    rfl

/-- The account of a whole callable. -/
theorem accounts (hb : Builds h decl body n ins t s es outs u g) : ∃ dropped,
    (∀ id, g.elements.count id + g.unreachable.count id + dropped.count id ≤ (blockIds body).count id) ∧
    (∀ place ∈ blockPlaces body, place.owned = true →
      place.id ∈ g.elements ∨ place.Covered g.unreachable ∨ place.id ∈ dropped) ∧
    ∀ id ∈ dropped, ∃ group, (∃ l ∈ blockLoops body, l.Drops h group) ∧ id ∈ group ∧
      group ⊆ dropped := by
  obtain ⟨made, told, dropped, ha⟩ := hb.body.accounted trivial (List.Subset.refl (blockLoops body))
  have helements : g.elements = made := by
    rw [hb.elements_eq.1, ha.elements, hb.elements_eq.2, List.nil_append]
  have hunreachable : g.unreachable = told := by
    have hstart : (t.withFormals (ins.map (·.node.id)) []).graph.unreachable = [] :=
      hb.opening.unreachable_eq
    rw [hb.unreachable_eq, ha.unreachable, hstart, List.nil_append]
  subst helements hunreachable
  exact ⟨dropped, ha.once, ha.each, ha.groups⟩

end Builds

end Lowering

namespace FlowGraph

variable {h : Hierarchy} {decl : CallableDecl} {body : List Stmt} {n : Nat} {g : FlowGraph}

/-- If no element is there twice, each place of a callable with a node of its own has exactly one
    and is not reported; or it has none, and it or a construct around it is reported; or it is
    dropped, together with all that a loop drops for a reason of its own: no execution comes to
    the end of its `init`, or none ends a round of its body. -/
theorem build_accounts (hbody : decl.body = some body) (hids : (blockIds body).Nodup)
    (hg : (build h decl n).1 = .ok g) :
    ∀ place ∈ blockPlaces body, place.owned = true →
      g.nodeCount place.id = 1 ∧ place.id ∉ g.unreachable ∨
      g.nodeCount place.id = 0 ∧ place.Covered g.unreachable ∨
      g.nodeCount place.id = 0 ∧ ∃ l ∈ blockLoops body, ∃ group, l.Drops h group ∧
        place.id ∈ group ∧ ∀ id ∈ group, g.nodeCount id = 0 ∧ id ∉ g.unreachable := by
  obtain ⟨ins, t, s, es, outs, u, hb⟩ := Lowering.build_eq_ok hbody hg
  obtain ⟨dropped, honce, heach, hgroups⟩ := hb.accounts
  -- an element is made, told or dropped, and only once in all
  have hone (id : ElementId) :
      g.nodeCount id + g.unreachable.count id + dropped.count id ≤ 1 := by
    rw [nodeCount_eq]
    exact Nat.le_trans (honce id) (List.nodup_iff_count_le_one.1 hids id)
  have hdropped {id : ElementId} (hid : id ∈ dropped) :
      g.nodeCount id = 0 ∧ id ∉ g.unreachable := by
    have := hone id
    have := List.count_pos_iff.2 hid
    exact ⟨by omega, List.count_eq_zero.1 (by omega)⟩
  intro place hplace howned
  by_cases hmade : place.id ∈ g.elements
  · have := hone place.id
    have hpos := List.count_pos_iff.2 hmade
    rw [← nodeCount_eq] at hpos
    exact .inl ⟨by omega, List.count_eq_zero.1 (by omega)⟩
  · refine .inr ?_
    have hnone : g.nodeCount place.id = 0 := (nodeCount_eq g _).trans (List.count_eq_zero.2 hmade)
    rcases (heach place hplace howned).resolve_left hmade with htold | hdrop
    · exact .inl ⟨hnone, htold⟩
    · obtain ⟨group, ⟨l, hl, hgroup⟩, hmem, hsub⟩ := hgroups _ hdrop
      exact .inr ⟨hnone, l, hl, group, hgroup, hmem, fun id hid => hdropped (hsub hid)⟩

/-- A loop that ends in its first round before its test, a clause that nothing is caught by, three
    counting loops, and a statement behind them. The first of these loops comes to its update; the
    second is left in its first round, and the third while it starts. -/
def deadEnds : List Stmt := [
  .doWhile ⟨⟨0⟩, "do", none⟩ [.breakJump ⟨⟨1⟩, "break", none⟩] .none,
  .tryBlock ⟨⟨2⟩, "try", none⟩ [.simple ⟨⟨3⟩, "x", none⟩ .none]
    [⟨⟨4⟩, some "E", "e", [.simple ⟨⟨5⟩, "y", none⟩ .none]⟩] none,
  .forLoop ⟨⟨6⟩, "for", none⟩ [] (some .none) [.simple ⟨⟨7⟩, "u", none⟩ .none] [],
  .forLoop ⟨⟨8⟩, "for", none⟩ [] (some .none) [.simple ⟨⟨9⟩, "v", none⟩ .none]
    [.breakJump ⟨⟨10⟩, "break", none⟩],
  .forLoop ⟨⟨11⟩, "for", none⟩ [.returnJump ⟨⟨12⟩, "return", none⟩ none] none
    [.simple ⟨⟨13⟩, "w", none⟩ .none] [.simple ⟨⟨14⟩, "x", none⟩ .none],
  .simple ⟨⟨15⟩, "z", none⟩ .none]

/-- The elements with a node, and those that are reported. The clause's report holds for what it
    encloses, and what the second and the third counting loop drop is in neither list. -/
theorem deadEnds_accounts : ∃ g, (build ⟨[], []⟩ (callableWith deadEnds) 0).1 = .ok g ∧
    (blockIds deadEnds).Nodup ∧ (∀ place ∈ blockPlaces deadEnds, place.owned = true →
      g.nodeCount place.id = 1 ∧ place.id ∉ g.unreachable ∨
      g.nodeCount place.id = 0 ∧ place.Covered g.unreachable ∨
      g.nodeCount place.id = 0 ∧ ∃ l ∈ blockLoops deadEnds, ∃ group, l.Drops ⟨[], []⟩ group ∧
        place.id ∈ group ∧ ∀ id ∈ group, g.nodeCount id = 0 ∧ id ∉ g.unreachable) ∧
    g.elements = [⟨1⟩, ⟨3⟩, ⟨6⟩, ⟨7⟩, ⟨8⟩, ⟨10⟩, ⟨12⟩] ∧ g.unreachable = [⟨0⟩, ⟨4⟩, ⟨15⟩] := by
  have hids : (blockIds deadEnds).Nodup := by decide
  have hlists : (match (build ⟨[], []⟩ (callableWith deadEnds) 0).1 with
      | .ok g => decide (g.elements = [⟨1⟩, ⟨3⟩, ⟨6⟩, ⟨7⟩, ⟨8⟩, ⟨10⟩, ⟨12⟩] ∧
          g.unreachable = [⟨0⟩, ⟨4⟩, ⟨15⟩])
      | .error _ => false) = true := by decide +kernel
  obtain ⟨g, hg⟩ := Lowering.build_ok ⟨[], []⟩ (callableWith deadEnds) 0 (by decide)
  rw [hg] at hlists
  exact ⟨g, hg, hids, build_accounts rfl hids hg, of_decide_eq_true hlists⟩

/-- A counting loop that is left in its first round, before its update. -/
def emptyRound : List Stmt := [
  .forLoop ⟨⟨0⟩, "for", none⟩ [] none [.simple ⟨⟨1⟩, "u", none⟩ .none]
    [.returnJump ⟨⟨2⟩, "return", none⟩ none]]

/-- The update has no node, and neither it nor the loop is reported. -/
theorem emptyRound_drops : ∃ g, (build ⟨[], []⟩ (callableWith emptyRound) 0).1 = .ok g ∧
    (blockIds emptyRound).Nodup ∧ ∃ place ∈ blockPlaces emptyRound, place.owned = true ∧
      ¬(g.nodeCount place.id = 1 ∧ place.id ∉ g.unreachable ∨
        g.nodeCount place.id = 0 ∧ place.Covered g.unreachable) := by
  have hdropped : (match (build ⟨[], []⟩ (callableWith emptyRound) 0).1 with
      | .ok g => decide (∃ place ∈ blockPlaces emptyRound, place.owned = true ∧
        ¬(g.nodeCount place.id = 1 ∧ place.id ∉ g.unreachable ∨
          g.nodeCount place.id = 0 ∧ place.Covered g.unreachable))
      | .error _ => false) = true := by decide +kernel
  obtain ⟨g, hg⟩ := Lowering.build_ok ⟨[], []⟩ (callableWith emptyRound) 0 (by decide)
  rw [hg] at hdropped
  exact ⟨g, hg, by decide, of_decide_eq_true hdropped⟩

end FlowGraph

end Slicing
