import Mathlib.Logic.Relation
import Mathlib.Order.Bounds.Basic
import Slicing.Slice.Slicer

/-!
# Slices are closures

Which node a criterion means, and which nodes and edges its slice holds, said without the
search that finds them.

* A criterion means a node (`SystemGraph.Means`) if its location leaves no other choice, and
  its variable, if it has one, has to be read or written there (`SystemGraph.Mentions`).
* An edge may be followed (`Traversal.Admissible`) unless it is one of control and control is
  left out, a summary that is not to be used, or a move that the phase forbids.
* The nodes of a slice (`Slice.Covers`) are the least set that holds the node of the criterion
  and is closed under following edges. In two phases it is the least set closed under the
  second one that holds the least set closed under the first one.

A slicer answers a query with this slice whatever it was asked before (`Serves.ask_eq`), as it
only remembers answers that it would give again.
-/

namespace Slicing

/-! ## Least closed sets -/

/-- What is reached from some starting points is the least set that holds them and where
    their arrows lead. -/
theorem Digraph.isLeast_reachAll {α : Type} [DecidableEq α] (g : Digraph α) (starts : List α) :
    IsLeast {S : Set α | (∀ v ∈ starts, v ∈ S) ∧ ∀ v ∈ S, ∀ w ∈ g.next v, w ∈ g.vertices → w ∈ S}
      {w | w ∈ g.reachAll starts} := by
  refine ⟨⟨fun v hv => mem_reachAll_iff.2 ⟨v, hv, .refl v⟩, fun v hv w hnext hvertex => ?_⟩, ?_⟩
  · obtain ⟨u, hu, hreach⟩ := mem_reachAll_iff.1 hv
    exact mem_reachAll_iff.2 ⟨u, hu, hreach.step hnext hvertex⟩
  · rintro S ⟨hstarts, hclosed⟩ w hw
    obtain ⟨u, hu, hreach⟩ := mem_reachAll_iff.1 hw
    induction hreach with
    | refl => exact hstarts u hu
    | step _ hnext hvertex ih => exact hclosed _ (ih (mem_reachAll_iff.2 ⟨u, hu, ‹_›⟩)) _ hnext hvertex

/-! ## Criteria -/

namespace SystemGraph

variable (g : SystemGraph)

/-- A node stands for a source element that starts on a line. -/
def OnLine (line : UInt32) (n : NodeId) : Prop :=
  ∃ node ∈ g.nodes, node.id = n ∧ node.element.isSome ∧ node.line? = some line

/-- A variable is read or written at a node. -/
def Touches (var : String) (n : NodeId) : Prop :=
  ∃ node, g.node? n = some node ∧ (var ∈ node.uses ∨ var ∈ node.defs)

/-- A node that a line may mean: if there are several on it, a variable tells them apart. -/
def Candidate (line : UInt32) (var : Option String) (n : NodeId) : Prop :=
  g.OnLine line n ∧ ∀ v, var = some v → (∃ m, g.OnLine line m ∧ m ≠ n) → g.Touches v n

/-- A criterion means a node. The node of an element is the last one that stands for it, and
    a line has to leave just one candidate. -/
def Means (c : Criterion) (n : NodeId) : Prop :=
  match c.location with
  | .node id => id = n ∧ n ∈ g.nodeIds
  | .element id => ∃ before node after, g.nodes = before ++ node :: after ∧ node.id = n ∧
      node.element = some id ∧ ∀ later ∈ after, later.element ≠ some id
  | .line line => ∀ m, g.Candidate line c.var m ↔ m = n

/-- The variable of a criterion, if it has one, is read or written at a node. -/
def Mentions (c : Criterion) (n : NodeId) : Prop := ∀ var, c.var = some var → g.Touches var n

/-- Data dependences followed from the node of a criterion have to carry its variable: if it
    is read there in a slice of what influences the node, if it is written there in one of
    what the node influences. -/
def Restricts (c : Criterion) (direction : Direction) (n : NodeId) (var : String) : Prop :=
  c.var = some var ∧ ∃ node, g.node? n = some node ∧
    match direction with
    | .backward => var ∈ node.uses
    | .forward => var ∈ node.defs

end SystemGraph

/-! ## Edges that may be followed -/

/-- Following a dependence leads from a caller into a callee. -/
def Dependence.Descends : Direction → Dependence → Prop
  | .backward, .parameterOut _ | .forward, .call _ | .forward, .parameterIn _ => True
  | _, _ => False

/-- Following a dependence leads from a callee into a caller. -/
def Dependence.Ascends : Direction → Dependence → Prop
  | .forward, .parameterOut _ | .backward, .call _ | .backward, .parameterIn _ => True
  | _, _ => False

namespace Traversal

variable (t : Traversal) (g : SystemGraph)

/-- A dependence may be followed in a phase. -/
structure Admissible (phase : Phase) (d : Dependence) : Prop where
  control : d.kind = .control ∨ d.kind = .call → t.includeControl = true
  summary : ∀ site, d = .summary site → t.useSummaries = true ∨ g.isOpaqueAt site = true
  ascend : phase = .ascend → ¬d.Descends t.direction
  descend : phase = .descend → ¬d.Ascends t.direction

/-- A traversal for a criterion that means a node `n` takes a step from `u` to `v`. -/
def Step (c : Criterion) (n : NodeId) (phase : Phase) (u v : NodeId) : Prop :=
  v ∈ g.nodeIds ∧ ∃ d, t.Admissible g phase d ∧
    (match t.direction with
      | .backward => ⟨v, u, d⟩ ∈ g.edges
      | .forward => ⟨u, v, d⟩ ∈ g.edges) ∧
    (u = n → ∀ var, g.Restricts c t.direction n var → ∀ carried, d = .data carried → carried = var)

/-- The least set that holds some nodes and is closed under the steps of a phase. -/
def IsClosure (c : Criterion) (n : NodeId) (phase : Phase) (starts closure : Set NodeId) : Prop :=
  IsLeast {S | starts ⊆ S ∧ ∀ u ∈ S, ∀ v, t.Step g c n phase u v → v ∈ S} closure

end Traversal

/-- A slice is the one for a criterion that means a node `n`. -/
structure Slice.Covers (slice : Slice) (g : SystemGraph) (t : Traversal) (c : Criterion)
    (n : NodeId) : Prop where
  criterion : slice.criterion = c
  node : slice.node = n
  direction : slice.direction = t.direction
  nodes : match t.strategy with
    | .closure => t.IsClosure g c n .full {n} {m | m ∈ slice.nodes}
    | .twoPhase => ∃ ascended, t.IsClosure g c n .ascend {n} ascended ∧
        t.IsClosure g c n .descend ascended {m | m ∈ slice.nodes}
  edges : slice.edges = g.edges.filter fun e => e.source ∈ slice.nodes ∧ e.target ∈ slice.nodes
  points : ∀ p, p ∈ slice.points ↔ ∃ node ∈ g.nodes, node.id ∈ slice.nodes ∧ node.element = some p

/-! ## Locating a criterion -/

namespace SystemGraph

variable {g : SystemGraph} {c : Criterion} {n : NodeId} {var : String} {line : UInt32}

theorem exists_node?_of_mem (h : n ∈ g.nodeIds) : ∃ node, g.node? n = some node := by
  obtain ⟨node, hmem, hid⟩ := List.mem_map.1 h
  refine Option.isSome_iff_exists.1 (List.find?_isSome.2 ⟨node, hmem, ?_⟩)
  simpa using hid

/-- Without a variable nothing is restricted. -/
theorem not_restricts_none {location : Location} {direction : Direction} :
    ¬g.Restricts ⟨location, none⟩ direction n var := nofun

theorem none_eq_some_iff {location : Location} {direction : Direction} :
    (none : Option String) = some var ↔ g.Restricts ⟨location, none⟩ direction n var := ⟨nofun, nofun⟩

/-- A node concerns a variable that is read or written there. -/
theorem concerns_iff : g.concerns var n = true ↔ g.Touches var n := by
  unfold concerns Touches
  cases g.node? n <;> simp [Node.reads, Node.defines]

/-- The nodes that are listed for a line. -/
theorem mem_nodesOnLine_iff : n ∈ g.nodesOnLine line ↔ g.OnLine line n := by
  simp only [nodesOnLine, OnLine, mem_ascending, List.mem_map, List.mem_filter, Bool.and_eq_true,
    beq_iff_eq]
  constructor
  · rintro ⟨node, ⟨hmem, helement, hline⟩, hid⟩
    exact ⟨node, hmem, hid, helement, hline⟩
  · rintro ⟨node, hmem, hid, helement, hline⟩
    exact ⟨node, ⟨hmem, helement, hline⟩, hid⟩

/-- The nodes that a line may mean. -/
theorem mem_candidatesOnLine_iff {var : Option String} :
    n ∈ g.candidatesOnLine line var ↔ g.Candidate line var n := by
  unfold candidatesOnLine Candidate
  have hnodup : (g.nodesOnLine line).Nodup := nodup_ascending _ _
  have hmem (m : NodeId) : m ∈ g.nodesOnLine line ↔ g.OnLine line m := mem_nodesOnLine_iff
  split
  · -- several nodes, so that the variable counts
    rename_i a b rest v hline
    rw [hline] at hnodup hmem
    rw [List.mem_filter, hmem, concerns_iff]
    refine and_congr_right fun _ => ⟨?_, fun h => h v rfl ?_⟩
    · rintro h _ ⟨⟩ -
      exact h
    · by_cases hna : n = a
      · refine ⟨b, (hmem b).1 (by simp), fun hb => ?_⟩
        simp [← hna, hb] at hnodup
      · exact ⟨a, (hmem a).1 List.mem_cons_self, Ne.symm hna⟩
  · rename_i nodes v hfew
    rw [hmem]
    refine ⟨fun hn => ⟨hn, ?_⟩, fun h => h.1⟩
    rintro v rfl ⟨m, hm, hne⟩
    -- two different nodes would be several
    rw [← hmem] at hn hm
    match hline : g.nodesOnLine line with
    | [] => simp [hline] at hn
    | [a] =>
      rw [hline, List.mem_singleton] at hn hm
      exact absurd (hm.trans hn.symm) hne
    | a :: b :: rest => exact absurd rfl (hfew a b rest v hline)

/-- A line lists each node once. -/
theorem nodup_candidatesOnLine (g : SystemGraph) (line : UInt32) (var : Option String) :
    (g.candidatesOnLine line var).Nodup := by
  have hnodup : (g.nodesOnLine line).Nodup := nodup_ascending _ _
  unfold candidatesOnLine
  split
  · rename_i hline
    exact List.Pairwise.filter _ (hline ▸ hnodup)
  · exact hnodup

/-- The node of an element is the last one that stands for it. -/
theorem nodeForElement?_eq_some_iff {id : ElementId} : g.nodeForElement? id = some n ↔
    ∃ before node after, g.nodes = before ++ node :: after ∧ node.id = n ∧
      node.element = some id ∧ ∀ later ∈ after, later.element ≠ some id := by
  rw [nodeForElement?, Option.map_eq_some_iff]
  constructor
  · rintro ⟨node, hfind, hid⟩
    obtain ⟨helement, after, before, hnodes, hafter⟩ := List.find?_eq_some_iff_append.1 hfind
    refine ⟨before.reverse, node, after.reverse, ?_, hid, by simpa using helement, fun later hl => ?_⟩
    · simpa using congrArg List.reverse hnodes
    · simpa using hafter later (List.mem_reverse.1 hl)
  · rintro ⟨before, node, after, hnodes, hid, helement, hafter⟩
    refine ⟨node, List.find?_eq_some_iff_append.2 ⟨by simpa using helement, after.reverse,
      before.reverse, by simp [hnodes], fun later hl => ?_⟩, hid⟩
    simpa using hafter later (List.mem_reverse.1 hl)

/-- A criterion is located at the node that it means. -/
theorem locate_eq_ok_iff : g.locate c = .ok n ↔ g.Means c n := by
  unfold locate Means
  cases c.location with
  | node id =>
    simp only [contains, List.contains_iff_mem]
    split
    · rename_i hmem
      rw [Except.ok.injEq]
      exact ⟨fun h => ⟨h, h ▸ hmem⟩, fun h => h.1⟩
    · rename_i hmem
      refine ⟨nofun, ?_⟩
      rintro ⟨rfl, hn⟩
      exact absurd hn hmem
  | element id =>
    simp only [← nodeForElement?_eq_some_iff]
    cases g.nodeForElement? id <;> simp
  | line line =>
    have hnodup := nodup_candidatesOnLine g line c.var
    simp only [← mem_candidatesOnLine_iff]
    revert hnodup
    match g.candidatesOnLine line c.var with
    | [] =>
      refine fun _ => ⟨nofun, fun h => ?_⟩
      exact absurd ((h n).2 rfl) List.not_mem_nil
    | [id] =>
      refine fun _ => ⟨?_, ?_⟩
      · rintro ⟨⟩ m
        exact List.mem_singleton
      · intro h
        rw [(h id).1 List.mem_cons_self]
    | a :: b :: rest =>
      refine fun hnodup => ⟨nofun, fun h => ?_⟩
      have ha := (h a).1 List.mem_cons_self
      have hb := (h b).1 (List.mem_cons_of_mem _ List.mem_cons_self)
      simp [ha, hb] at hnodup

/-- A criterion means a node of the graph. -/
theorem Means.mem_nodeIds (h : g.Means c n) : n ∈ g.nodeIds := by
  unfold Means at h
  split at h
  · exact h.2
  · obtain ⟨before, node, after, hnodes, rfl, -⟩ := h
    exact List.mem_map_of_mem (hnodes ▸ by simp)
  · obtain ⟨⟨node, hnode, hid, -⟩, -⟩ := (h n).2 rfl
    exact List.mem_map.2 ⟨node, hnode, hid⟩

/-- A criterion means one node at most. -/
theorem Means.unique {m : NodeId} (hn : g.Means c n) (hm : g.Means c m) : m = n := by
  rw [← locate_eq_ok_iff] at hn hm
  exact Except.ok.inj (hm.symm.trans hn)

end SystemGraph

/-! ## Following edges -/

namespace Traversal

variable {t : Traversal} {g : SystemGraph} {c : Criterion} {n u v : NodeId} {phase : Phase}

/-- A traversal admits the dependences that may be followed. -/
theorem admits_iff {d : Dependence} : t.admits g phase d = true ↔ t.Admissible g phase d := by
  obtain ⟨direction, strategy, includeControl, useSummaries⟩ := t
  constructor
  · intro h
    refine ⟨?_, ?_, ?_, ?_⟩ <;> cases d <;> cases direction <;> cases phase <;>
      simp_all [admits, Dependence.kind, Dependence.crossing?, Phase.allows, Dependence.Descends,
        Dependence.Ascends]
  · rintro ⟨hcontrol, hsummary, hascend, hdescend⟩
    cases d <;> cases direction <;> cases phase <;>
      simp_all [admits, Dependence.kind, Dependence.crossing?, Phase.allows, Dependence.Descends,
        Dependence.Ascends]

/-- Where a traversal starts if the variable of its criterion is there. -/
theorem origin_ok (hn : n ∈ g.nodeIds) (hc : g.Mentions c n) :
    ∃ origin, t.origin g c n = .ok origin ∧ origin.node = n ∧
      ∀ var, origin.var = some var ↔ g.Restricts c t.direction n var := by
  obtain ⟨node, hnode⟩ := SystemGraph.exists_node?_of_mem hn
  unfold origin
  cases hvar : c.var with
  | none =>
    refine ⟨⟨n, none⟩, by simp [hnode], rfl, fun var => ?_⟩
    simp [SystemGraph.Restricts, hvar]
  | some var =>
    obtain ⟨node', hnode', htouch⟩ := hc var hvar
    obtain rfl : node' = node := Option.some.inj (hnode'.symm.trans hnode)
    have htouch : (node'.reads var || node'.defines var) = true := by
      simpa [Node.reads, Node.defines] using htouch
    refine ⟨⟨n, if restricts node' var t.direction then some var else none⟩, ?_, rfl, ?_⟩
    · simp [hnode, htouch]
    · intro var'
      simp only [SystemGraph.Restricts, hvar, hnode, Option.some.injEq]
      cases t.direction <;> (simp [restricts, Node.reads, Node.defines]; grind)

/-- A traversal does not start where the variable of its criterion is not. -/
theorem origin_error (hc : ¬g.Mentions c n) : ∃ e, t.origin g c n = .error e := by
  unfold origin
  cases hnode : g.node? n with
  | none => exact ⟨_, rfl⟩
  | some node =>
    cases hvar : c.var with
    | none => exact absurd (fun var h => by simp [hvar] at h) hc
    | some var =>
      refine ⟨.unrelatedVariable var n, ?_⟩
      have hno : ¬(node.reads var || node.defines var) = true := fun h => hc fun var' hvar' => by
        obtain rfl : var = var' := Option.some.inj (hvar.symm.trans hvar')
        exact ⟨node, hnode, by simpa [Node.reads, Node.defines] using h⟩
      simp [hno]

/-- The steps that a traversal takes, by the variable of its criterion. -/
theorem mem_steps_iff {origin : Origin} (hnode : origin.node = n)
    (hvar : ∀ var, origin.var = some var ↔ g.Restricts c t.direction n var) :
    v ∈ (t.steps g origin phase).next u ∧ v ∈ (t.steps g origin phase).vertices ↔
      t.Step g c n phase u v := by
  -- the variable restricts the first step only, and only along data dependences
  have hfilter (d : Dependence) : origin.admits u d = true ↔
      (u = n → ∀ var, g.Restricts c t.direction n var → ∀ carried, d = .data carried →
        carried = var) := by
    simp only [Origin.admits, ← hvar, hnode]
    cases origin.var <;> cases d <;> simp [Dependence.carried?]
    grind
  have hedge (d : Dependence) : (v, d) ∈ t.neighbours g u ↔
      match t.direction with
      | .backward => ⟨v, u, d⟩ ∈ g.edges
      | .forward => ⟨u, v, d⟩ ∈ g.edges := by
    unfold neighbours
    cases t.direction <;>
      simp only [SystemGraph.dependencies, SystemGraph.dependents, List.mem_map, List.mem_filter,
        beq_iff_eq, Prod.mk.injEq]
    · exact ⟨fun ⟨e, ⟨he, hu⟩, hv, hd⟩ => by rwa [← hu, ← hv, ← hd], fun h => ⟨_, ⟨h, rfl⟩, rfl, rfl⟩⟩
    · exact ⟨fun ⟨e, ⟨he, hu⟩, hv, hd⟩ => by rwa [← hu, ← hv, ← hd], fun h => ⟨_, ⟨h, rfl⟩, rfl, rfl⟩⟩
  rw [and_comm]
  refine and_congr_right fun _ => ?_
  simp only [steps, List.mem_map, List.mem_filter, Bool.and_eq_true, admits_iff, hfilter]
  constructor
  · rintro ⟨⟨w, d⟩, ⟨hmem, hd, hf⟩, rfl⟩
    exact ⟨d, hd, (hedge d).1 hmem, hf⟩
  · rintro ⟨d, hd, hmem, hf⟩
    exact ⟨(v, d), ⟨(hedge d).2 hmem, hd, hf⟩, rfl⟩

/-- What is reached in a phase is reached by steps. -/
theorem reaches_iff {origin : Origin} (hnode : origin.node = n)
    (hvar : ∀ var, origin.var = some var ↔ g.Restricts c t.direction n var) :
    (t.steps g origin phase).Reaches u v ↔ Relation.ReflTransGen (t.Step g c n phase) u v := by
  constructor
  · intro h
    induction h with
    | refl => exact .refl
    | step _ hnext hvertex ih => exact ih.tail ((mem_steps_iff hnode hvar).1 ⟨hnext, hvertex⟩)
  · intro h
    induction h with
    | refl => exact .refl u
    | tail _ hstep ih =>
      obtain ⟨hnext, hvertex⟩ := (mem_steps_iff hnode hvar).2 hstep
      exact ih.step hnext hvertex

/-- What is reached by the steps of a phase is a closure. -/
theorem isClosure_reachAll {origin : Origin} (phase : Phase) (hnode : origin.node = n)
    (hvar : ∀ var, origin.var = some var ↔ g.Restricts c t.direction n var) (starts : List NodeId) :
    t.IsClosure g c n phase {m | m ∈ starts} {m | m ∈ (t.steps g origin phase).reachAll starts} := by
  have h := Digraph.isLeast_reachAll (t.steps g origin phase) starts
  simp only [← and_imp, mem_steps_iff hnode hvar] at h
  exact h

end Traversal

/-! ## Answers -/

/-- The slice of what a traversal finds is the one for its criterion. -/
theorem Slice.covers_ofNodes {t : Traversal} {g : SystemGraph} {c : Criterion} {n : NodeId}
    {origin : Traversal.Origin} (hnode : origin.node = n)
    (hvar : ∀ var, origin.var = some var ↔ g.Restricts c t.direction n var) :
    (Slice.ofNodes g c n t.direction (t.found g origin)).Covers g t c n where
  criterion := rfl
  node := rfl
  direction := rfl
  nodes := by
    simp only [ofNodes, mem_ascending, Traversal.found]
    cases t.strategy with
    | closure =>
      have h := Traversal.isClosure_reachAll .full hnode hvar [origin.node]
      simpa only [List.mem_singleton, hnode, Set.ofPred_eq_eq_singleton, Digraph.reach] using h
    | twoPhase =>
      refine ⟨{m | m ∈ (t.steps g origin .ascend).reach origin.node}, ?_, ?_⟩
      · have h := Traversal.isClosure_reachAll .ascend hnode hvar [origin.node]
        simpa only [List.mem_singleton, hnode, Set.ofPred_eq_eq_singleton, Digraph.reach] using h
      · exact Traversal.isClosure_reachAll .descend hnode hvar _
  edges := by
    simp [ofNodes]
  points := by
    intro p
    simp only [ofNodes, mem_ascending, List.mem_filterMap, List.mem_filter, List.contains_iff_mem,
      and_assoc]

namespace Slice.Covers

variable {slice : Slice} {t : Traversal} {g : SystemGraph} {c : Criterion} {n u v : NodeId}

/-- A slice stays within a set that no phase leaves. -/
theorem mem_of_closed (h : slice.Covers g t c n) {S : Set NodeId} (hn : n ∈ S)
    (hclosed : ∀ phase, ∀ u ∈ S, ∀ v, t.Step g c n phase u v → v ∈ S) {m : NodeId}
    (hm : m ∈ slice.nodes) : m ∈ S := by
  have hnodes := h.nodes
  split at hnodes
  · exact hnodes.2 ⟨Set.singleton_subset_iff.2 hn, hclosed _⟩ hm
  · obtain ⟨ascended, hascended, hdescended⟩ := hnodes
    exact hdescended.2 ⟨hascended.2 ⟨Set.singleton_subset_iff.2 hn, hclosed _⟩, hclosed _⟩ hm

/-- A slice holds the node of its criterion. -/
theorem start_mem (h : slice.Covers g t c n) : n ∈ slice.nodes := by
  have hnodes := h.nodes
  split at hnodes
  · exact hnodes.1.1 rfl
  · obtain ⟨ascended, hascended, hdescended⟩ := hnodes
    exact hdescended.1.1 (hascended.1.1 rfl)

/-- A slice is closed under steps that every phase may take. -/
theorem step_mem (h : slice.Covers g t c n) (hstep : ∀ phase, t.Step g c n phase u v)
    (hu : u ∈ slice.nodes) : v ∈ slice.nodes := by
  have hnodes := h.nodes
  split at hnodes
  · exact hnodes.1.2 u hu v (hstep _)
  · obtain ⟨ascended, -, hdescended⟩ := hnodes
    exact hdescended.1.2 u hu v (hstep _)

end Slice.Covers

namespace Query

variable {g : SystemGraph} {c : Criterion} (config : SliceConfig) (direction : Direction)
  (includeControl : Bool)

/-- The slice for a criterion that means a node is what the traversal finds from there. -/
theorem answerSlice_of_locate {n : NodeId} (h : g.locate c = .ok n) :
    answerSlice g config c direction includeControl =
      ((config.traversal direction includeControl).origin g c n).map fun origin =>
        .ofNodes g c n direction ((config.traversal direction includeControl).found g origin) := by
  have hbind : answerSlice g config c direction includeControl =
      (((config.traversal direction includeControl).reach g c n).bind fun found =>
        .ok (.ofNodes g c n direction found)) := by
    rw [answerSlice, h]
    rfl
  rw [hbind, Traversal.reach]
  cases (config.traversal direction includeControl).origin g c n <;> rfl

/-- A criterion that means a node has a slice. -/
theorem answer_ok {n : NodeId} (hn : g.Means c n) (hc : g.Mentions c n) :
    ∃ slice, (Query.slice c direction includeControl).answer g config = .ok slice ∧
      slice.Covers g (config.traversal direction includeControl) c n := by
  obtain ⟨origin, horigin, hnode, hvar⟩ := Traversal.origin_ok
    (t := config.traversal direction includeControl) hn.mem_nodeIds hc
  refine ⟨_, ?_, Slice.covers_ofNodes hnode hvar⟩
  rw [answer, answerSlice_of_locate _ _ _ (SystemGraph.locate_eq_ok_iff.2 hn), horigin]
  rfl

/-- A criterion that means no node has none. -/
theorem answer_error (hc : ¬∃ n, g.Means c n ∧ g.Mentions c n) :
    ∃ e, (Query.slice c direction includeControl).answer g config = .error e := by
  cases hlocate : g.locate c with
  | error e => exact ⟨e, by rw [answer, answerSlice, hlocate]; rfl⟩
  | ok n =>
    have hn : ¬g.Mentions c n := fun h => hc ⟨n, SystemGraph.locate_eq_ok_iff.1 hlocate, h⟩
    obtain ⟨e, he⟩ := Traversal.origin_error (t := config.traversal direction includeControl) hn
    exact ⟨e, by rw [answer, answerSlice_of_locate _ _ _ hlocate, he]; rfl⟩

/-- A slice that is found is the one of the node that its criterion means. -/
theorem exists_covers {slice : Slice}
    (hslice : (Query.slice c direction includeControl).answer g config = .ok slice) :
    ∃ n, g.Means c n ∧ g.Mentions c n ∧
      slice.Covers g (config.traversal direction includeControl) c n := by
  by_cases hmeans : ∃ n, g.Means c n ∧ g.Mentions c n
  · obtain ⟨n, hn, hc⟩ := hmeans
    obtain ⟨slice', hslice', hcovers⟩ := answer_ok config direction includeControl hn hc
    cases hslice.symm.trans hslice'
    exact ⟨n, hn, hc, hcovers⟩
  · obtain ⟨e, he⟩ := answer_error config direction includeControl hmeans
    cases hslice.symm.trans he

end Query

/-! ## Slicers -/

namespace Slicer

variable {g : SystemGraph} {config : SliceConfig} {s : Slicer}

/-- A slicer was made for a graph, with a configuration that is valid, and may have been used. -/
inductive Serves (g : SystemGraph) (config : SliceConfig) : Slicer → Prop
  | new {s : Slicer} : Slicer.new g config = .ok s → Serves g config s
  | ask {s : Slicer} (query : Query) : Serves g config s → Serves g config (s.ask query).2
  | clear {s : Slicer} : Serves g config s → Serves g config s.clear
  | renewed {s : Slicer} : Serves g config s → Serves g config s.renewed

/-- What a slicer remembers are the answers that it would give. -/
structure Faithful (g : SystemGraph) (config : SliceConfig) (s : Slicer) : Prop where
  graph_eq : s.graph = g
  config_eq : s.config = config
  cached : ∀ entry ∈ s.cache, entry.1.answer g config = .ok entry.2

/-- What is remembered has been answered. -/
theorem Faithful.mem_remember {query : Query} {slice : Slice} (h : s.Faithful g config)
    (hslice : query.answer g config = .ok slice) :
    ∀ entry ∈ s.remember query slice, entry.1.answer g config = .ok entry.2 := by
  intro entry hentry
  rcases List.mem_cons.1 (List.mem_of_mem_take hentry) with rfl | hentry
  · exact hslice
  · exact h.cached entry (List.mem_filter.1 hentry).1

/-- A slicer answers a query as if it was the first one, and stays faithful. -/
theorem Faithful.ask (h : s.Faithful g config) (query : Query) :
    (s.ask query).1 = (query.answer g config).mapError .criterion ∧
      (s.ask query).2.Faithful g config := by
  have hs : Faithful g config { s with queries := s.queries + 1 } := ⟨h.graph_eq, h.config_eq, h.cached⟩
  unfold Slicer.ask
  dsimp only
  split
  · rename_i slice hlookup
    obtain ⟨before, after, hcache, -⟩ := List.lookup_eq_some_iff.1 hlookup
    have hslice : query.answer g config = .ok slice :=
      h.cached (query, slice) (by rw [show s.cache = _ from hcache]; simp)
    exact ⟨by rw [hslice]; rfl, h.graph_eq, h.config_eq, hs.mem_remember hslice⟩
  · rw [show query.answer _ _ = query.answer g config by rw [← h.graph_eq, ← h.config_eq]]
    cases hslice : query.answer g config with
    | ok slice => exact ⟨rfl, h.graph_eq, h.config_eq, hs.mem_remember hslice⟩
    | error e => exact ⟨rfl, hs⟩

/-- A slicer that remembers nothing is faithful. -/
theorem Faithful.of_empty (hgraph : s.graph = g) (hconfig : s.config = config) (hcache : s.cache = []) :
    s.Faithful g config := by
  refine ⟨hgraph, hconfig, fun entry hentry => ?_⟩
  rw [hcache] at hentry
  cases hentry

/-- A slicer that serves a graph remembers nothing but answers. -/
theorem Serves.faithful (h : Serves g config s) : s.Faithful g config := by
  induction h with
  | new hnew =>
    unfold Slicer.new at hnew
    cases hvalid : config.validate with
    | error e =>
      rw [hvalid] at hnew
      cases hnew
    | ok u =>
      rw [hvalid] at hnew
      cases hnew
      exact .of_empty rfl rfl rfl
  | ask query _ ih => exact (ih.ask query).2
  | clear _ ih => exact .of_empty ih.graph_eq ih.config_eq rfl
  | renewed _ ih => exact .of_empty ih.graph_eq ih.config_eq rfl

/-- What was asked before does not change an answer. -/
theorem Serves.ask_eq (h : Serves g config s) (query : Query) :
    (s.ask query).1 = (query.answer g config).mapError .criterion :=
  (h.faithful.ask query).1

/-- A slicer finds a slice, backward, forward or thin, unless its criterion means no node or has
    a variable that is neither read nor written there, and the slice is the closure of the
    node that the criterion means. -/
theorem Serves.ask_slice (h : Serves g config s) (c : Criterion) (direction : Direction)
    (includeControl : Bool) :
    ((∃ e, (s.ask (.slice c direction includeControl)).1 = .error (.criterion e)) ↔
        ¬∃ n, g.Means c n ∧ g.Mentions c n) ∧
      ∀ n, g.Means c n → g.Mentions c n →
        ∃ slice, (s.ask (.slice c direction includeControl)).1 = .ok slice ∧
          slice.Covers g (config.traversal direction includeControl) c n := by
  rw [h.ask_eq]
  refine ⟨⟨?_, fun hc => ?_⟩, fun n hn hc => ?_⟩
  · rintro ⟨e, he⟩ ⟨n, hn, hc⟩
    obtain ⟨slice, hslice, -⟩ := Query.answer_ok config direction includeControl hn hc
    rw [hslice] at he
    cases he
  · obtain ⟨e, he⟩ := Query.answer_error config direction includeControl hc
    exact ⟨e, by rw [he]; rfl⟩
  · obtain ⟨slice, hslice, hcovers⟩ := Query.answer_ok config direction includeControl hn hc
    exact ⟨slice, by rw [hslice]; rfl, hcovers⟩

/-- A slicer for a graph in which `y = x + z` depends on `x = 1` and on `z = 2`. -/
def twoSources : Slicer where
  graph :=
    { nodes := [{ id := ⟨0⟩, callable := ⟨0⟩, kind := .statement, text := "x = 1", defs := ["x"] },
        { id := ⟨1⟩, callable := ⟨0⟩, kind := .statement, text := "z = 2", defs := ["z"] },
        { id := ⟨2⟩, callable := ⟨0⟩, kind := .statement, text := "y = x + z", element := some ⟨7⟩,
          defs := ["y"], uses := ["x", "z"] }]
      edges := [⟨⟨0⟩, ⟨2⟩, .data "x"⟩, ⟨⟨1⟩, ⟨2⟩, .data "z"⟩]
      procedures := []
      invocations := [] }
  config := .ofPreset .balanced

/-- Asked a second time, the slicer still finds what `x` at the last node depends on. -/
theorem twoSources_ask_slice :
    ∃ slice, ((twoSources.ask (.thin ⟨.element ⟨7⟩, some "x"⟩)).2.ask
        (.thin ⟨.element ⟨7⟩, some "x"⟩)).1 = .ok slice ∧
      slice.Covers twoSources.graph (twoSources.config.traversal .backward false)
        ⟨.element ⟨7⟩, some "x"⟩ ⟨2⟩ := by
  have hserves : Serves twoSources.graph twoSources.config twoSources := .new rfl
  have hmeans : twoSources.graph.Means ⟨.element ⟨7⟩, some "x"⟩ ⟨2⟩ :=
    ⟨twoSources.graph.nodes.take 2, twoSources.graph.nodes[2], [], rfl, rfl, rfl, nofun⟩
  have hmentions : twoSources.graph.Mentions ⟨.element ⟨7⟩, some "x"⟩ ⟨2⟩ := by
    rintro _ ⟨⟩
    exact ⟨_, rfl, .inl (by decide)⟩
  exact ((hserves.ask _).ask_slice ⟨.element ⟨7⟩, some "x"⟩ .backward false).2 _ hmeans hmentions

end Slicer

end Slicing
