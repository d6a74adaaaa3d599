import Slicing.Proofs.Analysis.Outcomes
import Slicing.Proofs.Flow.Statements
import Slicing.Proofs.Slice.Variables

/-!
# Slices for source lines

A criterion may name a line instead of an element. If just one statement of the program starts on
the line, and it has a node, then both mean this node, and the slices are the same
(`Analysis.slice_line`). The exception is a `switch` with cases. The labels of its cases are where
the `switch` is, so that its line has several nodes and means none of them unless a variable tells
them apart, which picks the selector since labels read and write nothing.

The line of a node is that of the statement that it comes from (`Analysis.line_of_node`), and no
other statement has nodes there.
-/

namespace Slicing

/-! ## Lines with one node, or with one that reads or writes anything -/

namespace SystemGraph

variable {g : SystemGraph} {line : UInt32} {var : Option String} {n m : NodeId}

/-- All nodes on a line but one read and write nothing, and there are none if no variable is there
    to tell them apart. -/
structure Singles (g : SystemGraph) (line : UInt32) (var : Option String) (n : NodeId) : Prop where
  onLine : g.OnLine line n
  quiet : ∀ m, g.OnLine line m → m ≠ n → ∀ v, ¬g.Touches v m
  alone : var = none → ∀ m, g.OnLine line m → m = n

/-- The line means the single node if it means any. -/
theorem Singles.eq_of_means (h : g.Singles line var n) (hm : g.Means ⟨.line line, var⟩ m) : m = n := by
  obtain ⟨honLine, htouches⟩ := (hm m).2 rfl
  by_contra hne
  cases var with
  | none => exact hne (h.alone rfl m honLine)
  | some v => exact h.quiet m honLine hne v (htouches v rfl ⟨n, h.onLine, Ne.symm hne⟩)

/-- The line means the single node if the variable is read or written there. -/
theorem Singles.means (h : g.Singles line var n) (hn : g.Mentions ⟨.line line, var⟩ n) :
    g.Means ⟨.line line, var⟩ n := by
  intro m
  refine ⟨fun ⟨honLine, htouches⟩ => ?_, ?_⟩
  · by_contra hne
    cases var with
    | none => exact hne (h.alone rfl m honLine)
    | some v => exact h.quiet m honLine hne v (htouches v rfl ⟨n, h.onLine, Ne.symm hne⟩)
  · rintro rfl
    exact ⟨h.onLine, fun v hv _ => hn v hv⟩

/-- Without a variable, a line with two nodes is ambiguous. -/
theorem locate_line_of_ne (hn : g.OnLine line n) (hm : g.OnLine line m) (hne : m ≠ n) :
    1 < (g.nodesOnLine line).length ∧
      g.locate ⟨.line line, none⟩ = .error (.ambiguousLine line (g.nodesOnLine line).length) := by
  rw [← mem_nodesOnLine_iff] at hn hm
  simp only [locate, candidatesOnLine]
  generalize g.nodesOnLine line = nodes at hn hm ⊢
  cases nodes with
  | nil => cases hn
  | cons a rest =>
    cases rest with
    | nil => exact absurd ((List.mem_singleton.1 hm).trans (List.mem_singleton.1 hn).symm) hne
    | cons b rest => exact ⟨by simp, rfl⟩

end SystemGraph

/-! ## Slices for two criteria with one meaning -/

namespace Query

variable {g : SystemGraph} {config : SliceConfig} {location location' : Location} {var : Option String}
  {n : NodeId} {direction : Direction} {includeControl : Bool}

/-- Two criteria that mean the same node have the same slice. -/
theorem answer_slice_of_means (hn : g.Means ⟨location, var⟩ n) (hn' : g.Means ⟨location', var⟩ n) :
    (Query.slice ⟨location, var⟩ direction includeControl).answer g config =
      ((Query.slice ⟨location', var⟩ direction includeControl).answer g config).map fun slice =>
        { slice with criterion := ⟨location, var⟩ } := by
  rw [← SystemGraph.locate_eq_ok_iff] at hn hn'
  rw [answer, answer, answerSlice_of_locate _ _ _ hn, answerSlice_of_locate _ _ _ hn']
  change Except.map _ ((config.traversal direction includeControl).origin g ⟨location', var⟩ n) = _
  cases (config.traversal direction includeControl).origin g ⟨location', var⟩ n <;> rfl

end Query

namespace Slicer

variable {g : SystemGraph} {config : SliceConfig} {s : Slicer}

/-- Where a line has a single node, a slice for the line is the one for an element of this node, or
    both fail. -/
theorem Serves.ask_line (hs : Serves g config s) {line : UInt32} {var : Option String} {n : NodeId}
    {id : ElementId} (hline : g.Singles line var n) (hid : g.Means ⟨.element id, var⟩ n)
    (direction : Direction) (includeControl : Bool) :
    (∃ slice, slice.node = n ∧
      (s.ask (.slice ⟨.element id, var⟩ direction includeControl)).1 = .ok slice ∧
      (s.ask (.slice ⟨.line line, var⟩ direction includeControl)).1 =
        .ok { slice with criterion := ⟨.line line, var⟩ }) ∨
    ∃ e e', (s.ask (.slice ⟨.element id, var⟩ direction includeControl)).1 = .error e ∧
      (s.ask (.slice ⟨.line line, var⟩ direction includeControl)).1 = .error e' := by
  by_cases hn : g.Mentions ⟨.element id, var⟩ n
  · obtain ⟨slice, hslice, hcovers⟩ := Query.answer_ok config direction includeControl hid hn
    refine .inl ⟨slice, hcovers.node, ?_, ?_⟩
    · rw [hs.ask_eq, hslice]
      rfl
    · rw [hs.ask_eq, Query.answer_slice_of_means (hline.means hn) hid, hslice]
      rfl
  · have hfail {location : Location} (hmeans : ∀ m, g.Means ⟨location, var⟩ m → m = n) :
        ∃ e, (s.ask (.slice ⟨location, var⟩ direction includeControl)).1 = .error e := by
      obtain ⟨e, he⟩ := ((hs.ask_slice ⟨location, var⟩ direction includeControl).1.2 fun
        ⟨m, hm, hmentions⟩ => hn (hmeans m hm ▸ hmentions))
      exact ⟨_, he⟩
    obtain ⟨e, he⟩ := hfail fun m hm => hid.unique hm
    obtain ⟨e', he'⟩ := hfail fun m hm => hline.eq_of_means hm
    exact .inr ⟨e, e', he, he'⟩

end Slicer

/-! ## Analysed programs -/

namespace Analysis

variable {config : Config} {program : Program} {a : Analysis} {node : Node} {stmt : Stmt} {line : UInt32}
  {n : NodeId}

/-- The nodes of the system are those of the callables that were analysed. -/
theorem nodes_eq (ha : run config program = .ok a) : a.system.nodes =
    (successes (Hierarchy.analyseCallables ⟨program.types, program.callables⟩ program.callables)).flatMap
      (·.graph.nodes) := by
  have hsep := separate ⟨program.types, program.callables⟩ program.callables
  obtain ⟨g₁, hb⟩ := SystemGraph.build_eq_ok hsep (run_eq_ok ha)
  rw [hb.assembles.nodes, procedureGraphs, List.flatMap_map]
  rfl

/-- No two nodes stand for one element. -/
theorem nodup_elements (ha : run config program = .ok a) (hcallables : (program.callables.map (·.id)).Nodup)
    (hids : program.elementIds.Nodup) : (a.system.nodes.filterMap (·.element)).Nodup := by
  rw [nodes_eq ha, List.filterMap_flatMap]
  refine ((successes_perm hcallables).flatMap_right _).nodup_iff.2 ?_
  have hsegments : (program.callables.flatMap fun decl => decl.segments.flatMap (·.elements)).Perm
      (program.statements.flatMap fun stmt => stmt.ownSegments.flatMap (·.elements)) := by
    rw [Program.statements, List.flatMap_assoc]
    exact List.Perm.flatMap_left _ fun decl _ => decl.elements_perm
  have hstmts := List.Sublist.flatMap_right program.statements fun stmt _ => stmt.elements_sublist
  refine (hsegments.nodup_iff.2 (hids.sublist hstmts)).sublist ?_
  refine flatMap_ok_sublist fun decl n g la hg hof => ?_
  obtain ⟨rfl, -⟩ := LocalAnalysis.ofGraph_eq_ok hof
  exact FlowGraph.build_elements hg

/-- An element has one node. -/
theorem node_unique (ha : run config program = .ok a) (hcallables : (program.callables.map (·.id)).Nodup)
    (hids : program.elementIds.Nodup) {other : Node} (hnode : node ∈ a.system.nodes)
    (hother : other ∈ a.system.nodes) {id : ElementId} (helement : node.element = some id)
    (helement' : other.element = some id) : node = other := by
  have hnodup := nodup_elements ha hcallables hids
  rw [List.filterMap_eq_flatMap_toList] at hnodup
  exact eq_of_nodup_flatMap hnodup hnode hother (b := id) (by simp [helement]) (by simp [helement'])

/-- A node for a source element comes from a statement of the program, and beside it stand the other
    nodes of the same segment. -/
theorem exists_segment (ha : run config program = .ok a) (hnode : node ∈ a.system.nodes)
    (helement : node.element.isSome) : ∃ stmt ∈ program.statements, ∃ c ∈ stmt.ownSegments,
      node.draft ∈ c.marked ∧ ∀ d ∈ c.marked, ∃ other ∈ a.system.nodes, other.draft = d := by
  rw [nodes_eq ha] at hnode ⊢
  obtain ⟨la, hla, hnode⟩ := List.mem_flatMap.1 hnode
  obtain ⟨decl, g, hg, hof⟩ := exists_build hla
  obtain ⟨rfl, -⟩ := LocalAnalysis.ofGraph_eq_ok hof
  obtain ⟨hdecl, k, -, hg⟩ := FlowGraph.mem_buildAll hg
  obtain ⟨stmt, hstmt, c, hc, hmarked, hbeside⟩ := FlowGraph.exists_segment hg.symm hnode helement
  refine ⟨stmt, List.mem_flatMap.2 ⟨decl, hdecl, hstmt⟩, c, hc, hmarked, fun d hd => ?_⟩
  obtain ⟨other, hother, hdraft⟩ := hbeside d hd
  exact ⟨other, List.mem_flatMap.2 ⟨la, hla, hother⟩, hdraft⟩

/-- A node on the line of a single statement is that of the statement, or the label of a case. -/
theorem onLine_statement (ha : run config program = .ok a) (hstmt : program.statementsOnLine line = [stmt])
    (hnode : node ∈ a.system.nodes) (helement : node.element.isSome) (hline : node.line? = some line) :
    node.element = some stmt.source.id ∨ stmt.hasCases = true ∧ node.defs = [] ∧ node.uses = [] := by
  obtain ⟨other, hother, c, hc, hmarked, -⟩ := exists_segment ha hnode helement
  have hsame (hspan : node.span = other.source.span) : other = stmt := by
    have hmem : other ∈ program.statementsOnLine line := by
      refine List.mem_filter.2 ⟨hother, beq_iff_eq.2 ?_⟩
      rw [Element.line?, ← hspan]
      exact hline
    rw [hstmt] at hmem
    exact List.mem_singleton.1 hmem
  cases other.gives_of_mem_marked hc hmarked with
  | own element span =>
    obtain rfl := hsame span
    exact .inl element
  | label id mem element span hcases defs uses =>
    obtain rfl := hsame span
    exact .inr ⟨hcases, defs, uses⟩
  | clause id mem element span =>
    rw [Node.line?, show node.span = none from span] at hline
    cases hline

/-- The node of the element of a statement is where the statement is. If the statement is a `switch`
    with cases, there is another node, the label of a case. -/
theorem line_of_node (ha : run config program = .ok a) (hids : program.elementIds.Nodup)
    (hstmt : stmt ∈ program.statements) (hnode : node ∈ a.system.nodes)
    (helement : node.element = some stmt.source.id) : node.line? = stmt.source.line? ∧
      (stmt.hasCases = true → ∃ other ∈ a.system.nodes, other.element.isSome ∧
        other.element ≠ node.element ∧ other.line? = stmt.source.line?) := by
  obtain ⟨other, hother, c, hc, hmarked, hbeside⟩ := exists_segment ha hnode (by rw [helement]; rfl)
  have hnodup : stmt.elementIds.Nodup := (List.nodup_flatMap.1 hids).1 stmt hstmt
  have hsame {id : ElementId} (hid : id ∈ other.elementIds) (heq : node.element = some id) :
      other = stmt := by
    refine eq_of_nodup_flatMap hids hother hstmt hid ?_
    rw [← Option.some.inj (helement.symm.trans heq)]
    exact List.mem_cons_self
  -- the element of a statement is not that of a case or a catch clause
  have hpart {id : ElementId} (mem : id ∈ other.partIds) (element : node.element = some id) : False := by
    obtain rfl := hsame (List.mem_cons_of_mem _ mem) element
    rw [Option.some.inj (element.symm.trans helement)] at mem
    exact (List.nodup_cons.1 hnodup).1 mem
  cases other.gives_of_mem_marked hc hmarked with
  | own element span =>
    obtain rfl := hsame List.mem_cons_self element
    refine ⟨congrArg (Option.map Span.startLine) span, fun hcases => ?_⟩
    obtain ⟨d, hd, id, hid, hdelement, hdspan⟩ := other.exists_label hcases hnodup hc hmarked element
    obtain ⟨label, hlabel, rfl⟩ := hbeside d hd
    have hlabel' : label.element = some id := hdelement
    refine ⟨label, hlabel, by rw [hlabel']; rfl, ?_, congrArg (Option.map Span.startLine) hdspan⟩
    rw [hlabel', helement]
    rintro ⟨⟩
    exact (List.nodup_cons.1 hnodup).1 hid
  | label id mem element => exact (hpart mem element).elim
  | clause id mem element => exact (hpart mem element).elim

/-- On the line of a single statement only the node of its element reads or writes anything. The other
    nodes are labels of cases. -/
theorem quiet_of_ne (ha : run config program = .ok a) (hcallables : (program.callables.map (·.id)).Nodup)
    (hids : program.elementIds.Nodup) (hstmt : program.statementsOnLine line = [stmt])
    (hnode : node ∈ a.system.nodes) (helement : node.element = some stmt.source.id) {m : NodeId}
    (hm : a.system.OnLine line m) (hne : m ≠ node.id) :
    stmt.hasCases = true ∧ ∀ v, ¬a.system.Touches v m := by
  obtain ⟨other, hother, rfl, hsome, hline⟩ := hm
  rcases onLine_statement ha hstmt hother hsome hline with heq | ⟨hcases, hdefs, huses⟩
  · exact absurd (congrArg (·.id) (node_unique ha hcallables hids hother hnode heq helement)) hne
  · refine ⟨hcases, fun v ⟨found, hfound, htouches⟩ => ?_⟩
    obtain rfl := Option.some.inj (hfound.symm.trans ((node?_eq_some_iff ha).2 ⟨hother, rfl⟩))
    simp [hdefs, huses] at htouches

/-- If a statement with a node is the only one that starts on a line, then a slice for the line is
    the one for its element, or both fail. Only without a variable, and for a `switch` with cases,
    the line is ambiguous, as the labels of the cases are on it as well. (`try` statements and blocks
    have no node.) -/
theorem slice_line (ha : run config program = .ok a) (hcallables : (program.callables.map (·.id)).Nodup)
    (hids : program.elementIds.Nodup) (hstmt : program.statementsOnLine line = [stmt])
    (hn : a.system.nodeForElement? stmt.source.id = some n) (sc : SliceConfig) {s : Slicer}
    (hs : Slicer.Serves a.system sc s) (var : Option String) (direction : Direction) (includeControl : Bool) :
    (stmt.hasCases = false ∨ var ≠ none →
      (∃ slice, slice.node = n ∧
        (s.ask (.slice ⟨.element stmt.source.id, var⟩ direction includeControl)).1 = .ok slice ∧
        (s.ask (.slice ⟨.line line, var⟩ direction includeControl)).1 =
          .ok { slice with criterion := ⟨.line line, var⟩ }) ∨
      ∃ e e', (s.ask (.slice ⟨.element stmt.source.id, var⟩ direction includeControl)).1 = .error e ∧
        (s.ask (.slice ⟨.line line, var⟩ direction includeControl)).1 = .error e') ∧
    (stmt.hasCases = true → var = none →
      1 < (a.system.nodesOnLine line).length ∧
        (s.ask (.slice ⟨.line line, var⟩ direction includeControl)).1 =
          .error (.criterion (.ambiguousLine line (a.system.nodesOnLine line).length)) ∧
        ∃ slice, slice.node = n ∧
          (s.ask (.slice ⟨.element stmt.source.id, var⟩ direction includeControl)).1 = .ok slice) := by
  obtain ⟨hmem, hline⟩ : stmt ∈ program.statements ∧ stmt.source.line? = some line := by
    have hmem : stmt ∈ program.statementsOnLine line := hstmt ▸ List.mem_singleton_self stmt
    simpa [Program.statementsOnLine] using hmem
  have hmeans : a.system.Means ⟨.element stmt.source.id, var⟩ n := SystemGraph.nodeForElement?_eq_some_iff.1 hn
  obtain ⟨node, hnode, rfl, helement⟩ : ∃ node ∈ a.system.nodes, node.id = n ∧
      node.element = some stmt.source.id := by
    obtain ⟨before, node, after, hnodes, hid, helement, -⟩ := hmeans
    exact ⟨node, hnodes ▸ by simp, hid, helement⟩
  obtain ⟨hnodeLine, hlabel⟩ := line_of_node ha hids hmem hnode helement
  rw [hline] at hnodeLine hlabel
  have honLine : a.system.OnLine line node.id := ⟨node, hnode, rfl, by rw [helement]; rfl, hnodeLine⟩
  have hquiet {m : NodeId} := quiet_of_ne (m := m) ha hcallables hids hstmt hnode helement
  constructor
  · intro hvar
    refine hs.ask_line ⟨honLine, fun m hm hne => (hquiet hm hne).2, ?_⟩ hmeans direction includeControl
    rintro hnone m hm
    by_contra hne
    have hcases := (hquiet hm hne).1
    exact hvar.elim (fun hno => by simp [hno] at hcases) fun hsome => hsome hnone
  · rintro hcases rfl
    obtain ⟨label, hmemLabel, hsome, hne, hlabelLine⟩ := hlabel hcases
    have hlabelId : label.id ≠ node.id := fun heq => hne <| by
      have hfound := (node?_eq_some_iff ha).2 ⟨hmemLabel, heq⟩
      rw [Option.some.inj (hfound.symm.trans ((node?_eq_some_iff ha).2 ⟨hnode, rfl⟩))]
    obtain ⟨hlength, hlocate⟩ :=
      SystemGraph.locate_line_of_ne honLine ⟨label, hmemLabel, rfl, hsome, hlabelLine⟩ hlabelId
    obtain ⟨slice, hslice, hcovers⟩ :=
      (hs.ask_slice _ direction includeControl).2 _ hmeans SystemGraph.mentions_none
    refine ⟨hlength, ?_, slice, hcovers.node, hslice⟩
    rw [hs.ask_eq, Query.answer, Query.answerSlice, hlocate]
    rfl

/-- A `switch` with one case. -/
def choice : Stmt :=
  .select ⟨⟨1⟩, "switch (x)", some ⟨2, 1, 4, 2⟩⟩ ⟨[], ["x"], [], []⟩
    [⟨⟨2⟩, some "0", [.simple ⟨⟨3⟩, "y = x", some ⟨3, 3, 3, 16⟩⟩ ⟨["y"], ["x"], [], []⟩]⟩]

/-- The `switch` behind a statement, each on a line of its own. -/
def choosing : Program where
  types := [⟨⟨0⟩, "T", []⟩]
  callables :=
    [{ id := ⟨0⟩, name := "f", kind := .method, owner := ⟨0⟩, signature := ⟨"f", []⟩, isStatic := true
       params := [], returnsValue := false
       body := some [.simple ⟨⟨0⟩, "x = 1", some ⟨1, 1, 1, 6⟩⟩ ⟨["x"], [], [], []⟩, choice]
       span := none }]

/-- For the line of the `switch` there is no slice, as the label is there as well. -/
theorem choosing_ambiguous : (choosing.callables.map (·.id)).Nodup ∧ choosing.elementIds.Nodup ∧
    choosing.statementsOnLine 2 = [choice] ∧ ∃ (a : Analysis) (slice : Slice) (s : Slicer),
      run (.ofPreset .thorough) choosing = .ok a ∧ Slicer.Serves a.system (.ofPreset .thorough) s ∧
      a.system.nodeForElement? ⟨1⟩ = some slice.node ∧
      (s.ask (.slice ⟨.element ⟨1⟩, none⟩ .backward true)).1 = .ok slice ∧
      (s.ask (.slice ⟨.line 2, none⟩ .backward true)).1 = .error (.criterion (.ambiguousLine 2 2)) := by
  refine ⟨by decide, by decide, rfl, ?_⟩
  obtain ⟨a, ha, hslice, hline⟩ : ∃ a, run (.ofPreset .thorough) choosing = .ok a ∧
      (({ graph := a.system, config := .ofPreset .thorough } : Slicer).ask
        (.slice ⟨.element ⟨1⟩, none⟩ .backward true)).1.toOption.any
          (fun slice => decide (a.system.nodeForElement? ⟨1⟩ = some slice.node)) = true ∧
      (({ graph := a.system, config := .ofPreset .thorough } : Slicer).ask
        (.slice ⟨.line 2, none⟩ .backward true)).1 = .error (.criterion (.ambiguousLine 2 2)) :=
    SystemGraph.exists_ok_of_any (by cbv)
  obtain ⟨slice, hslice, hnode⟩ := SystemGraph.exists_ok_of_any hslice
  exact ⟨a, slice, _, ha, .new rfl, hnode, hslice, hline⟩

/-- With a variable, the slice for the line is that for the `switch`, and without one only the
    `switch` has a slice. -/
theorem choosing_slice : ∃ (a : Analysis) (slice plain : Slice) (s : Slicer),
    run (.ofPreset .thorough) choosing = .ok a ∧ Slicer.Serves a.system (.ofPreset .thorough) s ∧
      (s.ask (.slice ⟨.element ⟨1⟩, some "x"⟩ .backward true)).1 = .ok slice ∧
      (s.ask (.slice ⟨.line 2, some "x"⟩ .backward true)).1 =
        .ok { slice with criterion := ⟨.line 2, some "x"⟩ } ∧
      (s.ask (.slice ⟨.element ⟨1⟩, none⟩ .backward true)).1 = .ok plain ∧
      (s.ask (.slice ⟨.line 2, none⟩ .backward true)).1 =
        .error (.criterion (.ambiguousLine 2 (a.system.nodesOnLine 2).length)) := by
  have hids : choosing.elementIds.Nodup := by decide
  have hstmt : choosing.statementsOnLine 2 = [choice] := rfl
  obtain ⟨a, ha, hn, hfound⟩ : ∃ a, run (.ofPreset .thorough) choosing = .ok a ∧
      a.system.nodeForElement? choice.source.id = some ⟨3⟩ ∧
        (({ graph := a.system, config := .ofPreset .thorough } : Slicer).ask
          (.slice ⟨.element choice.source.id, some "x"⟩ .backward true)).1.toOption.isSome = true :=
    SystemGraph.exists_ok_of_any (by cbv)
  have hserves : Slicer.Serves a.system (.ofPreset .thorough)
      { graph := a.system, config := .ofPreset .thorough } := .new rfl
  have hline (var : Option String) :=
    slice_line ha (by decide) hids hstmt hn _ hserves var .backward true
  obtain ⟨-, hambiguous, plain, -, hplain⟩ := (hline none).2 rfl rfl
  rcases (hline (some "x")).1 (.inr (Option.some_ne_none _)) with ⟨slice, -, hslice, hsliceLine⟩ | ⟨e, e', he, -⟩
  · exact ⟨a, slice, plain, _, ha, hserves, hslice, hsliceLine, hplain, hambiguous⟩
  · rw [he] at hfound
    cases hfound

end Analysis

end Slicing
