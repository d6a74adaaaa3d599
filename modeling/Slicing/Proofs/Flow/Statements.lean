import Mathlib.Data.List.Flatten
import Slicing.Proofs.Flow.CallResults
import Slicing.Proofs.Flow.Places

/-!
# The statements of a callable

A callable has the statements of its body, and those in them at any depth (`blockStatements`). The
segments of the callable are those of its statements (`blockSegments_perm`), where a `switch` has
those of its case labels as well as its own, and a `try` has those of its catch clauses only
(`Stmt.ownSegments`).

So a node for a source element is the own node of a statement, that of a case label, which says that
it is where the `switch` is, or that of a catch clause, which does not say where it is
(`Stmt.Gives`, `FlowGraph.exists_segment`). If no element is there twice, no element has two nodes
(`FlowGraph.build_elements`).
-/

namespace Slicing

/-! ## Statements -/

/-- The line that a source starts on. -/
def Element.line? (source : Element) : Option UInt32 := source.span.map (·.startLine)

mutual

/-- The statements in a statement. -/
def Stmt.inner : Stmt → List Stmt
  | .simple .. | .breakJump _ | .continueJump _ | .returnJump .. | .throwJump .. => []
  | .branch _ _ thenBranch elseBranch => blockStatements thenBranch ++ blockStatements elseBranch
  | .whileLoop _ _ body | .doWhile _ body _ | .forEach _ _ _ body | .block _ body => blockStatements body
  | .forLoop _ init _ update body =>
    blockStatements init ++ (blockStatements body ++ blockStatements update)
  | .select _ _ cases => casesStatements cases
  | .tryBlock _ body catches none => blockStatements body ++ catchesStatements catches
  | .tryBlock _ body catches (some finalizer) =>
    blockStatements body ++ (catchesStatements catches ++ blockStatements finalizer)

/-- The statements of a block, each in front of those in it. -/
def blockStatements : List Stmt → List Stmt
  | [] => []
  | stmt :: stmts => stmt :: (stmt.inner ++ blockStatements stmts)

/-- The statements in the cases of a `switch`. -/
def casesStatements : List (SwitchCase Stmt) → List Stmt
  | [] => []
  | ⟨_, _, body⟩ :: cases => blockStatements body ++ casesStatements cases

/-- The statements in the catch clauses of a `try`. -/
def catchesStatements : List (CatchClause Stmt) → List Stmt
  | [] => []
  | ⟨_, _, _, body⟩ :: clauses => blockStatements body ++ catchesStatements clauses

end

namespace Stmt

/-- The elements of the cases of a `switch`, or of the catch clauses of a `try`. -/
def partIds : Stmt → List ElementId
  | .select _ _ cases => cases.map (·.id)
  | .tryBlock _ _ catches _ => catches.map (·.id)
  | _ => []

/-- The element of a statement, and those of its cases or catch clauses. -/
def elementIds (stmt : Stmt) : List ElementId := stmt.source.id :: stmt.partIds

/-- A statement is a `switch` with cases. -/
def hasCases : Stmt → Bool
  | .select _ _ (_ :: _) => true
  | _ => false

end Stmt

/-- The statements of a callable. -/
def CallableDecl.statements (decl : CallableDecl) : List Stmt := blockStatements (decl.body.getD [])

namespace Program

/-- The statements of a program. -/
def statements (program : Program) : List Stmt := program.callables.flatMap (·.statements)

/-- The elements of a program. -/
def elementIds (program : Program) : List ElementId := program.statements.flatMap (·.elementIds)

/-- The statements that start on a line. -/
def statementsOnLine (program : Program) (line : UInt32) : List Stmt :=
  program.statements.filter (·.source.line? == some line)

end Program

/-! ## Segments of statements -/

mutual

/-- The segments of a statement are its own and those of the statements in it, in another order. -/
theorem Stmt.segments_perm (stmt : Stmt) :
    stmt.segments.Perm (stmt.ownSegments ++ stmt.inner.flatMap (·.ownSegments)) := by
  cases stmt with
  | simple | breakJump | continueJump | throwJump => exact .refl _
  | returnJump source value => cases value <;> exact .refl _
  | branch source cond thenBranch elseBranch =>
    rw [Stmt.segments, Stmt.inner, List.flatMap_append]
    exact ((blockSegments_perm thenBranch).append (blockSegments_perm elseBranch)).cons _
  | whileLoop source cond body | forEach source var cond body =>
    rw [Stmt.segments, Stmt.inner]
    exact (blockSegments_perm body).cons _
  | doWhile source body cond =>
    rw [Stmt.segments, Stmt.inner]
    exact ((blockSegments_perm body).append_right _).trans List.perm_append_comm
  | forLoop source init cond update body =>
    have hrest := (blockSegments_perm body).append (blockSegments_perm update)
    rw [Stmt.inner, List.flatMap_append, List.flatMap_append]
    cases cond <;>
      exact ((blockSegments_perm init).append (hrest.cons _)).trans List.perm_middle
  | select source selector cases =>
    have hcases := casesSegments_perm source cases
    rw [Stmt.segments, Stmt.inner]
    -- the label of the first case is part of the segment of the selector
    cases cases with
    | nil => exact .refl _
    | cons c cases => exact hcases.cons_inv.cons _
  | tryBlock source body catches finalizer =>
    have hcatches := catchesSegments_perm catches
    cases finalizer with
    | none =>
      rw [Stmt.segments, Stmt.inner, List.flatMap_append]
      exact ((blockSegments_perm body).append hcatches).trans (List.perm_append_comm_assoc ..)
    | some finalizer =>
      rw [Stmt.segments, Stmt.inner, List.flatMap_append, List.flatMap_append]
      have hrest := hcatches.append (blockSegments_perm finalizer)
      rw [List.append_assoc] at hrest
      exact ((blockSegments_perm body).append hrest).trans (List.perm_append_comm_assoc ..)
  | block source body =>
    rw [Stmt.segments, Stmt.inner]
    exact blockSegments_perm body

/-- The segments of a block are those of its statements. -/
theorem blockSegments_perm (stmts : List Stmt) :
    (blockSegments stmts).Perm ((blockStatements stmts).flatMap (·.ownSegments)) := by
  match stmts with
  | [] => exact .nil
  | stmt :: stmts =>
    rw [blockSegments, blockStatements, List.flatMap_cons, List.flatMap_append, ← List.append_assoc]
    exact stmt.segments_perm.append (blockSegments_perm stmts)

/-- The segments of cases are those of their labels and of the statements in them, in another order.
    -/
theorem casesSegments_perm (source : Element) (cases : List (SwitchCase Stmt)) :
    (casesSegments source cases).Perm
      (cases.map (.ofCase source) ++ (casesStatements cases).flatMap (·.ownSegments)) := by
  match cases with
  | [] => exact .nil
  | ⟨id, label, body⟩ :: cases =>
    rw [casesSegments, casesStatements, List.flatMap_append, List.map_cons]
    exact (((blockSegments_perm body).append (casesSegments_perm source cases)).trans
      (List.perm_append_comm_assoc ..)).cons _

/-- The segments of catch clauses are their own and those of the statements in them, in another
    order. -/
theorem catchesSegments_perm (clauses : List (CatchClause Stmt)) :
    (catchesSegments clauses).Perm
      (clauses.map .ofClause ++ (catchesStatements clauses).flatMap (·.ownSegments)) := by
  match clauses with
  | [] => exact .nil
  | ⟨id, exceptionType, var, body⟩ :: clauses =>
    rw [catchesSegments, catchesStatements, List.flatMap_append, List.map_cons]
    exact (((blockSegments_perm body).append (catchesSegments_perm clauses)).trans
      (List.perm_append_comm_assoc ..)).cons _

end

/-! ## Nodes for elements -/

namespace Segment

/-- The nodes of a segment that stand for source elements. -/
def marked (c : Segment) : List Draft := c.own :: (c.label.map c.labelDraft).toList

/-- The elements that they stand for. -/
def elements (c : Segment) : List ElementId := c.element :: (c.label.map (·.1)).toList

variable {h : Hierarchy} {c : Segment} {d : Draft}

theorem filterMap_marked (c : Segment) : c.marked.filterMap (·.element) = c.elements := by
  obtain ⟨kind, text, element, span, defs, effects, label, plain⟩ := c
  cases label <;> rfl

/-- Only the marked nodes of a segment stand for source elements. -/
theorem filterMap_drafts (h : Hierarchy) (c : Segment) : (c.drafts h).filterMap (·.element) = c.elements := by
  have hcalls : (allDrafts h c.effects.calls).filterMap (·.element) = [] :=
    List.filterMap_eq_nil_iff.2 fun d hd => (ofCall_of_mem_allDrafts (List.Subset.refl _) hd).element
  rw [drafts, List.filterMap_append, hcalls]
  exact c.filterMap_marked

theorem marked_subset_drafts (h : Hierarchy) (c : Segment) : c.marked ⊆ c.drafts h :=
  List.subset_append_right _ _

/-- A node that stands for a source element is a marked one. -/
theorem mem_marked_of_element (hd : d ∈ c.drafts h) (helement : d.element.isSome) : d ∈ c.marked := by
  refine (List.mem_append.1 hd).resolve_left fun hd => ?_
  rw [(ofCall_of_mem_allDrafts (List.Subset.refl _) hd).element] at helement
  cases helement

end Segment

namespace Stmt

variable {stmt : Stmt} {c : Segment} {d : Draft}

/-- A node for a source element comes from a statement. -/
inductive Gives (stmt : Stmt) (d : Draft) : Prop
  | own (element : d.element = some stmt.source.id) (span : d.span = stmt.source.span)
  /-- The label of a case is where the `switch` is. -/
  | label (id : ElementId) (mem : id ∈ stmt.partIds) (element : d.element = some id)
      (span : d.span = stmt.source.span) (cases : stmt.hasCases = true) (defs : d.defs = [])
      (uses : d.uses = [])
  /-- A catch clause is nowhere. -/
  | clause (id : ElementId) (mem : id ∈ stmt.partIds) (element : d.element = some id) (span : d.span = none)

/-- The own node of a case comes from the `switch`. -/
theorem gives_ofCase {source : Element} {selector : Effects} {cases : List (SwitchCase Stmt)}
    {case : SwitchCase Stmt} (hcase : case ∈ cases) :
    (Stmt.select source selector cases).Gives (Segment.ofCase source case).own := by
  obtain ⟨first, rest, rfl⟩ := List.exists_cons_of_ne_nil (List.ne_nil_of_mem hcase)
  exact .label case.id (List.mem_map_of_mem hcase) rfl rfl rfl rfl rfl

/-- The marked nodes of the segments of a statement come from the statement. -/
theorem gives_of_mem_marked (hc : c ∈ stmt.ownSegments) (hd : d ∈ c.marked) : stmt.Gives d := by
  cases stmt with
  | simple | branch | whileLoop | doWhile | forLoop | forEach | breakJump | continueJump | throwJump =>
    obtain rfl := List.mem_singleton.1 hc
    obtain rfl := List.mem_singleton.1 hd
    exact .own rfl rfl
  | returnJump source value =>
    cases value <;>
    · obtain rfl := List.mem_singleton.1 hc
      obtain rfl := List.mem_singleton.1 hd
      exact .own rfl rfl
  | select source selector cases =>
    cases cases with
    | nil =>
      obtain rfl := List.mem_singleton.1 hc
      obtain rfl := List.mem_singleton.1 hd
      exact .own rfl rfl
    | cons first rest =>
      rcases List.mem_cons.1 hc with rfl | hc
      · rcases List.mem_cons.1 hd with rfl | hd
        · exact .own rfl rfl
        · obtain rfl := List.mem_singleton.1 hd
          exact .label first.id List.mem_cons_self rfl rfl rfl rfl rfl
      · obtain ⟨case, hcase, rfl⟩ := List.mem_map.1 hc
        obtain rfl := List.mem_singleton.1 hd
        exact gives_ofCase (List.mem_cons_of_mem _ hcase)
  | tryBlock source body catches finalizer =>
    obtain ⟨clause, hclause, rfl⟩ := List.mem_map.1 hc
    obtain rfl := List.mem_singleton.1 hd
    exact .clause clause.id (List.mem_map_of_mem hclause) rfl rfl
  | block => cases hc

/-- The selector of a `switch` with cases stands beside the label of one of them. -/
theorem exists_label (hcases : stmt.hasCases = true) (hids : stmt.elementIds.Nodup)
    (hc : c ∈ stmt.ownSegments) (hd : d ∈ c.marked) (helement : d.element = some stmt.source.id) :
    ∃ label ∈ c.marked, ∃ id ∈ stmt.partIds, label.element = some id ∧ label.span = stmt.source.span := by
  cases stmt with
  | select source selector cases =>
    cases cases with
    | nil => cases hcases
    | cons first rest =>
      rcases List.mem_cons.1 hc with rfl | hc
      · exact ⟨_, List.mem_cons_of_mem _ (List.mem_singleton_self _), first.id, List.mem_cons_self, rfl, rfl⟩
      · -- the other labels have segments of their own
        obtain ⟨case, hcase, rfl⟩ := List.mem_map.1 hc
        obtain rfl := List.mem_singleton.1 hd
        refine absurd ?_ (List.nodup_cons.1 hids).1
        rw [← Option.some.inj helement]
        exact List.mem_map_of_mem (List.mem_cons_of_mem _ hcase)
  | _ => cases hcases

/-- The elements that nodes may stand for are among those of the statement. -/
theorem elements_sublist (stmt : Stmt) :
    (stmt.ownSegments.flatMap (·.elements)).Sublist stmt.elementIds := by
  cases stmt with
  | simple | branch | whileLoop | doWhile | forLoop | forEach | breakJump | continueJump | throwJump =>
    exact .refl _
  | returnJump source value => cases value <;> exact .refl _
  | select source selector cases =>
    cases cases with
    | nil => exact .refl _
    | cons first rest =>
      have hrest : (rest.map (Segment.ofCase source)).flatMap (·.elements) = rest.map (·.id) := by
        rw [List.flatMap_map, List.map_eq_flatMap]
        rfl
      rw [ownSegments, List.map_cons, Segment.select, List.flatMap_cons, hrest]
      exact .refl _
  | tryBlock source body catches finalizer =>
    have hcatches : (catches.map Segment.ofClause).flatMap (·.elements) = catches.map (·.id) := by
      rw [List.flatMap_map, List.map_eq_flatMap]
      rfl
    rw [ownSegments, hcatches]
    exact List.sublist_cons_self _ _
  | block => exact List.nil_sublist _

end Stmt

/-- The elements of the segments of a callable are those of its statements, as far as they may
    have nodes. -/
theorem CallableDecl.elements_perm (decl : CallableDecl) :
    (decl.segments.flatMap (·.elements)).Perm
      (decl.statements.flatMap fun stmt => stmt.ownSegments.flatMap (·.elements)) := by
  rw [segments, statements, ← List.flatMap_assoc]
  exact (blockSegments_perm _).flatMap_right _

namespace FlowGraph

variable {h : Hierarchy} {decl : CallableDecl} {n : Nat} {g : FlowGraph}

theorem elements_eq (g : FlowGraph) : g.elements = g.drafts.filterMap (·.element) := by
  rw [drafts, List.filterMap_map]
  rfl

/-- The first nodes of a callable stand for no source element. -/
theorem element_of_mem_openingDrafts {d : Draft} (hd : d ∈ decl.openingDrafts) : d.element = none := by
  have hins (params : List Param) (position : Nat) (hd : d ∈ formalInDrafts position params) :
      d.element = none := by
    induction params generalizing position with
    | nil => cases hd
    | cons param params ih =>
      rcases List.mem_cons.1 hd with rfl | hd
      exacts [rfl, ih _ hd]
  rcases List.mem_cons.1 hd with rfl | hd
  · rfl
  · rcases List.mem_cons.1 hd with rfl | hd
    exacts [rfl, hins _ _ hd]

/-- The last nodes of a callable stand for no source element. -/
theorem element_of_mem_closingDrafts {d : Draft} (hd : d ∈ decl.closingDrafts) : d.element = none := by
  have houts (params : List Param) (position : Nat) (hd : d ∈ writtenParamDrafts position params) :
      d.element = none := by
    induction params generalizing position with
    | nil => cases hd
    | cons param params ih =>
      rw [writtenParamDrafts] at hd
      split at hd
      · rcases List.mem_cons.1 hd with rfl | hd
        exacts [rfl, ih _ hd]
      · exact ih _ hd
  rcases List.mem_append.1 hd with hd | hd
  · split at hd
    · rw [List.mem_singleton.1 hd]
      rfl
    · cases hd
  · exact houts _ _ hd

/-- A callable without a body has no nodes for source elements. -/
theorem elements_bodyless (hbody : decl.body = none) (hg : (build h decl n).1 = .ok g) : g.elements = [] := by
  simp only [build, hbody, Except.ok.injEq] at hg
  rw [← hg, elements, nodes_addArc]
  rfl

/-- The elements that the nodes of a callable stand for are those of its segments, in their order
    and each at most once. -/
theorem build_elements (hg : (build h decl n).1 = .ok g) :
    g.elements.Sublist (decl.segments.flatMap (·.elements)) := by
  cases hbody : decl.body with
  | none =>
    rw [elements_bodyless hbody hg]
    exact List.nil_sublist _
  | some body =>
    obtain ⟨kept, hkept, hdrafts, -⟩ := build_segments hbody hg
    have hopening : decl.openingDrafts.filterMap (·.element) = [] :=
      List.filterMap_eq_nil_iff.2 fun _ => element_of_mem_openingDrafts
    have hclosing : decl.closingDrafts.filterMap (·.element) = [] :=
      List.filterMap_eq_nil_iff.2 fun _ => element_of_mem_closingDrafts
    rw [elements_eq, hdrafts, List.filterMap_append, List.filterMap_append, hopening, hclosing,
      List.filterMap_flatMap, List.append_nil, List.nil_append, CallableDecl.segments, hbody]
    simp only [Segment.filterMap_drafts]
    exact hkept.flatMap _

/-- A node for a source element comes from a statement of the callable, and beside it stand the
    other nodes of the same segment. -/
theorem exists_segment (hg : (build h decl n).1 = .ok g) {node : Node} (hnode : node ∈ g.nodes)
    (helement : node.element.isSome) : ∃ stmt ∈ decl.statements, ∃ c ∈ stmt.ownSegments,
      node.draft ∈ c.marked ∧ ∀ d ∈ c.marked, ∃ other ∈ g.nodes, other.draft = d := by
  cases hbody : decl.body with
  | none =>
    have hnone : node.element = none :=
      List.filterMap_eq_nil_iff.1 (elements_bodyless hbody hg) node hnode
    rw [hnone] at helement
    cases helement
  | some body =>
    obtain ⟨kept, hkept, hdrafts, -⟩ := build_segments hbody hg
    have hmem : node.draft ∈ g.drafts := List.mem_map_of_mem hnode
    have hnone {d : Draft} (hd : d.element = none) : node.draft ≠ d := by
      rintro rfl
      rw [show node.element = none from hd] at helement
      cases helement
    rw [hdrafts, List.mem_append, List.mem_append] at hmem
    obtain hmem | hmem | hmem := hmem
    · exact absurd rfl (hnone (element_of_mem_openingDrafts hmem))
    · obtain ⟨c, hc, hd⟩ := List.mem_flatMap.1 hmem
      obtain ⟨stmt, hstmt, hown⟩ :=
        List.mem_flatMap.1 ((blockSegments_perm body).mem_iff.1 (hkept.subset hc))
      rw [CallableDecl.statements, hbody]
      refine ⟨stmt, hstmt, c, hown, Segment.mem_marked_of_element hd helement, fun d hd => ?_⟩
      refine List.mem_map.1 (hdrafts ▸ ?_ : d ∈ g.drafts)
      refine List.mem_append_right _ (List.mem_append_left _ (List.mem_flatMap.2 ⟨c, hc, ?_⟩))
      exact c.marked_subset_drafts h hd
    · exact absurd rfl (hnone (element_of_mem_closingDrafts hmem))

end FlowGraph

end Slicing
