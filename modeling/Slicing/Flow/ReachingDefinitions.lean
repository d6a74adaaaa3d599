import Slicing.Flow.Graph

/-!
# Reaching definitions

A definition is a write of a variable at a node. It reaches a node if control may
pass from the one to the other without another write of the variable in between;
a read of the variable there then depends on it.

The definitions that reach the start of a node are those that leave one of its
predecessors; those that leave it are its own and the ones that reach it and whose
variable it does not write. The least solution of these equations is found with a
worklist of positions: sets of definitions are bit vectors over the list of all
definitions (`DefinitionSet`), which only grow, and each time one grows, the
positions behind it are looked at again.
-/

namespace Slicing

/-- A write of a variable. -/
structure Definition where
  position : Nat
  node : NodeId
  var : String
  deriving DecidableEq, Repr

/-- A read of a variable that may see what a definition wrote. -/
structure DataDependence where
  source : NodeId
  target : NodeId
  var : String
  deriving DecidableEq, Repr

/-- A set of definitions, by their places in a list of `n` of them. -/
abbrev DefinitionSet (n : Nat) := BitVec n

namespace DefinitionSet

/-- The number of definitions that are not in a set. -/
def missing {n : Nat} (s : DefinitionSet n) : Nat := (List.range n).countP fun i => !s.getLsbD i

/-- A set that grows misses fewer definitions. -/
theorem missing_union_lt {n : Nat} {s t : DefinitionSet n} (h : s ||| t ≠ s) :
    missing (s ||| t) < missing s := by
  -- some definition is new, and it is not missing any more
  obtain ⟨i, hi, hs, ht⟩ : ∃ i, i < n ∧ s.getLsbD i = false ∧ t.getLsbD i = true := by
    false_or_by_contra
    rename_i hn
    apply h
    apply BitVec.eq_of_getLsbD_eq
    intro i hi
    simp only [BitVec.getLsbD_or]
    by_cases hs : s.getLsbD i = true
    · simp [hs]
    · have : t.getLsbD i = false := by
        false_or_by_contra
        rename_i ht
        exact hn ⟨i, hi, by simpa using hs, by simpa using ht⟩
      simp [this]
  unfold missing
  rw [List.countP_eq_length_filter, List.countP_eq_length_filter]
  have heq : (List.range n).filter (fun i => !(s ||| t).getLsbD i) =
      ((List.range n).filter fun i => !s.getLsbD i).filter fun i => !t.getLsbD i := by
    rw [List.filter_filter]
    congr 1
    funext i
    simp [BitVec.getLsbD_or, Bool.and_comm]
  rw [heq]
  exact List.length_filter_lt_length_iff_exists.2
    ⟨i, List.mem_filter.2 ⟨List.mem_range.2 hi, by rw [hs]; rfl⟩, by rw [ht]; decide⟩

end DefinitionSet

namespace FlowGraph

/-- The definitions of a graph, by position; a variable that a node writes
    repeatedly is one definition. -/
def definitions (g : FlowGraph) : List Definition :=
  g.nodes.zipIdx.flatMap fun (node, position) =>
    node.defs.eraseDups.map (⟨position, node.id, ·⟩)

/-- The set of the definitions with a property. -/
def definitionsWith (defs : List Definition) (p : Definition → Bool) :
    DefinitionSet defs.length :=
  (BitVec.ofBoolListLE (defs.map p)).cast (by simp)

end FlowGraph

/-- What a position does to the sets of definitions. -/
structure DefinitionTransfer (n : Nat) where
  /-- The definitions made there. -/
  made : DefinitionSet n
  /-- The definitions of the variables written there. -/
  overwritten : DefinitionSet n
  /-- The positions that lead there. -/
  sources : List Nat
  /-- The positions that it leads to, that of the latest arc first. -/
  targets : List Nat

namespace DefinitionTransfer

variable {n : Nat}

/-- The definitions that leave one of the positions that lead to one. -/
def reaching (t : DefinitionTransfer n) (leaving : List (DefinitionSet n)) : DefinitionSet n :=
  t.sources.foldl (fun s source => s ||| leaving.getD source 0) 0

/-- The definitions that leave a position, given those that reach it. -/
def apply (t : DefinitionTransfer n) (reaching : DefinitionSet n) : DefinitionSet n :=
  t.made ||| (reaching &&& ~~~t.overwritten)

end DefinitionTransfer

/-- The state of the worklist. -/
structure DefinitionFlow (n : Nat) where
  /-- The definitions that reach each position. -/
  reaching : List (DefinitionSet n)
  /-- The definitions that leave each position. -/
  leaving : List (DefinitionSet n)
  /-- The number of positions taken off the worklist. -/
  visits : Nat

namespace DefinitionFlow

variable {n : Nat}

/-- Positions join the end of a worklist, unless they are on it. -/
def enqueue (worklist : List Nat) (positions : List Nat) : List Nat :=
  positions.foldl (fun worklist v => if v ∈ worklist then worklist else worklist ++ [v]) worklist

/-- The number of definitions missing in some sets. -/
def missing : List (DefinitionSet n) → Nat
  | [] => 0
  | s :: sets => s.missing + missing sets

/-- If one of some sets grows, they miss fewer definitions together. -/
theorem missing_set_lt {sets : List (DefinitionSet n)} {v : Nat} {s t : DefinitionSet n}
    (hv : sets[v]? = some s) (h : s ||| t ≠ s) : missing (sets.set v (s ||| t)) < missing sets := by
  induction sets generalizing v with
  | nil => simp at hv
  | cons a sets ih =>
    cases v with
    | zero =>
      simp only [List.getElem?_cons_zero, Option.some.injEq] at hv
      subst hv
      have := DefinitionSet.missing_union_lt h
      simp only [missing, List.set_cons_zero]
      omega
    | succ v =>
      simp only [List.getElem?_cons_succ] at hv
      have := ih hv
      simp only [missing, List.set_cons_succ]
      omega

/-- Works off a worklist. A set that leaves a position takes in what the
    equations ask for; if it grows by that, the positions behind join the
    worklist. -/
def solve (transfer : Nat → DefinitionTransfer n) (worklist : List Nat) (f : DefinitionFlow n) :
    DefinitionFlow n :=
  match worklist with
  | [] => f
  | v :: worklist =>
    let t := transfer v
    let reaching := t.reaching f.leaving
    let f' : DefinitionFlow n := ⟨f.reaching.set v reaching, f.leaving, f.visits + 1⟩
    match _hv : f.leaving[v]? with
    | none => solve transfer worklist f'
    | some before =>
      if _h : before ||| t.apply reaching ≠ before then
        solve transfer (enqueue worklist t.targets)
          { f' with leaving := f.leaving.set v (before ||| t.apply reaching) }
      else solve transfer worklist f'
termination_by (missing f.leaving, worklist.length)
decreasing_by
  · exact Prod.Lex.right _ (Nat.lt_succ_self _)
  · exact Prod.Lex.left _ _ (missing_set_lt _hv _h)
  · exact Prod.Lex.right _ (Nat.lt_succ_self _)

end DefinitionFlow

/-- The definitions of a graph and the ones that reach each of its positions. -/
structure ReachingDefinitions where
  defs : List Definition
  flow : DefinitionFlow defs.length

namespace FlowGraph

/-- What a position does to the definitions. -/
def transfer (g : FlowGraph) (defs : List Definition) (v : Nat) :
    DefinitionTransfer defs.length where
  made := definitionsWith defs (·.position == v)
  overwritten := definitionsWith defs fun d => (g.nodeAt v).defs.contains d.var
  sources := (g.arcsInto v).map (·.source)
  targets := ((g.arcsFrom v).map (·.target)).reverse

/-- Finds the definitions that reach each position, looking at all positions in
    order first. -/
def reachingDefinitions (g : FlowGraph) : ReachingDefinitions :=
  let defs := g.definitions
  ⟨defs, DefinitionFlow.solve (g.transfer defs) g.positions
    ⟨g.positions.map fun _ => 0, g.positions.map fun v => (g.transfer defs v).made, 0⟩⟩

end FlowGraph

namespace ReachingDefinitions

/-- The definitions that reach a position, in their order. -/
def reachingAt (r : ReachingDefinitions) (position : Nat) : List Definition :=
  let set := r.flow.reaching.getD position 0
  (r.defs.zipIdx.filter fun (_, i) => set.getLsbD i).map (·.1)

/-- The definitions that reach a node, by the node where each is made and its variable. -/
def reaching (r : ReachingDefinitions) (g : FlowGraph) (node : NodeId) : List (NodeId × String) :=
  match g.position? node with
  | some position => (r.reachingAt position).map fun d => (d.node, d.var)
  | none => []

/-- The reads that may see what a definition wrote, in the order of the nodes, the
    variables they read and the definitions. -/
def dependences (r : ReachingDefinitions) (g : FlowGraph) : List DataDependence :=
  g.nodes.flatMap fun node =>
    let reaching := match g.position? node.id with
      | some position => r.reachingAt position
      | none => []
    node.uses.eraseDups.flatMap fun var =>
      (reaching.filter (·.var == var)).map fun d => ⟨d.node, node.id, var⟩

end ReachingDefinitions

end Slicing
