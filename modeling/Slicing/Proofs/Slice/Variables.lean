import Slicing.Proofs.Dependence.Analysis
import Slicing.Proofs.Flow.ReachingDefinitions
import Slicing.Proofs.Slice.Shortcut

/-!
# Slices for variables

A slice may be asked for with a variable. If the variable is read at the node of the criterion,
or, forward, written there, then only the data dependences that carry it are followed from the
node. The slice without a variable is made up of the ones with a variable
(`Analysis.mem_slice_iff_exists_var`).

* A data dependence of an analysed program carries a variable that is written where it starts
  and read where it ends (`Analysis.accesses`). A step from the node is therefore taken for one
  of the variables (`Traversal.exists_step_var`), and other steps are taken for each of them.
* The slices for the variables all hold the node. Together they are closed under the steps that
  may be taken without a variable, even where these come back to the node
  (`Traversal.IsClosure.subset_slices`). In two phases this is so twice.
* A variable that does not restrict what is followed is as good as none
  (`Traversal.origin_of_not_followed`).
-/

namespace Slicing

/-- The variables that restrict what is followed from a node. -/
def Node.followed (node : Node) : Direction → List String
  | .backward => node.uses
  | .forward => node.defs

namespace SystemGraph

variable {g : SystemGraph} {node : Node} {n : NodeId} {location : Location} {direction : Direction}
  {var v : String}

/-- What a data dependence carries is written where it starts and read where it ends. -/
def Accesses (g : SystemGraph) : Prop :=
  ∀ x y var, ⟨x, y, .data var⟩ ∈ g.edges →
    (∀ node, g.node? x = some node → var ∈ node.defs) ∧ ∀ node, g.node? y = some node → var ∈ node.uses

/-- A variable restricts what is followed from a node that reads it or writes it. -/
theorem restricts_iff (hnode : g.node? n = some node) :
    g.Restricts ⟨location, some v⟩ direction n var ↔ v = var ∧ var ∈ node.followed direction := by
  simp only [Restricts, Option.some.injEq, hnode, exists_eq_left']
  cases direction <;> rfl

/-- A variable that is read or written at a node is mentioned there. -/
theorem mentions_node (hnode : g.node? n = some node) (hv : v ∈ node.uses ∨ v ∈ node.defs) :
    g.Mentions ⟨location, some v⟩ n := by
  rintro _ ⟨⟩
  exact ⟨node, hnode, hv⟩

theorem mentions_none : g.Mentions ⟨location, none⟩ n := nofun

end SystemGraph

/-! ## Steps with and without a variable -/

namespace Traversal

variable {t : Traversal} {g : SystemGraph} {c c' : Criterion} {node : Node} {n u w : NodeId}
  {phase : Phase} {location : Location} {v : String}

/-- A variable leaves fewer steps. -/
theorem Step.without_var (hstep : t.Step g ⟨location, some v⟩ n phase u w) :
    t.Step g ⟨location, none⟩ n phase u w := by
  obtain ⟨hw, d, hadmissible, hedge, -⟩ := hstep
  exact ⟨hw, d, hadmissible, hedge, fun _ _ hr => absurd hr SystemGraph.not_restricts_none⟩

/-- A variable restricts nothing but the steps from the node of the criterion. -/
theorem Step.with_var (hstep : t.Step g ⟨location, none⟩ n phase u w) (hne : u ≠ n) :
    t.Step g ⟨location, some v⟩ n phase u w := by
  obtain ⟨hw, d, hadmissible, hedge, -⟩ := hstep
  exact ⟨hw, d, hadmissible, hedge, fun hu => absurd hu hne⟩

/-- A step from the node of a criterion is taken for one of the variables there. -/
theorem exists_step_var (hg : g.Accesses) (hnode : g.node? n = some node)
    (hne : node.followed t.direction ≠ []) (hstep : t.Step g ⟨location, none⟩ n phase n w) :
    ∃ v ∈ node.followed t.direction, t.Step g ⟨location, some v⟩ n phase n w := by
  obtain ⟨hw, d, hadmissible, hedge, -⟩ := hstep
  -- if the edge carries a variable, it is this one
  obtain ⟨v, hv, hcarried⟩ : ∃ v ∈ node.followed t.direction, ∀ carried, d = .data carried →
      carried = v := by
    by_cases hdata : ∃ var, d = .data var
    · obtain ⟨var, rfl⟩ := hdata
      refine ⟨var, ?_, fun carried heq => (Dependence.data.inj heq).symm⟩
      revert hedge
      unfold Node.followed
      cases t.direction with
      | backward => exact fun hedge => (hg _ _ _ hedge).2 node hnode
      | forward => exact fun hedge => (hg _ _ _ hedge).1 node hnode
    · obtain ⟨v, hv⟩ := List.exists_mem_of_ne_nil _ hne
      exact ⟨v, hv, fun carried heq => absurd ⟨carried, heq⟩ hdata⟩
  refine ⟨v, hv, hw, d, hadmissible, hedge, fun _ var hr carried heq => ?_⟩
  exact (hcarried carried heq).trans ((SystemGraph.restricts_iff hnode).1 hr).1

/-- A variable that does not restrict what is followed from a node is as good as none. -/
theorem origin_of_not_followed (hnode : g.node? n = some node) (hv : v ∈ node.uses ∨ v ∈ node.defs)
    (hfree : v ∉ node.followed t.direction) : t.origin g ⟨location, some v⟩ n = .ok ⟨n, none⟩ := by
  have hrestricts : restricts node v t.direction = false := by
    revert hfree
    unfold Node.followed
    cases t.direction <;> simp [restricts, Node.reads, Node.defines]
  have htouched : (node.reads v || node.defines v) = true := by
    simpa [Node.reads, Node.defines] using hv
  simp [origin, hnode, htouched, hrestricts]

/-! ## Closures with and without a variable -/

/-- More starts and more steps give a larger closure. -/
theorem IsClosure.mono {starts starts' closure closure' : Set NodeId}
    (h : t.IsClosure g c n phase starts closure) (h' : t.IsClosure g c' n phase starts' closure')
    (hstarts : starts ⊆ starts') (hsteps : ∀ u w, t.Step g c n phase u w → t.Step g c' n phase u w) :
    closure ⊆ closure' :=
  h.2 ⟨hstarts.trans h'.1.1, fun u hu w hstep => h'.1.2 u hu w (hsteps u w hstep)⟩

/-- What is reached without a variable is reached for one of the variables, as long as the node
    of the criterion is reached for all of them. -/
theorem IsClosure.subset_slices (hg : g.Accesses) (hnode : g.node? n = some node)
    (hne : node.followed t.direction ≠ []) {starts closure : Set NodeId}
    {starts' closure' : String → Set NodeId}
    (h : t.IsClosure g ⟨location, none⟩ n phase starts closure)
    (h' : ∀ v ∈ node.followed t.direction,
      t.IsClosure g ⟨location, some v⟩ n phase (starts' v) (closure' v))
    (hstarts : ∀ m ∈ starts, ∃ v ∈ node.followed t.direction, m ∈ starts' v)
    (hn : ∀ v ∈ node.followed t.direction, n ∈ closure' v) {m : NodeId} (hm : m ∈ closure) :
    ∃ v ∈ node.followed t.direction, m ∈ closure' v := by
  suffices hsub : closure ⊆ {m | ∃ v ∈ node.followed t.direction, m ∈ closure' v} from hsub hm
  refine h.2 ⟨fun m hm => ?_, ?_⟩
  · obtain ⟨v, hv, hmv⟩ := hstarts m hm
    exact ⟨v, hv, (h' v hv).1.1 hmv⟩
  · rintro u ⟨v, hv, hu⟩ w hstep
    by_cases hun : u = n
    · -- back at the node, the step may be one for another variable, whose slice holds the node too
      subst hun
      obtain ⟨v', hv', hstep'⟩ := exists_step_var hg hnode hne hstep
      exact ⟨v', hv', (h' v' hv').1.2 u (hn v' hv') w hstep'⟩
    · exact ⟨v, hv, (h' v hv).1.2 u hu w (hstep.with_var hun)⟩

end Traversal

/-! ## Slices with and without a variable -/

namespace Slice.Covers

variable {slice slice' plain : Slice} {t : Traversal} {g : SystemGraph} {c c' : Criterion}
  {node : Node} {n m : NodeId} {location : Location}

/-- A slice that is a closure is one of all steps. -/
theorem nodes_closure (h : slice.Covers g t c n) (hstrategy : t.strategy = .closure) :
    t.IsClosure g c n .full {n} {m | m ∈ slice.nodes} := by
  simpa only [hstrategy] using h.nodes

/-- A slice in two phases is a closure in the first and then in the second one. -/
theorem nodes_phases (h : slice.Covers g t c n) (hstrategy : t.strategy = .twoPhase) :
    ∃ ascended, t.IsClosure g c n .ascend {n} ascended ∧
      t.IsClosure g c n .descend ascended {m | m ∈ slice.nodes} := by
  simpa only [hstrategy] using h.nodes

/-- More steps give a larger slice. -/
theorem nodes_mono (h : slice.Covers g t c n) (h' : slice'.Covers g t c' n)
    (hsteps : ∀ phase u w, t.Step g c n phase u w → t.Step g c' n phase u w)
    (hm : m ∈ slice.nodes) : m ∈ slice'.nodes := by
  cases hstrategy : t.strategy with
  | closure =>
    exact (h.nodes_closure hstrategy).mono (h'.nodes_closure hstrategy) subset_rfl (hsteps _) hm
  | twoPhase =>
    obtain ⟨ascended, hascended, hnodes⟩ := h.nodes_phases hstrategy
    obtain ⟨ascended', hascended', hnodes'⟩ := h'.nodes_phases hstrategy
    exact hnodes.mono hnodes' (hascended.mono hascended' subset_rfl (hsteps _)) (hsteps _) hm

/-- What is in the slice without a variable is in one for a variable. -/
theorem exists_slice {slices : String → Slice} (hg : g.Accesses) (hnode : g.node? n = some node)
    (hne : node.followed t.direction ≠ []) (hplain : plain.Covers g t ⟨location, none⟩ n)
    (hslices : ∀ v ∈ node.followed t.direction, (slices v).Covers g t ⟨location, some v⟩ n)
    (hm : m ∈ plain.nodes) : ∃ v ∈ node.followed t.direction, m ∈ (slices v).nodes := by
  have hstart (m : NodeId) (hm : m ∈ ({n} : Set NodeId)) :
      ∃ v ∈ node.followed t.direction, m ∈ ({n} : Set NodeId) := by
    obtain ⟨v, hv⟩ := List.exists_mem_of_ne_nil _ hne
    exact ⟨v, hv, hm⟩
  have hn (v : String) (hv : v ∈ node.followed t.direction) : n ∈ (slices v).nodes :=
    (hslices v hv).start_mem
  cases hstrategy : t.strategy with
  | closure =>
    exact (hplain.nodes_closure hstrategy).subset_slices hg hnode hne
      (fun v hv => (hslices v hv).nodes_closure hstrategy) hstart hn hm
  | twoPhase =>
    obtain ⟨ascended, hascended, hnodes⟩ := hplain.nodes_phases hstrategy
    choose! ascended' hascended' hnodes' using fun v hv => (hslices v hv).nodes_phases hstrategy
    -- the second phase starts from what the first one found, which is split in the same way
    refine hnodes.subset_slices hg hnode hne hnodes' (fun k hk => ?_) hn hm
    exact hascended.subset_slices hg hnode hne hascended' hstart
      (fun v hv => (hascended' v hv).1.1 rfl) hk

end Slice.Covers

namespace SystemGraph

variable {h : Hierarchy} {calls : CallGraph} {graphs : List ProcedureGraph} {g : SystemGraph}

/-- A node is found by its number. -/
theorem Assembles.node?_eq_some_iff (hg : Assembles h calls graphs g) (hsep : ProcedureGraph.Separate graphs)
    {n : NodeId} {node : Node} : g.node? n = some node ↔ node ∈ g.nodes ∧ node.id = n := by
  have hnodup : g.nodeIds.Nodup := hg.nodeIds_eq ▸ hsep.nodes_nodup
  exact find?_eq_some_iff_of_unique fun _ hx _ hy => List.inj_on_of_nodup_map hnodup hx hy

end SystemGraph

/-- The slice for a variable that does not restrict anything is the one without a variable, made
    for another criterion. -/
theorem Query.answer_slice_of_not_followed {g : SystemGraph} {config : SliceConfig} {node : Node}
    {n : NodeId} {v : String} {direction : Direction} {includeControl : Bool} {slice plain : Slice}
    (hnode : g.node? n = some node) (hn : n ∈ g.nodeIds) (hv : v ∈ node.uses ∨ v ∈ node.defs)
    (hfree : v ∉ node.followed direction)
    (hplain : (Query.slice ⟨.node n, none⟩ direction includeControl).answer g config = .ok plain)
    (hslice : (Query.slice ⟨.node n, some v⟩ direction includeControl).answer g config = .ok slice) :
    slice = { plain with criterion := ⟨.node n, some v⟩ } := by
  have hlocate : g.locate ⟨.node n, some v⟩ = .ok n := SystemGraph.locate_eq_ok_iff.2 ⟨rfl, hn⟩
  rw [answer_slice_node, if_pos hn] at hplain
  rw [answer, answerSlice_of_locate _ _ _ hlocate, Traversal.origin_of_not_followed hnode hv hfree] at hslice
  cases hplain
  cases hslice
  rfl

/-! ## Analysed programs -/

namespace Analysis

variable {config : Config} {program : Program} {a : Analysis}

/-- A node of an analysed program is found by its number. -/
theorem node?_eq_some_iff (ha : run config program = .ok a) {n : NodeId} {node : Node} :
    a.system.node? n = some node ↔ node ∈ a.system.nodes ∧ node.id = n := by
  have hsep := separate ⟨program.types, program.callables⟩ program.callables
  obtain ⟨g₁, hb⟩ := SystemGraph.build_eq_ok hsep (run_eq_ok ha)
  exact hb.assembles.node?_eq_some_iff hsep

/-- The data dependences of a program join writes and reads of what they carry. -/
theorem accesses (ha : run config program = .ok a) : a.system.Accesses := by
  intro x y var he
  have hanalysed := analysed ⟨program.types, program.callables⟩ program.callables
  obtain ⟨g₁, hb⟩ := SystemGraph.build_eq_ok hanalysed.separate (run_eq_ok ha)
  obtain ⟨p, hp, he⟩ := (hb.assembles.mem_edges_iff hanalysed.separate (.inr ⟨var, rfl⟩)).1 he
  have hnode {node : Node} (hnode : node ∈ p.nodes) : a.system.node? node.id = some node := by
    refine (node?_eq_some_iff ha).2 ⟨?_, rfl⟩
    exact hb.assembles.nodes ▸ List.mem_flatMap.2 ⟨p, hp, hnode⟩
  obtain ⟨h, decl, n, g, la, hg, hof, rfl⟩ := hanalysed.built p hp
  obtain ⟨rfl, -, hdata⟩ := LocalAnalysis.ofGraph_eq_ok hof
  have hformed := FlowGraph.build_formed hg
  rcases LocalAnalysis.mem_edges_iff.1 he with ⟨d, -, heq⟩ | ⟨⟨x', y', var'⟩, hd, heq⟩
  · cases heq
  · cases heq
    rw [hdata, FlowGraph.mem_dependences_iff hformed.inRange hformed.nodup] at hd
    obtain ⟨source, hsource, target, htarget, rfl, rfl, hwrite, hread, -⟩ := hd
    constructor
    · intro node hx
      rwa [Option.some.inj (hx.symm.trans (hnode hsource))]
    · intro node hy
      rwa [Option.some.inj (hy.symm.trans (hnode htarget))]

/-- A slice of a node is made up of the slices for the variables that are read there, or, forward,
    written there. The slice for a variable that is only accessed in the other way is the one
    without a variable. -/
theorem mem_slice_iff_exists_var (ha : run config program = .ok a) (sc : SliceConfig)
    (direction : Direction) (includeControl : Bool) {node : Node} (hnode : node ∈ a.system.nodes) :
    ∃ (plain : Slice) (slices : String → Slice),
      (∀ s, Slicer.Serves a.system sc s →
        (s.ask (.slice ⟨.node node.id, none⟩ direction includeControl)).1 = .ok plain ∧
        ∀ v, v ∈ node.uses ∨ v ∈ node.defs →
          (s.ask (.slice ⟨.node node.id, some v⟩ direction includeControl)).1 = .ok (slices v)) ∧
      (node.followed direction ≠ [] → ∀ m, m ∈ plain.nodes ↔
        ∃ v ∈ node.followed direction, m ∈ (slices v).nodes) ∧
      ∀ v, v ∈ node.uses ∨ v ∈ node.defs → v ∉ node.followed direction →
        slices v = { plain with criterion := ⟨.node node.id, some v⟩ } := by
  have hfound := (node?_eq_some_iff ha).2 ⟨hnode, rfl⟩
  have hmem : node.id ∈ a.system.nodeIds := List.mem_map_of_mem hnode
  have hmeans (var : Option String) : a.system.Means ⟨.node node.id, var⟩ node.id := ⟨rfl, hmem⟩
  obtain ⟨plain, hplain, hcovers⟩ := Query.answer_ok sc direction includeControl (hmeans none)
    SystemGraph.mentions_none
  have : Nonempty Slice := ⟨plain⟩
  -- one slice for each variable that the node accesses
  choose! slices hslices hcoversVar using fun v (hv : v ∈ node.uses ∨ v ∈ node.defs) =>
    Query.answer_ok sc direction includeControl (hmeans (some v)) (SystemGraph.mentions_node hfound hv)
  have htouched {v : String} (hv : v ∈ node.followed direction) : v ∈ node.uses ∨ v ∈ node.defs := by
    cases direction
    exacts [.inl hv, .inr hv]
  refine ⟨plain, slices, fun s hs => ⟨?_, fun v hv => ?_⟩, fun hne m => ⟨?_, ?_⟩, fun v hv hfree => ?_⟩
  · rw [hs.ask_eq, hplain]
    rfl
  · rw [hs.ask_eq, hslices v hv]
    rfl
  · exact hcovers.exists_slice (accesses ha) hfound hne fun v hv => hcoversVar v (htouched hv)
  · rintro ⟨v, hv, hm⟩
    exact (hcoversVar v (htouched hv)).nodes_mono hcovers (fun _ _ _ => .without_var) hm
  · exact Query.answer_slice_of_not_followed hfound hmem hv hfree hplain (hslices v hv)

/-- A loop that adds one parameter to the other one. -/
def adding : Program where
  types := [⟨⟨0⟩, "T", []⟩]
  callables :=
    [{ id := ⟨0⟩, name := "f", kind := .method, owner := ⟨0⟩, signature := ⟨"f", ["int", "int"]⟩
       isStatic := true, params := [⟨"x", .byValue⟩, ⟨"z", .byValue⟩], returnsValue := false
       body := some [.whileLoop ⟨⟨0⟩, "while (z)", none⟩ ⟨[], ["z"], [], []⟩
         [.simple ⟨⟨1⟩, "x = x + z", none⟩ ⟨["x"], ["x", "z"], [], []⟩]]
       span := none }]

/-- What the sum depends on it depends on by `x` or by `z`, and it depends on the parameter `x` by
    `x` only, although it comes back to itself. -/
theorem adding_slice : ∃ (a : Analysis) (plain forX forZ : Slice) (s : Slicer),
    run (.ofPreset .thorough) adding = .ok a ∧ Slicer.Serves a.system (.ofPreset .thorough) s ∧
      (s.ask (.slice ⟨.node ⟨5⟩, none⟩ .backward true)).1 = .ok plain ∧
      (s.ask (.slice ⟨.node ⟨5⟩, some "x"⟩ .backward true)).1 = .ok forX ∧
      (s.ask (.slice ⟨.node ⟨5⟩, some "z"⟩ .backward true)).1 = .ok forZ ∧
      (∀ m, m ∈ plain.nodes ↔ m ∈ forX.nodes ∨ m ∈ forZ.nodes) ∧
      ⟨2⟩ ∈ plain.nodes ∧ ⟨2⟩ ∉ forZ.nodes := by
  obtain ⟨a, ha, ⟨node, hnode, hid, huses⟩, hplain, hforZ⟩ : ∃ a,
      run (.ofPreset .thorough) adding = .ok a ∧
        (∃ node ∈ a.system.nodes, node.id = ⟨5⟩ ∧ node.uses = ["x", "z"]) ∧
        (({ graph := a.system, config := .ofPreset .thorough } : Slicer).ask
          (.slice ⟨.node ⟨5⟩, none⟩ .backward true)).1.toOption.any
            (fun slice => decide (⟨2⟩ ∈ slice.nodes)) = true ∧
        (({ graph := a.system, config := .ofPreset .thorough } : Slicer).ask
          (.slice ⟨.node ⟨5⟩, some "z"⟩ .backward true)).1.toOption.any
            (fun slice => decide (⟨2⟩ ∉ slice.nodes)) = true :=
    SystemGraph.exists_ok_of_any (by cbv)
  have hserves : Slicer.Serves a.system (.ofPreset .thorough)
      { graph := a.system, config := .ofPreset .thorough } := .new rfl
  obtain ⟨plain, slices, hasked, hunion, -⟩ :=
    mem_slice_iff_exists_var ha (.ofPreset .thorough) .backward true hnode
  obtain ⟨hasked, haskedVar⟩ := hasked _ hserves
  rw [hid] at hasked haskedVar
  rw [huses] at haskedVar
  rw [Node.followed, huses] at hunion
  have hx := haskedVar "x" (by simp)
  have hz := haskedVar "z" (by simp)
  rw [hasked] at hplain
  rw [hz] at hforZ
  refine ⟨a, plain, slices "x", slices "z", _, ha, hserves, hasked, hx, hz, fun m => ?_,
    of_decide_eq_true hplain, of_decide_eq_true hforZ⟩
  simpa using hunion (by simp) m

end Analysis

end Slicing
