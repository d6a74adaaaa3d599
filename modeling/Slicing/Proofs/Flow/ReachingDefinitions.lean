import Slicing.Flow.ReachingDefinitions
import Slicing.Proofs.Flow.Graph

/-!
# Reaching definitions are found

The worklist ends in the least solution of the equations for the sets of definitions. What a
set holds is always derived by them (`DefinitionFlow.Sound`), and the equations hold at each
position that is not on the worklist (`DefinitionFlow.Settled`), which at the end are all
of them.

In terms of nodes, a definition reaches a node if there is a way from the one to the other
along edges, on which no node in between writes the variable (`FlowGraph.Carries`). The data
dependences are just the reads and writes of a variable that are joined by such ways
(`FlowGraph.mem_dependences_iff`).
-/

namespace Slicing

variable {n : Nat}

namespace DefinitionTransfer

variable {t : DefinitionTransfer n} {leaving leaving' : List (DefinitionSet n)} {i : Nat}

/-- A definition reaches a position if it leaves one that leads there. -/
theorem getLsbD_reaching : (t.reaching leaving).getLsbD i = true ↔
    ∃ source ∈ t.sources, (leaving.getD source 0).getLsbD i = true := by
  have key (sources : List Nat) (s : DefinitionSet n) :
      (sources.foldl (fun s source => s ||| leaving.getD source 0) s).getLsbD i = true ↔
        s.getLsbD i = true ∨ ∃ source ∈ sources, (leaving.getD source 0).getLsbD i = true := by
    induction sources generalizing s with
    | nil => simp
    | cons source sources ih =>
      rw [List.foldl_cons, ih, BitVec.getLsbD_or, Bool.or_eq_true, List.exists_mem_cons_iff, or_assoc]
  rw [reaching, key]
  simp

/-- What reaches a position depends on what leaves those that lead there. -/
theorem reaching_congr
    (h : ∀ source ∈ t.sources, leaving'.getD source 0 = leaving.getD source 0) :
    t.reaching leaving' = t.reaching leaving := by
  refine BitVec.eq_of_getLsbD_eq fun i _ => ?_
  rw [Bool.eq_iff_iff, getLsbD_reaching, getLsbD_reaching]
  exact exists_congr fun source => and_congr_right fun hs => by rw [h source hs]

/-- A definition leaves a position if it is made there, or comes there and is not overwritten. -/
theorem getLsbD_apply {s : DefinitionSet n} (hi : i < n) : (t.apply s).getLsbD i = true ↔
    t.made.getLsbD i = true ∨ s.getLsbD i = true ∧ t.overwritten.getLsbD i = false := by
  simp [apply, hi]

end DefinitionTransfer

/-! ## The worklist -/

namespace DefinitionFlow

variable {transfer : Nat → DefinitionTransfer n} {worklist : List Nat} {f : DefinitionFlow n}
  {size i v w : Nat}

/-- The equations let a definition leave a position. -/
inductive Leaves (transfer : Nat → DefinitionTransfer n) (i : Nat) : Nat → Prop
  | made {v : Nat} : (transfer v).made.getLsbD i = true → Leaves transfer i v
  | passed {v source : Nat} : Leaves transfer i source → source ∈ (transfer v).sources →
      (transfer v).overwritten.getLsbD i = false → Leaves transfer i v

/-- The equations let a definition reach a position. -/
def Arrives (transfer : Nat → DefinitionTransfer n) (i v : Nat) : Prop :=
  ∃ source ∈ (transfer v).sources, Leaves transfer i source

/-- The sets hold nothing but what the equations derive. -/
structure Sound (transfer : Nat → DefinitionTransfer n) (f : DefinitionFlow n) : Prop where
  leaving : ∀ v, ∀ i < n, (f.leaving.getD v 0).getLsbD i = true → Leaves transfer i v
  reaching : ∀ v, ∀ i < n, (f.reaching.getD v 0).getLsbD i = true → Arrives transfer i v

/-- The equations hold at the positions that are not on the worklist. -/
structure Settled (transfer : Nat → DefinitionTransfer n) (size : Nat) (worklist : List Nat)
    (f : DefinitionFlow n) : Prop where
  reaching_length : f.reaching.length = size
  leaving_length : f.leaving.length = size
  reaching : ∀ v < size, v ∉ worklist → f.reaching.getD v 0 = (transfer v).reaching f.leaving
  leaving : ∀ v < size, v ∉ worklist → ∀ i < n,
    ((transfer v).apply ((transfer v).reaching f.leaving)).getLsbD i = true →
      (f.leaving.getD v 0).getLsbD i = true

/-- A position is on the worklist if it was, or has been added. -/
theorem mem_enqueue {positions : List Nat} :
    w ∈ enqueue worklist positions ↔ w ∈ worklist ∨ w ∈ positions := by
  induction positions generalizing worklist with
  | nil => simp [enqueue]
  | cons v positions ih =>
    change w ∈ enqueue (if v ∈ worklist then worklist else worklist ++ [v]) positions ↔ _
    rw [ih]
    split <;> simp <;> grind

/-- One set of a list has been replaced. -/
theorem getD_set {sets : List (DefinitionSet n)} {s : DefinitionSet n} (w : Nat) :
    (sets.set v s).getD w 0 = if v = w ∧ v < sets.length then s else sets.getD w 0 := by
  rw [List.getD_eq_getElem?_getD, List.getD_eq_getElem?_getD, List.getElem?_set]
  grind

/-! ### Soundness -/

/-- What the equations ask for at a position is derived by them. -/
theorem Sound.arrives (hf : f.Sound transfer) (hi : i < n)
    (h : ((transfer v).reaching f.leaving).getLsbD i = true) : Arrives transfer i v := by
  obtain ⟨source, hsource, hleaving⟩ := DefinitionTransfer.getLsbD_reaching.1 h
  exact ⟨source, hsource, hf.leaving source i hi hleaving⟩

/-- What a position passes on leaves it by the equations. -/
theorem Sound.leaves (hf : f.Sound transfer) (hi : i < n)
    (h : ((transfer v).apply ((transfer v).reaching f.leaving)).getLsbD i = true) :
    Leaves transfer i v := by
  rcases (DefinitionTransfer.getLsbD_apply hi).1 h with hmade | ⟨hreaching, hkept⟩
  · exact .made hmade
  · obtain ⟨source, hsource, hleaves⟩ := hf.arrives hi hreaching
    exact .passed hleaves hsource hkept

/-- A visit of a position keeps the sets sound. -/
theorem Sound.visit (hf : f.Sound transfer) (visits : Nat) :
    Sound transfer ⟨f.reaching.set v ((transfer v).reaching f.leaving), f.leaving, visits⟩ where
  leaving := hf.leaving
  reaching w i hi h := by
    dsimp only at h
    rw [getD_set] at h
    split at h
    · rename_i heq
      exact heq.1 ▸ hf.arrives hi h
    · exact hf.reaching w i hi h

/-- A position has been visited, and the sets hold nothing else. -/
theorem Sound.grow (hf : f.Sound transfer) {before : DefinitionSet n}
    (hv : f.leaving[v]? = some before) (reaching : List (DefinitionSet n))
    (hreaching : ∀ w, ∀ i < n, (reaching.getD w 0).getLsbD i = true → Arrives transfer i w)
    (visits : Nat) :
    Sound transfer ⟨reaching,
      f.leaving.set v (before ||| (transfer v).apply ((transfer v).reaching f.leaving)), visits⟩ where
  reaching := hreaching
  leaving w i hi h := by
    dsimp only at h
    rw [getD_set] at h
    split at h
    · rename_i heq
      rw [BitVec.getLsbD_or, Bool.or_eq_true] at h
      rw [← heq.1]
      rcases h with h | h
      · refine hf.leaving v i hi ?_
        rwa [List.getD_eq_getElem?_getD, hv]
      · exact hf.leaves hi h
    · exact hf.leaving w i hi h

/-- The sets stay sound until the worklist is empty. -/
theorem Sound.solve (worklist : List Nat) (hf : f.Sound transfer) :
    (DefinitionFlow.solve transfer worklist f).Sound transfer := by
  fun_induction DefinitionFlow.solve transfer worklist f with
  | case1 => exact hf
  | case2 f v worklist t reaching f' hv ih => exact ih (hf.visit _)
  | case3 f v worklist t reaching f' before hv hgrows ih =>
    exact ih (hf.grow hv _ (hf.visit (f.visits + 1)).reaching _)
  | case4 f v worklist t reaching f' before hv hstays ih => exact ih (hf.visit _)

/-! ### Completeness -/

/-- A visit of a position settles it, if its set need not grow. -/
theorem Settled.visit (hf : f.Settled transfer size (v :: worklist))
    (hstays : v < size → ∀ i < n,
      ((transfer v).apply ((transfer v).reaching f.leaving)).getLsbD i = true →
        (f.leaving.getD v 0).getLsbD i = true) (visits : Nat) :
    Settled transfer size worklist
      ⟨f.reaching.set v ((transfer v).reaching f.leaving), f.leaving, visits⟩ where
  reaching_length := by rw [List.length_set, hf.reaching_length]
  leaving_length := hf.leaving_length
  reaching w hw hmem := by
    dsimp only
    rw [getD_set]
    split
    · rename_i heq
      rw [heq.1]
    · rename_i hne
      refine hf.reaching w hw fun hcons => ?_
      rcases List.mem_cons.1 hcons with rfl | hcons
      · exact hne ⟨rfl, hf.reaching_length.symm ▸ hw⟩
      · exact hmem hcons
  leaving w hw hmem := by
    by_cases heq : w = v
    · subst heq
      exact hstays hw
    · exact hf.leaving w hw fun hcons => (List.mem_cons.1 hcons).elim heq hmem

/-- A visit at which a set grows settles the position as well. The positions behind it are on
    the worklist then, and for the others nothing changes. -/
theorem Settled.grow (hlink : ∀ v w, v ∈ (transfer w).sources → w ∈ (transfer v).targets)
    (hf : f.Settled transfer size (v :: worklist)) {before : DefinitionSet n}
    (hv : f.leaving[v]? = some before) (visits : Nat) :
    Settled transfer size (enqueue worklist (transfer v).targets)
      ⟨f.reaching.set v ((transfer v).reaching f.leaving),
        f.leaving.set v (before ||| (transfer v).apply ((transfer v).reaching f.leaving)), visits⟩ := by
  have hlt : v < f.leaving.length := (List.getElem?_eq_some_iff.1 hv).1
  -- what is not enqueued has no source that has grown
  have hsame (w : Nat) (hw : w ∉ enqueue worklist (transfer v).targets) :
      (transfer w).reaching
          (f.leaving.set v (before ||| (transfer v).apply ((transfer v).reaching f.leaving))) =
        (transfer w).reaching f.leaving := by
    refine DefinitionTransfer.reaching_congr fun source hsource => ?_
    rw [getD_set, if_neg]
    rintro ⟨rfl, -⟩
    exact hw (mem_enqueue.2 (.inr (hlink _ _ hsource)))
  have hold (w : Nat) (hne : w ≠ v) (hw : w ∉ enqueue worklist (transfer v).targets) :
      w ∉ v :: worklist := fun hcons =>
    (List.mem_cons.1 hcons).elim hne fun hmem => hw (mem_enqueue.2 (.inl hmem))
  constructor
  · rw [List.length_set, hf.reaching_length]
  · rw [List.length_set, hf.leaving_length]
  · intro w hw hmem
    dsimp only
    rw [hsame w hmem, getD_set]
    split
    · rename_i heq
      rw [heq.1]
    · rename_i hne
      refine hf.reaching w hw (hold w (fun heq => hne ⟨heq.symm, ?_⟩) hmem)
      rw [hf.reaching_length, ← hf.leaving_length]
      exact hlt
  · intro w hw hmem i hi h
    dsimp only at h ⊢
    rw [hsame w hmem] at h
    rw [getD_set]
    split
    · rename_i heq
      rw [BitVec.getLsbD_or, Bool.or_eq_true]
      exact .inr (heq.1 ▸ h)
    · rename_i hne
      exact hf.leaving w hw (hold w (fun heq => hne ⟨heq.symm, hlt⟩) hmem) i hi h

/-- At the end all positions are settled. -/
theorem Settled.solve (hlink : ∀ v w, v ∈ (transfer w).sources → w ∈ (transfer v).targets)
    (hf : f.Settled transfer size worklist) :
    (DefinitionFlow.solve transfer worklist f).Settled transfer size [] := by
  fun_induction DefinitionFlow.solve transfer worklist f with
  | case1 => exact hf
  | case2 f v worklist t reaching f' hv ih =>
    have hbeyond : ¬v < size := by
      rw [← hf.leaving_length]
      exact Nat.not_lt.2 (List.getElem?_eq_none_iff.1 hv)
    exact ih (hf.visit (fun hlt => absurd hlt hbeyond) _)
  | case3 f v worklist t reaching f' before hv hgrows ih => exact ih (hf.grow hlink hv _)
  | case4 f v worklist t reaching f' before hv hstays ih =>
    refine ih (hf.visit (fun _ i hi h => ?_) _)
    rw [List.getD_eq_getElem?_getD, hv, Option.getD_some, ← Decidable.not_not.1 hstays,
      BitVec.getLsbD_or, Bool.or_eq_true]
    exact .inr h

/-- Where the equations hold everywhere, the sets hold all that they derive. -/
theorem Settled.mem_leaving (hf : f.Settled transfer size [])
    (hrange : ∀ v, ∀ source ∈ (transfer v).sources, source < size) (hi : i < n)
    (h : Leaves transfer i v) (hv : v < size) : (f.leaving.getD v 0).getLsbD i = true := by
  induction h with
  | made hmade =>
    exact hf.leaving _ hv List.not_mem_nil i hi
      ((DefinitionTransfer.getLsbD_apply hi).2 (.inl hmade))
  | passed _ hsource hkept ih =>
    have hreaching := DefinitionTransfer.getLsbD_reaching.2 ⟨_, hsource, ih (hrange _ _ hsource)⟩
    exact hf.leaving _ hv List.not_mem_nil i hi
      ((DefinitionTransfer.getLsbD_apply hi).2 (.inr ⟨hreaching, hkept⟩))

/-- The worklist, started with all positions, finds just what the equations derive. -/
theorem mem_solve_iff (hlink : ∀ v w, v ∈ (transfer w).sources → w ∈ (transfer v).targets)
    (hrange : ∀ v, ∀ source ∈ (transfer v).sources, source < size) (hsound : f.Sound transfer)
    (hsettled : f.Settled transfer size worklist) (hi : i < n) (hv : v < size) :
    ((solve transfer worklist f).reaching.getD v 0).getLsbD i = true ↔ Arrives transfer i v := by
  have hfinal := hsettled.solve hlink
  refine ⟨(hsound.solve worklist).reaching v i hi, ?_⟩
  rintro ⟨source, hsource, hleaves⟩
  rw [hfinal.reaching v hv List.not_mem_nil, DefinitionTransfer.getLsbD_reaching]
  exact ⟨source, hsource, hfinal.mem_leaving hrange hi hleaves (hrange v source hsource)⟩

end DefinitionFlow

/-! ## Definitions -/

namespace FlowGraph

variable {g : FlowGraph} {d : Definition} {var : String} {p v : Nat} {x y : NodeId}

theorem nodes_getElem? (hp : p < g.size) : g.nodes[p]? = some (g.nodeAt p) := by
  rw [nodeAt, List.getD_eq_getElem?_getD, List.getElem?_eq_getElem hp]
  rfl

/-- The definitions are those of the variables that the nodes write. -/
theorem mem_definitions_iff : d ∈ g.definitions ↔
    d.position < g.size ∧ d.node = g.idAt d.position ∧ d.var ∈ (g.nodeAt d.position).defs := by
  simp only [definitions, List.mem_flatMap, List.mem_map, List.mem_eraseDups, Prod.exists,
    List.mem_zipIdx_iff_getElem?]
  constructor
  · rintro ⟨node, p, hnode, var, hvar, rfl⟩
    obtain ⟨hlt, rfl⟩ := List.getElem?_eq_some_iff.1 hnode
    have hat := nodes_getElem? (g := g) hlt
    rw [hnode] at hat
    refine ⟨hlt, ?_, ?_⟩
    · exact congrArg Node.id (Option.some.inj hat)
    · exact Option.some.inj hat ▸ hvar
  · rintro ⟨hlt, hid, hvar⟩
    refine ⟨g.nodeAt d.position, d.position, nodes_getElem? hlt, d.var, hvar, ?_⟩
    rw [← show d.node = (g.nodeAt d.position).id from hid]

/-- A definition is in a set if it has the property. -/
theorem getLsbD_definitionsWith {defs : List Definition} {q : Definition → Bool} {i : Nat}
    (hi : defs[i]? = some d) : (definitionsWith defs q).getLsbD i = q d := by
  simp [definitionsWith, hi]

/-- What a node writes to a variable may be there when control comes to another node: on a way
    from the one to the other no node in between writes the variable. -/
inductive Carries (g : FlowGraph) (var : String) (x : NodeId) : NodeId → Prop
  | edge {y : NodeId} : g.HasEdge x y → Carries g var x y
  | pass {y z : NodeId} : Carries g var x y → (∀ node ∈ g.nodes, node.id = y → var ∉ node.defs) →
      g.HasEdge y z → Carries g var x z

/-- The node with the number of a position is the one there. -/
theorem eq_nodeAt (hn : g.ids.Nodup) {node : Node} (hnode : node ∈ g.nodes) (hp : p < g.size)
    (hid : node.id = g.idAt p) : node = g.nodeAt p := by
  obtain ⟨q, hq, hat⟩ := List.mem_iff_getElem.1 hnode
  have hnodeAt : g.nodeAt q = node := by
    rw [nodeAt, List.getD_eq_getElem?_getD, List.getElem?_eq_getElem hq, hat]
    rfl
  have hpq : q = p := idAt_injective hn hq hp ((congrArg Node.id hnodeAt).trans hid)
  rw [← hnodeAt, hpq]

/-- The positions from which an arc leads to one. -/
theorem mem_transfer_sources {defs : List Definition} {q : Nat} :
    q ∈ (g.transfer defs p).sources ↔ ∃ arc ∈ g.arcs, arc.source = q ∧ arc.target = p := by
  simp only [transfer, arcsInto, List.mem_map, List.mem_filter, beq_iff_eq, and_assoc]
  exact exists_congr fun arc => and_congr_right fun _ => and_comm

/-- The positions to which an arc leads from one. -/
theorem mem_transfer_targets {defs : List Definition} {q : Nat} :
    q ∈ (g.transfer defs p).targets ↔ ∃ arc ∈ g.arcs, arc.source = p ∧ arc.target = q := by
  simp only [transfer, arcsFrom, List.mem_reverse, List.mem_map, List.mem_filter, beq_iff_eq,
    and_assoc]

/-- Between the nodes of neighbouring positions there is an edge. -/
theorem hasEdge_of_mem_sources (hr : g.InRange) (hn : g.ids.Nodup) {defs : List Definition} {q : Nat}
    (hp : p ∈ (g.transfer defs q).sources) : p < g.size ∧ g.HasEdge (g.idAt p) (g.idAt q) := by
  obtain ⟨arc, harc, rfl, rfl⟩ := mem_transfer_sources.1 hp
  obtain ⟨hs, ht⟩ := hr arc harc
  exact ⟨hs, (hasEdge_idAt_iff hr hn hs ht).2 ⟨arc, harc, rfl, rfl⟩⟩

section Equations

variable {i : Nat}

/-- The definitions made at a position are those of its node. -/
theorem getLsbD_made (hi : g.definitions[i]? = some d) :
    (g.transfer g.definitions p).made.getLsbD i = (d.position == p) := getLsbD_definitionsWith hi

/-- The definitions that a position overwrites are those of the variables that its node writes. -/
theorem getLsbD_overwritten (hi : g.definitions[i]? = some d) :
    (g.transfer g.definitions p).overwritten.getLsbD i = false ↔ d.var ∉ (g.nodeAt p).defs := by
  have hover : (g.transfer g.definitions p).overwritten.getLsbD i =
      (g.nodeAt p).defs.contains d.var := getLsbD_definitionsWith hi
  simp [hover]

/-- A definition goes on along an edge from where it is made, or from where it is carried to and
    not overwritten. -/
theorem carries_step (hn : g.ids.Nodup) (hd : d ∈ g.definitions) (hp : p < g.size) {z : NodeId}
    (hstep : g.HasEdge (g.idAt p) z)
    (h : d.position = p ∨ g.Carries d.var d.node (g.idAt p) ∧ d.var ∉ (g.nodeAt p).defs) :
    g.Carries d.var d.node z := by
  rcases h with rfl | ⟨hcarries, hclear⟩
  · exact .edge ((mem_definitions_iff.1 hd).2.1 ▸ hstep)
  · refine hcarries.pass (fun node hnode hid => ?_) hstep
    rwa [eq_nodeAt hn hnode hp hid]

/-- What leaves a position by the equations was made there, or was carried there and not
    overwritten. -/
theorem made_or_carries_of_leaves (hr : g.InRange) (hn : g.ids.Nodup)
    (hi : g.definitions[i]? = some d)
    (h : DefinitionFlow.Leaves (g.transfer g.definitions) i p) :
    d.position = p ∨ g.Carries d.var d.node (g.idAt p) ∧ d.var ∉ (g.nodeAt p).defs := by
  induction h with
  | made h => exact .inl (by simpa [getLsbD_made hi] using h)
  | passed _ hsource hover ih =>
    obtain ⟨hlt, hstep⟩ := hasEdge_of_mem_sources hr hn hsource
    exact .inr ⟨carries_step hn (List.mem_of_getElem? hi) hlt hstep ih, (getLsbD_overwritten hi).1 hover⟩

/-- What is carried to a position reaches it by the equations. -/
theorem Carries.arrives (hr : g.InRange) (hn : g.ids.Nodup) (hi : g.definitions[i]? = some d)
    (hv : v < g.size) (h : g.Carries d.var d.node (g.idAt v)) :
    DefinitionFlow.Arrives (g.transfer g.definitions) i v := by
  obtain ⟨hlt, hid, -⟩ := mem_definitions_iff.1 (List.mem_of_getElem? hi)
  -- each step of the way is one use of the equations
  generalize hy : g.idAt v = y at h
  induction h generalizing v with
  | edge hstep =>
    rw [← hy, hid, hasEdge_idAt_iff hr hn hlt hv] at hstep
    exact ⟨d.position, mem_transfer_sources.2 hstep, .made (by simp [getLsbD_made hi])⟩
  | pass _ hclear hstep ih =>
    obtain ⟨q, hq, rfl⟩ := exists_idAt_of_mem (hstep.mem_left hr)
    obtain ⟨source, hsource, hleave⟩ := ih hq rfl
    rw [← hy, hasEdge_idAt_iff hr hn hq hv] at hstep
    refine ⟨q, mem_transfer_sources.2 hstep, .passed hleave hsource ((getLsbD_overwritten hi).2 ?_)⟩
    exact hclear _ (List.mem_of_getElem? (nodes_getElem? hq)) rfl

/-- The equations, in terms of ways along edges. -/
theorem arrives_iff (hr : g.InRange) (hn : g.ids.Nodup) (hi : g.definitions[i]? = some d)
    (hv : v < g.size) : DefinitionFlow.Arrives (g.transfer g.definitions) i v ↔
      g.Carries d.var d.node (g.idAt v) := by
  constructor
  · rintro ⟨source, hsource, h⟩
    obtain ⟨hlt, hstep⟩ := hasEdge_of_mem_sources hr hn hsource
    exact carries_step hn (List.mem_of_getElem? hi) hlt hstep (made_or_carries_of_leaves hr hn hi h)
  · exact Carries.arrives hr hn hi hv

end Equations

/-- At the start only the definitions of a position leave it, which they do by the equations. -/
theorem sound_initial : DefinitionFlow.Sound (g.transfer g.definitions)
    ⟨g.positions.map fun _ => 0, g.positions.map fun v => (g.transfer g.definitions v).made, 0⟩ := by
  constructor
  · intro v i hi h
    refine .made ?_
    simp only [List.getD_eq_getElem?_getD, List.getElem?_map] at h
    cases hv : g.positions[v]? with
    | none => simp [hv] at h
    | some w =>
      have hw : w = v := by simpa [positions] using (List.getElem?_eq_some_iff.1 hv).2.symm
      simpa [hv, hw] using h
  · intro v i hi h
    simp only [List.getD_eq_getElem?_getD, List.getElem?_map] at h
    cases hv : g.positions[v]? <;> simp [hv] at h

/-- All positions are on the first worklist. -/
theorem settled_initial : DefinitionFlow.Settled (g.transfer g.definitions) g.size g.positions
    ⟨g.positions.map fun _ => 0, g.positions.map fun v => (g.transfer g.definitions v).made, 0⟩ :=
  ⟨by simp [positions], by simp [positions],
    fun _ hv hmem => absurd (List.mem_range.2 hv) hmem,
    fun _ hv hmem => absurd (List.mem_range.2 hv) hmem⟩

/-- The definitions that reach a position are found. -/
theorem mem_reachingAt_iff (hr : g.InRange) (hn : g.ids.Nodup) (hv : v < g.size) :
    d ∈ g.reachingDefinitions.reachingAt v ↔
      d ∈ g.definitions ∧ g.Carries d.var d.node (g.idAt v) := by
  have hfound (i : Nat) (hi : g.definitions[i]? = some d) :
      (g.reachingDefinitions.flow.reaching.getD v 0).getLsbD i = true ↔
        g.Carries d.var d.node (g.idAt v) := by
    refine (DefinitionFlow.mem_solve_iff ?_ ?_ sound_initial settled_initial
      (List.getElem?_eq_some_iff.1 hi).1 hv).trans (arrives_iff hr hn hi hv)
    · intro v w hmem
      exact mem_transfer_targets.2 (mem_transfer_sources.1 hmem)
    · intro v source hmem
      exact (hasEdge_of_mem_sources hr hn hmem).1
  simp only [ReachingDefinitions.reachingAt, List.mem_map, List.mem_filter, Prod.exists,
    List.mem_zipIdx_iff_getElem?]
  constructor
  · rintro ⟨d, i, ⟨hi, hbit⟩, rfl⟩
    exact ⟨List.mem_of_getElem? hi, (hfound i hi).1 hbit⟩
  · rintro ⟨hd, hcarries⟩
    obtain ⟨i, hi⟩ := List.getElem?_of_mem hd
    exact ⟨d, i, ⟨hi, (hfound i hi).2 hcarries⟩, rfl⟩

/-- A node of the graph has a position. -/
theorem exists_position_of_mem {node : Node} (hnode : node ∈ g.nodes) :
    ∃ p < g.size, g.position? node.id = some p ∧ g.idAt p = node.id := by
  obtain ⟨p, hp⟩ := exists_position? (List.mem_map_of_mem (f := (·.id)) hnode)
  obtain ⟨hlt, hid⟩ := idAt_of_position?_eq_some hp
  exact ⟨p, hlt, hp, hid⟩

/-- The data dependences join the writes of a variable with the reads that they are carried to. -/
theorem mem_dependences_iff (hr : g.InRange) (hn : g.ids.Nodup) {x y : NodeId} {var : String} :
    ⟨x, y, var⟩ ∈ g.reachingDefinitions.dependences g ↔
      ∃ source ∈ g.nodes, ∃ target ∈ g.nodes, source.id = x ∧ target.id = y ∧
        var ∈ source.defs ∧ var ∈ target.uses ∧ g.Carries var x y := by
  simp only [ReachingDefinitions.dependences, List.mem_flatMap, List.mem_map, List.mem_filter,
    List.mem_eraseDups, DataDependence.mk.injEq, beq_iff_eq]
  constructor
  · rintro ⟨target, htarget, _, hread, d, ⟨hd, hvar⟩, rfl, rfl, rfl⟩
    obtain ⟨p, hlt, hp, hid⟩ := exists_position_of_mem htarget
    simp only [hp] at hd
    obtain ⟨hdef, hcarries⟩ := (mem_reachingAt_iff hr hn hlt).1 hd
    obtain ⟨hsource, hnode, hwrite⟩ := mem_definitions_iff.1 hdef
    subst hvar
    exact ⟨g.nodeAt d.position, List.mem_of_getElem? (nodes_getElem? hsource), target, htarget,
      hnode.symm, rfl, hwrite, hread, hid ▸ hcarries⟩
  · rintro ⟨source, hsource, target, htarget, rfl, rfl, hwrite, hread, hcarries⟩
    obtain ⟨p, hlt, hp, hid⟩ := exists_position_of_mem htarget
    obtain ⟨q, hq, -, hqid⟩ := exists_position_of_mem hsource
    refine ⟨target, htarget, var, hread, ⟨q, source.id, var⟩, ⟨?_, rfl⟩, rfl, rfl, rfl⟩
    simp only [hp]
    refine (mem_reachingAt_iff hr hn hlt).2 ⟨mem_definitions_iff.2 ⟨hq, hqid.symm, ?_⟩, hid ▸ hcarries⟩
    rwa [← eq_nodeAt hn hsource hq hqid.symm]

end FlowGraph

end Slicing
