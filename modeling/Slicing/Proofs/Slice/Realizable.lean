import Slicing.Proofs.Dependence.Analysis
import Slicing.Proofs.Slice.Shortcut

/-!
# Realizable paths

In two phases a slice holds what influences a node along paths that respect calls: a callee is
left to the call from which it was entered (`Analysis.mem_slice_iff_realizable`).

A path is *realizable* if it is a walk from an empty stack of call sites. There are two ways
between such paths and the edges that the phases follow.

* The edges stand for walks. Summary edges stand for walks that leave what they enter
  (`SystemGraph.Builds.walk_of_edge`).
* A walk falls into parts, one for each call that was entered and not left
  (`SystemGraph.Frames`). When a call is left, its part is replaced by a summary edge if a value
  was handed over. If the callee was entered from the call itself then there is no such edge,
  but what decides about a call decides about what comes out of it, so that the part is not
  needed.
-/

namespace Slicing

open ProcedureGraph Relation

/-- The call site that a node of the kind belongs to. -/
def NodeKind.site? : NodeKind → Option CallSiteId
  | .call site | .actualIn site _ | .actualOut site _ => some site
  | _ => none

namespace SystemGraph

/-- A node influences another one along a walk that has not entered a call before. -/
def Realizable (g : SystemGraph) (m n : NodeId) : Prop :=
  ∃ stack, ReflTransGen g.Walk (m, []) (n, stack)

/-- A node of a kind. -/
def HasKind (g : SystemGraph) (n : NodeId) (kind : NodeKind) : Prop :=
  ∃ node ∈ g.nodes, node.id = n ∧ node.kind = kind

variable {config : SummaryConfig} {h : Hierarchy} {calls : CallGraph} {graphs : List ProcedureGraph}
  {g g₁ : SystemGraph} {u v m n : NodeId} {i j : Invocation}

/-! ## Edges between callables -/

section Crossings

variable (hg : Assembles h calls graphs g) (hsep : Separate graphs)

include hg hsep

/-- A call edge leads from a call to the entry of a callee. -/
theorem Assembles.of_call {site : CallSiteId} (he : ⟨u, v, .call site⟩ ∈ g.edges) :
    ∃ i p, g.MayCall i p ∧ u = i.callNode ∧ v = p.entry := by
  obtain ⟨i, p, hcall, he⟩ := (hg.mem_edges_iff_interface hsep rfl).1 he
  obtain he | ⟨_, _, _, _, _, he⟩ | ⟨_, _, _, _, _, he⟩ := mem_interfaceEdges_iff.1 he <;> cases he
  exact ⟨i, p, hcall, rfl, rfl⟩

/-- An edge for a parameter leads from an actual-in to the formal-in of its position. -/
theorem Assembles.of_parameterIn {position : Nat} (he : ⟨u, v, .parameterIn position⟩ ∈ g.edges) :
    ∃ i p, g.MayCall i p ∧ i.actualIns[position]? = some u ∧ p.formalIns[position]? = some v := by
  obtain ⟨i, p, hcall, he⟩ := (hg.mem_edges_iff_interface hsep rfl).1 he
  obtain he | ⟨_, _, _, ha, hf, he⟩ | ⟨_, _, _, _, _, he⟩ := mem_interfaceEdges_iff.1 he <;> cases he
  exact ⟨i, p, hcall, ha, hf⟩

/-- An edge for a result leads from a formal-out to the actual-out of its slot. -/
theorem Assembles.of_parameterOut {slot : OutputSlot} (he : ⟨u, v, .parameterOut slot⟩ ∈ g.edges) :
    ∃ i p, g.MayCall i p ∧ (slot, v) ∈ i.actualOuts ∧ (slot, u) ∈ p.formalOuts := by
  obtain ⟨i, p, hcall, he⟩ := (hg.mem_edges_iff_interface hsep rfl).1 he
  obtain he | ⟨_, _, _, _, _, he⟩ | ⟨_, _, _, ho, hf, he⟩ := mem_interfaceEdges_iff.1 he <;> cases he
  exact ⟨i, p, hcall, ho, (hg.formalOut?_eq_some_iff hsep hcall.2.1).1 hf⟩

/-- A callee is entered from a call site. -/
theorem Assembles.exists_enters {d : Dependence} (he : ⟨u, v, d⟩ ∈ g.edges)
    (hkind : d.kind = .call ∨ d.kind = .parameterIn) : ∃ site, g.Enters site u v := by
  suffices ∃ site, g.AtSite site u from this.imp fun site hsite => ⟨hsite, d, he, hkind⟩
  cases d with
  | call site =>
    obtain ⟨i, p, hcall, rfl, -⟩ := hg.of_call hsep he
    exact ⟨i.site, i, hcall.1, rfl, .inl rfl⟩
  | parameterIn position =>
    obtain ⟨i, p, hcall, ha, -⟩ := hg.of_parameterIn hsep he
    exact ⟨i.site, i, hcall.1, rfl, .inr (.inl (List.mem_of_getElem? ha))⟩
  | _ => obtain hkind | hkind := hkind <;> cases hkind

/-- A callee is left to a call site. -/
theorem Assembles.exists_returns {slot : OutputSlot} (he : ⟨u, v, .parameterOut slot⟩ ∈ g.edges) :
    ∃ site, g.Returns site u v := by
  obtain ⟨i, p, hcall, ho, -⟩ := hg.of_parameterOut hsep he
  exact ⟨i.site, ⟨i, hcall.1, rfl, .inr (.inr ⟨slot, ho⟩)⟩, slot, he⟩

end Crossings

/-! ## Kinds of nodes -/

section Kinds

variable (hg : Assembles h calls graphs g) (hsep : Separate graphs)

include hg

/-- The nodes of a callable keep their kinds. -/
theorem Assembles.hasKind {p : ProcedureGraph} (hp : p ∈ graphs) {kind : NodeKind}
    (hk : p.HasKind n kind) : g.HasKind n kind := by
  obtain ⟨node, hnode, hid, hkind⟩ := hk
  exact ⟨node, hg.nodes ▸ List.mem_flatMap.2 ⟨p, hp, hnode⟩, hid, hkind⟩

include hsep in
/-- A node has one kind. -/
theorem Assembles.kind_unique {kind kind' : NodeKind} (hk : g.HasKind n kind)
    (hk' : g.HasKind n kind') : kind = kind' := by
  obtain ⟨node, hnode, rfl, rfl⟩ := hk
  obtain ⟨node', hnode', hid, rfl⟩ := hk'
  have hnodup : g.nodeIds.Nodup := hg.nodeIds_eq ▸ hsep.nodes_nodup
  rw [List.inj_on_of_nodup_map hnodup hnode' hnode hid]

variable (hshaped : ∀ p ∈ graphs, p.Shaped)

include hshaped

theorem Assembles.kind_callNode (hi : i ∈ g.invocations) : g.HasKind i.callNode (.call i.site) := by
  obtain ⟨p, hp, nodes, hnodes, rfl⟩ := hg.exists_site hi
  exact hg.hasKind hp ((hshaped p hp).call nodes hnodes)

theorem Assembles.kind_actualOut (hi : i ∈ g.invocations) {slot : OutputSlot}
    (ho : (slot, n) ∈ i.actualOuts) : g.HasKind n (.actualOut i.site slot) := by
  obtain ⟨p, hp, nodes, hnodes, rfl⟩ := hg.exists_site hi
  exact hg.hasKind hp ((hshaped p hp).actualOut nodes hnodes _ ho)

theorem Assembles.kind_actualIn (hi : i ∈ g.invocations) (hn : n ∈ i.actualIns) :
    ∃ position, g.HasKind n (.actualIn i.site position) := by
  obtain ⟨p, hp, nodes, hnodes, rfl⟩ := hg.exists_site hi
  obtain ⟨position, hkind⟩ := (hshaped p hp).actualIn nodes hnodes n hn
  exact ⟨position, hg.hasKind hp hkind⟩

theorem Assembles.kind_entry {p : Procedure} (hp : p ∈ g.procedures) : g.HasKind p.entry .entry := by
  obtain ⟨graph, hgraph, decl, -, rfl⟩ := hg.exists_graph hp
  exact hg.hasKind hgraph (hshaped graph hgraph).entry

theorem Assembles.kind_formalIn {p : Procedure} (hp : p ∈ g.procedures) (hn : n ∈ p.formalIns) :
    ∃ position, g.HasKind n (.formalIn position) := by
  obtain ⟨graph, hgraph, decl, -, rfl⟩ := hg.exists_graph hp
  obtain ⟨position, hkind⟩ := (hshaped graph hgraph).formalIn n hn
  exact ⟨position, hg.hasKind hgraph hkind⟩

/-- The nodes of a call are of kinds that name it. -/
theorem Assembles.kind_site (hi : i ∈ g.invocations) (hn : i.HasNode n) :
    ∃ kind, g.HasKind n kind ∧ kind.site? = some i.site := by
  obtain rfl | hn | ⟨slot, hn⟩ := hn
  · exact ⟨_, hg.kind_callNode hshaped hi, rfl⟩
  · obtain ⟨position, hkind⟩ := hg.kind_actualIn hshaped hi hn
    exact ⟨_, hkind, rfl⟩
  · exact ⟨_, hg.kind_actualOut hshaped hi hn, rfl⟩

include hsep

/-- A node belongs to one call. -/
theorem Assembles.site_unique (hi : i ∈ g.invocations) (hn : i.HasNode n) {site : CallSiteId}
    (hsite : g.AtSite site n) : i.site = site := by
  obtain ⟨j, hj, rfl, hn'⟩ := hsite
  obtain ⟨kind, hkind, hi⟩ := hg.kind_site hshaped hi hn
  obtain ⟨kind', hkind', hj⟩ := hg.kind_site hshaped hj hn'
  rw [hg.kind_unique hsep hkind hkind', hj] at hi
  exact (Option.some.inj hi).symm

/-- No callee is entered at a call. -/
theorem Assembles.ne_callNode {d : Dependence} (he : ⟨u, v, d⟩ ∈ g.edges)
    (hkind : d.kind = .call ∨ d.kind = .parameterIn) (hj : j ∈ g.invocations) : v ≠ j.callNode := by
  rintro rfl
  have hcall := hg.kind_callNode hshaped hj
  cases d with
  | call site =>
    obtain ⟨i, p, ⟨-, hp, -⟩, -, hentry⟩ := hg.of_call hsep he
    cases hg.kind_unique hsep hcall (hentry ▸ hg.kind_entry hshaped hp)
  | parameterIn position =>
    obtain ⟨i, p, ⟨-, hp, -⟩, -, hf⟩ := hg.of_parameterIn hsep he
    obtain ⟨_, hformal⟩ := hg.kind_formalIn hshaped hp (List.mem_of_getElem? hf)
    cases hg.kind_unique hsep hcall hformal
  | _ => obtain hkind | hkind := hkind <;> cases hkind

/-- What a call depends on decides about it. -/
theorem Assembles.control_of_callNode (hlocal : Local graphs g) (hi : i ∈ g.invocations)
    {d : Dependence} (he : ⟨u, i.callNode, d⟩ ∈ g.edges) : d = .control := by
  have hcall := hg.kind_callNode hshaped hi
  cases d with
  | control => rfl
  | data var =>
    -- a call reads no variable
    obtain ⟨q, hq, he⟩ := (hg.mem_edges_iff hsep (.inr ⟨var, rfl⟩)).1 he
    obtain ⟨p, hp, nodes, hnodes, rfl⟩ := hg.exists_site hi
    obtain rfl := hsep.eq_of_node hp hq ((hshaped p hp).call nodes hnodes).mem
      ((hsep.wellFormed q hq).target_mem _ he)
    exact (hshaped p hp).data _ he nodes hnodes rfl
  | call site => exact absurd rfl (hg.ne_callNode hsep hshaped he (.inl rfl) hi)
  | parameterIn position => exact absurd rfl (hg.ne_callNode hsep hshaped he (.inr rfl) hi)
  | parameterOut slot =>
    obtain ⟨j, p, ⟨hj, -⟩, ho, -⟩ := hg.of_parameterOut hsep he
    cases hg.kind_unique hsep hcall (hg.kind_actualOut hshaped hj ho)
  | summary site =>
    obtain ⟨j, hj, -, -, slot, ho⟩ := hlocal.across _ _ _ (mem_summaries_iff.2 he)
    cases hg.kind_unique hsep hcall (hg.kind_actualOut hshaped hj ho)

/-- What decides about a call decides about what comes out of it, or the call does. -/
theorem Assembles.control_actualOut (hi : i ∈ g.invocations) {slot : OutputSlot} {o : NodeId}
    (ho : (slot, o) ∈ i.actualOuts) (hne : u ≠ i.callNode)
    (he : ⟨u, i.callNode, .control⟩ ∈ g.edges) :
    ⟨u, o, .control⟩ ∈ g.edges ∨ ⟨i.callNode, o, .control⟩ ∈ g.edges := by
  obtain ⟨q, hq, he⟩ := (hg.mem_edges_iff hsep (.inl rfl)).1 he
  obtain ⟨p, hp, nodes, hnodes, rfl⟩ := hg.exists_site hi
  obtain rfl := hsep.eq_of_node hp hq ((hshaped p hp).call nodes hnodes).mem
    ((hsep.wellFormed q hq).target_mem _ he)
  have hedge {e : DependenceEdge} (hd : e.dependence = .control) (he : e ∈ p.edges) : e ∈ g.edges :=
    (hg.mem_edges_iff hsep (.inl hd)).2 ⟨p, hp, he⟩
  exact ((hshaped p hp).control nodes hnodes _ ho u hne he).imp (hedge rfl) (hedge rfl)

/-- What a path leads to before it comes to a call it leads to after it. -/
theorem Assembles.reach_actualOut (hlocal : Local graphs g) {R : NodeId → NodeId → Prop}
    (hedge : ∀ u v, R u v → ∃ d, ⟨u, v, d⟩ ∈ g.edges)
    (hcontrol : ∀ u v, ⟨u, v, .control⟩ ∈ g.edges → R u v) (hi : i ∈ g.invocations)
    {slot : OutputSlot} {o : NodeId} (ho : (slot, o) ∈ i.actualOuts) (hne : u ≠ i.callNode)
    (hreach : ReflTransGen R u i.callNode) : ReflTransGen R u o := by
  suffices ∀ v, ReflTransGen R u v → v = i.callNode → ReflTransGen R u o from this _ hreach rfl
  intro v hreach
  induction hreach with
  | refl => exact fun heq => absurd heq hne
  | @tail w v hreach hstep ih =>
    rintro rfl
    -- a call may decide about itself, so what counts is the last step to it from elsewhere
    by_cases hw : w = i.callNode
    · exact ih hw
    · obtain ⟨d, he⟩ := hedge _ _ hstep
      obtain rfl := hg.control_of_callNode hsep hshaped hlocal hi he
      obtain hdirect | hthrough := hg.control_actualOut hsep hshaped hi ho hw he
      · exact hreach.tail (hcontrol _ _ hdirect)
      · exact (hreach.tail hstep).tail (hcontrol _ _ hthrough)

end Kinds

/-! ## Walks for what the phases follow -/

/-- An edge within a callable or out of one, as the second phase follows it. -/
def Outward (g : SystemGraph) (u v : NodeId) : Prop :=
  ∃ d, ⟨u, v, d⟩ ∈ g.edges ∧ ¬d.Ascends .backward

/-- An edge within a callable or into one, as the first phase follows it. -/
def Inward (g : SystemGraph) (u v : NodeId) : Prop :=
  ∃ d, ⟨u, v, d⟩ ∈ g.edges ∧ ¬d.Descends .backward

/-- A step within a callable is followed in the second phase. -/
theorem LocalStep.outward (hstep : g.LocalStep g.summaries u v) : g.Outward u v := by
  obtain ⟨d, he, rfl | ⟨var, rfl⟩⟩ | ⟨site, he⟩ := hstep
  · exact ⟨_, he, id⟩
  · exact ⟨_, he, id⟩
  · exact ⟨_, mem_summaries_iff.1 he, id⟩

/-- A step within a callable is followed in the first phase. -/
theorem LocalStep.inward (hstep : g.LocalStep g.summaries u v) : g.Inward u v := by
  obtain ⟨d, he, rfl | ⟨var, rfl⟩⟩ | ⟨site, he⟩ := hstep
  · exact ⟨_, he, id⟩
  · exact ⟨_, he, id⟩
  · exact ⟨_, mem_summaries_iff.1 he, id⟩

/-- A step into a callee is followed in the first phase. -/
theorem Enters.inward {site : CallSiteId} (henter : g.Enters site u v) : g.Inward u v := by
  obtain ⟨-, d, he, hkind⟩ := henter
  cases d with
  | call | parameterIn => exact ⟨_, he, id⟩
  | _ => obtain hkind | hkind := hkind <;> cases hkind

/-- A step out of a callee is followed in the second phase. -/
theorem Returns.outward {site : CallSiteId} (hreturn : g.Returns site u v) : g.Outward u v := by
  obtain ⟨-, slot, he⟩ := hreturn
  exact ⟨.parameterOut slot, he, id⟩

section Walks

variable (hsep : Separate graphs) (hb : Builds config h calls graphs g₁ g)

include hsep hb

/-- The second phase follows walks that leave callables only. -/
theorem Builds.walk_of_outward (hreach : ReflTransGen g.Outward m n) :
    ReflTransGen g.Walk (m, []) (n, []) := by
  refine ReflTransGen.lift' (·, []) (fun u v hstep => ?_) _ _ hreach
  obtain ⟨d, he, hd⟩ := hstep
  cases d with
  | control | data | summary => exact hb.walk_of_edge hsep he rfl []
  | call | parameterIn => exact absurd trivial hd
  | parameterOut slot =>
    obtain ⟨site, hreturn⟩ := hb.assembles.exists_returns hsep he
    exact .single (.leave hreturn)

/-- The first phase follows walks that enter callables only. -/
theorem Builds.walk_of_inward (hreach : ReflTransGen g.Inward m n) (stack : List CallSiteId) :
    ∃ stack', ReflTransGen g.Walk (m, stack) (n, stack') := by
  induction hreach with
  | refl => exact ⟨stack, .refl⟩
  | @tail u v _ hstep ih =>
    obtain ⟨stack', hwalk⟩ := ih
    obtain ⟨d, he, hd⟩ := hstep
    cases d with
    | control | data | summary => exact ⟨stack', hwalk.trans (hb.walk_of_edge hsep he rfl stack')⟩
    | call | parameterIn =>
      obtain ⟨site, henter⟩ := hb.assembles.exists_enters hsep he (by simp [Dependence.kind])
      exact ⟨site :: stack', hwalk.tail (.enter henter)⟩
    | parameterOut slot => exact absurd trivial hd

/-- What is found in two phases influences the node along a realizable path. -/
theorem Builds.realizable_of_phases
    (hphases : ∃ k, ReflTransGen g.Outward m k ∧ ReflTransGen g.Inward k n) : g.Realizable m n := by
  obtain ⟨k, hout, hin⟩ := hphases
  obtain ⟨stack, hwalk⟩ := hb.walk_of_inward hsep hin []
  exact ⟨stack, (hb.walk_of_outward hsep hout).trans hwalk⟩

end Walks

/-! ## Phases for walks -/

/-- What is left of a walk if each call that was entered and left is replaced by edges within
    the caller: a part that leaves callables, and a part within a callee for each call on the
    stack. -/
inductive Frames (g : SystemGraph) (m : NodeId) : NodeId → List CallSiteId → Prop
  | base {n : NodeId} : ReflTransGen g.Outward m n → Frames g m n []
  | push {u v n : NodeId} {site : CallSiteId} {stack : List CallSiteId} : Frames g m u stack →
      g.Enters site u v → ReflTransGen (g.LocalStep g.summaries) v n → Frames g m n (site :: stack)

variable {stack : List CallSiteId}

/-- A step within a callable leaves the stack. -/
theorem Frames.stay (hf : g.Frames m u stack) (hstep : g.LocalStep g.summaries u v) :
    g.Frames m v stack := by
  cases hf with
  | base hreach => exact .base (hreach.tail hstep.outward)
  | push hbelow henter hreach => exact .push hbelow henter (hreach.tail hstep)

/-- What is left of a walk is followed by the phases. -/
theorem Frames.exists_phases (hf : g.Frames m n stack) :
    ∃ k, ReflTransGen g.Outward m k ∧ ReflTransGen g.Inward k n := by
  induction hf with
  | base hreach => exact ⟨_, hreach, .refl⟩
  | push _ henter hreach ih =>
    obtain ⟨k, hout, hin⟩ := ih
    exact ⟨k, hout, (hin.tail henter.inward).trans (ReflTransGen.mono (fun _ _ => LocalStep.inward) _ _ hreach)⟩

section Returning

variable (hsep : Separate graphs) (hb : Builds config h calls graphs g₁ g)
  (henabled : config.enabled = true)

include hsep hb

/-- Edges within callables lead to nodes of the same callable. -/
theorem Builds.owns_of_reach {c : CallableId} (howns : Owns graphs c u)
    (hreach : ReflTransGen (g.LocalStep g.summaries) u v) : Owns graphs c v := by
  induction hreach with
  | refl => exact howns
  | tail _ hstep ih =>
    obtain ⟨c', hu, hv⟩ := hb.isLocal.owns_of_step hstep
    obtain rfl := hu.unique hsep ih
    exact hv

variable (hshaped : ∀ p ∈ graphs, p.Shaped)

include hshaped

/-- A call that is reached was reached by what decides about what comes out of it. -/
theorem Builds.frames_actualOut (hm : ∀ j ∈ g.invocations, m ≠ j.callNode) (hi : i ∈ g.invocations)
    {slot : OutputSlot} {o : NodeId} (ho : (slot, o) ∈ i.actualOuts)
    (hf : g.Frames m i.callNode stack) : g.Frames m o stack := by
  have hlocal := hb.isLocal
  have hcontrol (u v : NodeId) (he : ⟨u, v, .control⟩ ∈ g.edges) : g.LocalStep g.summaries u v :=
    .inl ⟨_, he, .inl rfl⟩
  -- neither the walk nor its part in a callee starts at a call
  cases hf with
  | base hreach =>
    refine .base (hb.assembles.reach_actualOut hsep hshaped hlocal ?_ ?_ hi ho (hm i hi) hreach)
    · exact fun u v ⟨d, he, _⟩ => ⟨d, he⟩
    · exact fun u v he => (hcontrol u v he).outward
  | push hbelow henter hreach =>
    obtain ⟨-, d, he, hkind⟩ := id henter
    refine .push hbelow henter (hb.assembles.reach_actualOut hsep hshaped hlocal ?_ hcontrol hi ho
      (hb.assembles.ne_callNode hsep hshaped he hkind hi) hreach)
    intro u v hstep
    obtain ⟨d, he, -⟩ := localStep_iff.1 hstep
    exact ⟨d, he⟩

variable (hbodies : ∀ p ∈ g.procedures, p.hasBody = false → p.formalIns = [])

include henabled hbodies

/-- A value that was handed over at a call and reaches a node which returns to the call passes
    through it. -/
theorem Builds.summary_of_returns {p : Procedure} (hcall : g.MayCall i p) {position : Nat}
    {a formalIn formalOut o : NodeId} (ha : i.actualIns[position]? = some a)
    (hin : p.formalIns[position]? = some formalIn)
    (hreach : ReflTransGen (g.LocalStep g.summaries) formalIn formalOut)
    (hreturn : g.Returns i.site formalOut o) : g.LocalStep g.summaries a o := by
  obtain ⟨hi, hp, htarget⟩ := hcall
  obtain ⟨hsite, slot, he⟩ := hreturn
  obtain ⟨j, q, ⟨hj, hq, -⟩, ho, hout⟩ := hb.assembles.of_parameterOut hsep he
  -- it is the same call, and the same callee
  have hsite : j.site = i.site := hb.assembles.site_unique hsep hshaped hj (.inr (.inr ⟨slot, ho⟩)) hsite
  obtain rfl := hb.assembles.eq_of_site hj hi hsite
  have hcallable : q.callable = p.callable :=
    (hb.assembles.owns_formalOut hsep hq hout).unique hsep (hb.owns_of_reach hsep
      (hb.assembles.owns_formalIn hsep hp (List.mem_of_getElem? hin)) hreach)
  have hprocedure := (hb.assembles.procedure?_eq_some_iff hsep).2 ⟨hp, rfl⟩
  obtain rfl : p = q := Option.some.inj
    (hprocedure.symm.trans ((hb.assembles.procedure?_eq_some_iff hsep).2 ⟨hq, hcallable⟩))
  have hbody : p.hasBody = true := by
    by_contra hbody
    rw [hbodies p hp (by simpa using hbody)] at hin
    cases hin
  have hactual : j.actualOut? slot = some o := by
    obtain ⟨graph, hgraph, nodes, hnodes, rfl⟩ := hb.assembles.exists_site hj
    exact (lookup_eq_some_iff_mem ((hshaped graph hgraph).slots nodes hnodes)).2 ho
  obtain ⟨hna, hno⟩ := hb.mem_nodeIds_of_actual hsep hj (List.mem_of_getElem? ha) ho
  exact .inr ⟨j.site, (hb.summaryClosed hsep henabled).through j hj p.callable htarget p hprocedure hbody
    position slot ⟨formalIn, formalOut, hin, hout, hreach⟩ a o ha hactual hna hno⟩

/-- A step of a walk changes what is left of it. -/
theorem Builds.frames_step (hm : ∀ j ∈ g.invocations, m ≠ j.callNode) {stack' : List CallSiteId}
    (hf : g.Frames m u stack) (hstep : g.Walk (u, stack) (v, stack')) : g.Frames m v stack' := by
  cases hstep with
  | stay he hd _ => exact hf.stay (localStep_iff.2 ⟨_, he, hd⟩)
  | enter henter => exact .push hf henter .refl
  | leave hreturn =>
    cases hf with
    | base hreach => exact .base (hreach.tail hreturn.outward)
  | @resume _ _ site _ hreturn =>
    cases hf with
    | push hbelow henter hreach =>
      obtain ⟨hsite, d, he, hkind⟩ := henter
      cases d with
      | call site' =>
        -- what comes out is reached without the callee
        obtain ⟨i, p, ⟨hi, -⟩, rfl, -⟩ := hb.assembles.of_call hsep he
        obtain ⟨hsite', slot, he'⟩ := hreturn
        obtain ⟨j, -, ⟨hj, -⟩, ho, -⟩ := hb.assembles.of_parameterOut hsep he'
        have hi' : i.site = site := hb.assembles.site_unique hsep hshaped hi (.inl rfl) hsite
        have hj' : j.site = site := hb.assembles.site_unique hsep hshaped hj (.inr (.inr ⟨slot, ho⟩)) hsite'
        obtain rfl := hb.assembles.eq_of_site hi hj (hi'.trans hj'.symm)
        exact hb.frames_actualOut hsep hshaped hm hi ho hbelow
      | parameterIn position =>
        -- a summary edge stands for the way through the callee
        obtain ⟨i, p, hcall, ha, hin⟩ := hb.assembles.of_parameterIn hsep he
        obtain rfl : i.site = site :=
          hb.assembles.site_unique hsep hshaped hcall.1 (.inr (.inl (List.mem_of_getElem? ha))) hsite
        exact hbelow.stay (hb.summary_of_returns hsep henabled hshaped hbodies hcall ha hin hreach hreturn)
      | _ => obtain hkind | hkind := hkind <;> cases hkind

/-- What influences a node along a realizable path is found in two phases, unless it is a
    call. -/
theorem Builds.exists_phases_iff (hm : ∀ j ∈ g.invocations, m ≠ j.callNode) :
    (∃ k, ReflTransGen g.Outward m k ∧ ReflTransGen g.Inward k n) ↔ g.Realizable m n := by
  refine ⟨hb.realizable_of_phases hsep, ?_⟩
  rintro ⟨stack, hwalk⟩
  suffices ∀ x, ReflTransGen g.Walk (m, []) x → g.Frames m x.1 x.2 from (this _ hwalk).exists_phases
  intro x hwalk
  induction hwalk with
  | refl => exact .base .refl
  | tail _ hstep ih => exact hb.frames_step hsep henabled hshaped hbodies hm ih hstep

end Returning

end SystemGraph

/-! ## Slices in two phases -/

namespace Traversal

/-- A traversal in two phases that follows all dependences which it may. -/
def backwardPhases : Traversal := ⟨.backward, .twoPhase, true, true⟩

variable {g : SystemGraph} {m n : NodeId}

/-- The first phase of a backward traversal follows the edges that do not leave a callee. -/
theorem step_ascend (hjoined : ∀ e ∈ g.edges, SystemGraph.joins g.nodes e = true) :
    backwardPhases.Step g ⟨.node n, none⟩ n .ascend = Function.swap g.Inward := by
  funext u v
  rw [step_iff, eq_iff_iff]
  constructor
  · rintro ⟨-, d, hadmissible, he⟩
    exact ⟨d, he, hadmissible.ascend rfl⟩
  · rintro ⟨d, he, hd⟩
    exact ⟨(SystemGraph.joins_iff.1 (hjoined _ he)).1, d,
      ⟨fun _ => rfl, fun _ _ => .inl rfl, fun _ => hd, nofun⟩, he⟩

/-- The second phase of a backward traversal follows the edges that do not enter a callee. -/
theorem step_descend (hjoined : ∀ e ∈ g.edges, SystemGraph.joins g.nodes e = true) :
    backwardPhases.Step g ⟨.node n, none⟩ n .descend = Function.swap g.Outward := by
  funext u v
  rw [step_iff, eq_iff_iff]
  constructor
  · rintro ⟨-, d, hadmissible, he⟩
    exact ⟨d, he, hadmissible.descend rfl⟩
  · rintro ⟨d, he, hd⟩
    exact ⟨(SystemGraph.joins_iff.1 (hjoined _ he)).1, d,
      ⟨fun _ => rfl, fun _ _ => .inl rfl, nofun, fun _ => hd⟩, he⟩

/-- What is found in two phases. -/
theorem mem_found_phases_iff (hjoined : ∀ e ∈ g.edges, SystemGraph.joins g.nodes e = true) :
    m ∈ backwardPhases.found g ⟨n, none⟩ ↔
      ∃ k, ReflTransGen g.Outward m k ∧ ReflTransGen g.Inward k n := by
  rw [mem_found_iff_of_twoPhase rfl (.node n), step_ascend hjoined, step_descend hjoined]
  refine exists_congr fun k => ?_
  rw [and_comm]
  exact and_congr reflTransGen_swap reflTransGen_swap

end Traversal

namespace Analysis

/-- In two phases a slice of a node of an analysed program holds what influences the node along
    realizable paths: everything but calls that does, and nothing that does not. -/
theorem mem_slice_iff_realizable {config : Config} {program : Program} {a : Analysis}
    (ha : run config program = .ok a) (hids : (program.callables.map (·.id)).Nodup)
    (henabled : config.summaries.enabled = true) {sc : SliceConfig} (hstrategy : sc.strategy = .twoPhase)
    (hsummaries : sc.useSummaries = true) {s : Slicer} (hs : Slicer.Serves a.system sc s) {n : NodeId}
    (hn : n ∈ a.system.nodeIds) :
    ∃ slice, (s.ask (.slice ⟨.node n, none⟩ .backward true)).1 = .ok slice ∧
      (∀ m ∈ slice.nodes, a.system.Realizable m n) ∧
      ∀ node ∈ a.system.nodes, (∀ site, node.kind ≠ .call site) →
        (node.id ∈ slice.nodes ↔ a.system.Realizable node.id n) := by
  have hsep := separate ⟨program.types, program.callables⟩ program.callables
  obtain ⟨g₁, hb⟩ := SystemGraph.build_eq_ok hsep (run_eq_ok ha)
  have hbodies (p : Procedure) (hp : p ∈ a.system.procedures) (hbody : p.hasBody = false) :
      p.formalIns = [] := by
    obtain ⟨graph, hgraph, decl, hdecl, rfl⟩ := hb.assembles.exists_graph hp
    exact formalIns_eq_nil hids hgraph hdecl hbody
  have hanswer : (s.ask (.slice ⟨.node n, none⟩ .backward true)).1 = .ok (.ofNodes a.system
      ⟨.node n, none⟩ n .backward (Traversal.backwardPhases.found a.system ⟨n, none⟩)) := by
    rw [hs.ask_eq, Query.answer_slice_node, if_pos hn, SliceConfig.traversal, hstrategy, hsummaries]
    rfl
  refine ⟨_, hanswer, fun m hm => ?_, fun node hnode hkind => ?_⟩
  · rw [Slice.ofNodes, mem_ascending, Traversal.mem_found_phases_iff hb.joined] at hm
    exact hb.realizable_of_phases hsep hm
  · -- the two phases miss nothing but calls, and a node of another kind is none
    have hm (j : Invocation) (hj : j ∈ a.system.invocations) : node.id ≠ j.callNode := by
      intro heq
      have hcall := hb.assembles.kind_callNode (fun p hp => shaped hp) hj
      exact hkind _ (hb.assembles.kind_unique hsep ⟨node, hnode, heq, rfl⟩ hcall)
    rw [Slice.ofNodes, mem_ascending, Traversal.mem_found_phases_iff hb.joined]
    exact hb.exists_phases_iff hsep henabled (fun p hp => shaped hp) hbodies hm

/-- A callable that returns its parameter, and one that calls it for `a` and then for `1`. -/
def twoCalls : Program where
  types := [⟨⟨0⟩, "T", []⟩]
  callables :=
    [{ id := ⟨0⟩, name := "id", kind := .method, owner := ⟨0⟩, signature := ⟨"id", ["int"]⟩
       isStatic := true, params := [⟨"p", .byValue⟩], returnsValue := true
       body := some [.returnJump ⟨⟨0⟩, "return p", none⟩ (some ⟨[], ["p"], [], []⟩)], span := none },
     { id := ⟨1⟩, name := "f", kind := .method, owner := ⟨0⟩, signature := ⟨"f", ["int"]⟩
       isStatic := true, params := [⟨"a", .byValue⟩], returnsValue := true
       body := some
        [.simple ⟨⟨1⟩, "id(a)", none⟩ ⟨[], [],
          [⟨⟨0⟩, "id(a)", .declared ⟨0⟩, .direct, [.ofVar "a"], false, []⟩], []⟩,
         .returnJump ⟨⟨2⟩, "return id(1)", none⟩ (some ⟨[], [],
          [⟨⟨1⟩, "id(1)", .declared ⟨0⟩, .direct, [.ofExpr "1" []], true, []⟩], []⟩)]
       span := none }]

/-- What comes back from the second call depends on its argument, and not on the parameter `a`
    that is handed over at the first call. -/
theorem twoCalls_realizable : ∃ a, run (.ofPreset .thorough) twoCalls = .ok a ∧
    a.system.Realizable ⟨12⟩ ⟨14⟩ ∧ ¬a.system.Realizable ⟨7⟩ ⟨14⟩ := by
  obtain ⟨a, ha, hn, hm, hkind, hanswer⟩ : ∃ a, run (.ofPreset .thorough) twoCalls = .ok a ∧
        a.system.contains ⟨14⟩ = true ∧ a.system.contains ⟨7⟩ = true ∧
        (∀ node ∈ a.system.nodes, node.id = ⟨7⟩ → node.kind = .formalIn 0) ∧
        (({ graph := a.system, config := .ofPreset .thorough } : Slicer).ask
          (.slice ⟨.node ⟨14⟩, none⟩ .backward true)).1.toOption.any (fun slice =>
            decide ((⟨12⟩ : NodeId) ∈ slice.nodes ∧ (⟨7⟩ : NodeId) ∉ slice.nodes)) = true :=
    SystemGraph.exists_ok_of_any (by cbv)
  have hserves : Slicer.Serves a.system (.ofPreset .thorough)
      { graph := a.system, config := .ofPreset .thorough } := .new rfl
  obtain ⟨slice, hslice, hsound, hexact⟩ := mem_slice_iff_realizable ha (by decide) rfl rfl rfl hserves
    (List.contains_iff_mem.1 hn)
  rw [hslice] at hanswer
  obtain ⟨hmem, hnot⟩ := of_decide_eq_true hanswer
  obtain ⟨node, hnode, hid⟩ := List.mem_map.1 (List.contains_iff_mem.1 hm)
  refine ⟨a, ha, hsound _ hmem, fun hrealizable => hnot ?_⟩
  rw [← hid] at hrealizable ⊢
  exact (hexact node hnode (by simp [hkind node hnode hid])).2 hrealizable

end Analysis

end Slicing
