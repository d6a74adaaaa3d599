import Slicing.Proofs.Flow.Entrance

/-!
# Nothing gets stuck

From each node of a part, and from each arc it starts from, control finds a way: it
leads to an arc that still waits for its target, or into a loop that nothing ends
(`Lowered.onward`). Together with what `Lowered.grown` says about where nodes are
reached from, this is what makes the flow graph of a whole callable well formed.
-/

namespace Slicing

/-- From a node control leads to one with a property. -/
def FlowGraph.LeadsInto (g : FlowGraph) (T : NodeId → Prop) (id : NodeId) : Prop :=
  ∃ v, g.Leads id v ∧ T v

namespace FlowGraph.LeadsInto

variable {g g' : FlowGraph} {T T' : NodeId → Prop} {x y : NodeId}

theorem self (hT : T x) : g.LeadsInto T x := ⟨x, .refl, hT⟩

/-- Control leads on from a node that leads to one from which it does. -/
theorem of_leads (hl : g.Leads x y) (hy : g.LeadsInto T y) : g.LeadsInto T x :=
  let ⟨v, hv, hT⟩ := hy
  ⟨v, hl.trans hv, hT⟩

/-- What control leads to may lead on in a graph with more edges. -/
theorem bind (hg : g.PartOf g') (hx : g.LeadsInto T x) (hT : ∀ v, T v → g'.LeadsInto T' v) :
    g'.LeadsInto T' x :=
  let ⟨v, hv, hTv⟩ := hx
  (hT v hTv).of_leads (hg.leads hv)

end FlowGraph.LeadsInto

namespace Lowering

variable {h : Hierarchy} {s s' t u v : Lowering} {P Q H K : NodeId → Prop} {id x : NodeId}
  {p : Pending} {ps : List Pending}

/-! ## What waits -/

/-- What statements have taken in only grows. -/
theorem waiting_subset {P : Pending → Prop} {scopes scopes' : List Scope}
    {returns returns' : List Pending} (hs : List.Forall₂ (Scope.Grows P) scopes scopes')
    (hr : returns ⊆ returns') :
    scopes.flatMap Scope.waiting ++ returns ⊆ scopes'.flatMap Scope.waiting ++ returns' :=
  List.append_subset.2
    ⟨List.Subset.trans (forall₂_flatMap_subset (fun _ _ hg => hg.waiting_subset) hs)
      (List.subset_append_left _ _), List.Subset.trans hr (List.subset_append_right _ _)⟩

/-- What waits outside of the frontier only grows. -/
theorem Extends.collected_subset (he : Extends P H s t) : s.collected ⊆ t.collected :=
  waiting_subset he.scopes he.returns.subset

/-- A node from which an arc starts, among more arcs. -/
theorem From.mono {ps' : List Pending} (hsub : ps ⊆ ps') (hx : From ps x) : From ps' x :=
  let ⟨p, hp, hid⟩ := hx
  ⟨p, hsub hp, hid⟩

/-- What waits inside of a statement waits at the statement or outside of it. -/
theorem mem_collected_left (hp : p ∈ t.collected) :
    p ∈ t.innermost.waiting ∨ p ∈ t.left.collected := by
  rcases List.mem_append.1 hp with hp | hp
  · obtain ⟨scope, hscope, hp⟩ := List.mem_flatMap.1 hp
    unfold innermost
    cases heq : t.scopes with
    | nil => simp [heq] at hscope
    | cons first rest =>
      rw [heq] at hscope
      rcases List.mem_cons.1 hscope with rfl | hscope
      · exact .inl hp
      · refine .inr (List.mem_append_left _ (List.mem_flatMap.2 ⟨scope, ?_, hp⟩))
        rw [left_scopes, heq]
        exact hscope
  · exact .inr (List.mem_append_right _ hp)

/-- Sending a way out takes nothing away from what waits. -/
theorem collected_sent_mono (h : Hierarchy) (s : Lowering) (p : Pending) (escape : Escape) :
    s.collected ⊆ (s.sent h p escape).collected :=
  waiting_subset (sent_scopes h s p escape) (sent_returns h s p escape).subset

/-- Ways out that are sent wait where they lead. -/
theorem collected_sentAll (h : Hierarchy) (escapes : List (Pending × Escape)) (s : Lowering) :
    s.collected ⊆ (s.sentAll h escapes).collected ∧
      ∀ e ∈ escapes, e.1 ∈ (s.sentAll h escapes).collected := by
  induction escapes generalizing s with
  | nil => exact ⟨List.Subset.refl _, by simp⟩
  | cons e escapes ih =>
    obtain ⟨hsub, hmem⟩ := ih (s.sent h e.1 e.2)
    refine ⟨List.Subset.trans (collected_sent_mono h s e.1 e.2) hsub, fun e' he' => ?_⟩
    rcases List.mem_cons.1 he' with rfl | he'
    · exact hsub (mem_collected_sent h s e'.1 e'.2)
    · exact hmem e' he'

/-! ## Where control goes on -/

/-- Where control may go on behind a part: at arcs that wait, in loops that nothing
    ends, and at the heads that the part leads back to. -/
def Part.Target (s : Lowering) (part : Part) (x : NodeId) : Prop :=
  From (part.outputs s) x ∨ From s.collected x ∨ x ∈ s.loopHeads ∨ part.heads x

/-- Control goes on from each node of a part, and from each arc it starts from. -/
def Part.Onward (s s' : Lowering) (part : Part) : Prop :=
  ∀ x, Made s s' x ∨ From (part.inputs s) x → s'.graph.LeadsInto (part.Target s') x

/-- There is a clause for each handler. -/
def Part.Handled : Part → Prop
  | .catches handlers clauses _ => handlers.length ≤ clauses.length
  | _ => True

/-- Along a chain each element leads to the last one. -/
theorem isChain_leads_getLast {α : Type} {R : α → α → Prop} {l : List α} (hl : l.IsChain R)
    {a b : α} (ha : a ∈ l) (hb : l.getLast? = some b) : Relation.ReflTransGen R a b := by
  induction l generalizing a with
  | nil => simp at ha
  | cons c l ih =>
    cases l with
    | nil =>
      simp only [List.getLast?_singleton, Option.some.injEq] at hb
      rw [List.mem_singleton.1 ha, hb]
    | cons d l =>
      rw [List.isChain_cons_cons] at hl
      rw [List.getLast?_cons_cons] at hb
      rcases List.mem_cons.1 ha with rfl | ha
      · exact .head hl.1 (ih hl.2 List.mem_cons_self hb)
      · exact ih hl.2 ha hb

/-- All of a construct leads to its own node. -/
theorem Constructs.leads {point : Point} {effects : Effects} {head : NodeId}
    (hc : Constructs h s point effects head id t) (hs : s.Sound) (hne : s.pending ≠ [])
    (hp : ∀ p ∈ s.pending, p.source ∈ s.graph.ids) (hx : Made s t x ∨ From s.pending x) :
    t.graph.Leads x id := by
  have hent := hc.entered hs hne hp
  rw [Entered, ← hc.head_eq] at hent
  obtain ⟨es, he, -, hhead, hlast⟩ := hc
  obtain ⟨first, hfirst, rfl⟩ := Option.map_eq_some_iff.1 hhead
  obtain ⟨last, hlast', rfl⟩ := Option.map_eq_some_iff.1 hlast
  have hchain (e : Emission) (hmem : e ∈ es) : t.graph.Leads e.node.id last.node.id :=
    Relation.ReflTransGen.lift (fun e : Emission => e.node.id) (fun _ _ hedge => hedge) _ _
      (isChain_leads_getLast (he.chain hs hne hp).2 hmem hlast')
  rcases hx with hm | ⟨p, hp, rfl⟩
  · have hmem := hm.1
    rw [he.ids_eq] at hmem
    rcases List.mem_append.1 hmem with hold | hnew
    · exact absurd hold (hm.not_mem hs.below)
    · obtain ⟨e, he', rfl⟩ := List.mem_map.1 hnew
      exact hchain e he'
  · exact .head (hent p hp) (hchain first (List.mem_of_mem_head? hfirst))

/-- A node that comes up between two states does so before or behind a state in between. -/
theorem Made.split (he : Extends P H t u) (hm : Made s u x) : Made s t x ∨ Made t u x :=
  (he.mem_or_made hm.1).imp_left fun hold => ⟨hold, hm.2⟩

/-- What waits in a state leads on to nodes with a property in a later graph. -/
structure Carries (s : Lowering) (g : FlowGraph) (T : NodeId → Prop) : Prop where
  collected : ∀ x, From s.collected x → g.LeadsInto T x
  loopHeads : ∀ x ∈ s.loopHeads, g.LeadsInto T x

/-- What waits behind a part is where control may go on. -/
theorem Carries.refl (s : Lowering) (part : Part) : Carries s s.graph (part.Target s) :=
  ⟨fun _ hx => .self (.inr (.inl hx)), fun _ hx => .self (.inr (.inr (.inl hx)))⟩

/-- What waits in an earlier state leads on as well. -/
theorem Carries.of_extends {g : FlowGraph} {T : NodeId → Prop} (hc : Carries t g T)
    (he : Extends P H s t) : Carries s g T :=
  ⟨fun x hx => hc.collected x (hx.mono he.collected_subset),
    fun x hx => hc.loopHeads x (he.loopHeads.subset hx)⟩

/-- What waits before or in the middle of a part leads on behind it. -/
theorem Extends.carries (he : Extends P H s t) (part : Part) :
    Carries s t.graph (part.Target t) :=
  (Carries.refl t part).of_extends he

section Onward

variable {g : FlowGraph} {T : NodeId → Prop} {part : Part}

/-- Control goes on from a part, and from where it leads to in a later graph. -/
theorem Part.Onward.bind (hon : part.Onward s t) (hx : Made s t x ∨ From (part.inputs s) x)
    (hg : t.graph.PartOf g) (hc : Carries t g T)
    (hout : ∀ y, From (part.outputs t) y → g.LeadsInto T y)
    (hheads : ∀ y, part.heads y → g.LeadsInto T y) : g.LeadsInto T x := by
  refine (hon x hx).bind hg fun y hy => ?_
  rcases hy with hy | hy | hy | hy
  exacts [hout y hy, hc.collected y hy, hc.loopHeads y hy, hheads y hy]

/-- Inside of a statement, what it has taken in has to lead on as well. -/
theorem Carries.of_left (hc : Carries t.left g T)
    (hw : ∀ x, From t.innermost.waiting x → g.LeadsInto T x) : Carries t g T := by
  refine ⟨?_, hc.loopHeads⟩
  rintro _ ⟨p, hp, rfl⟩
  rcases mem_collected_left hp with hp | hp
  exacts [hw _ ⟨p, hp, rfl⟩, hc.collected _ ⟨p, hp, rfl⟩]

end Onward

/-- Control goes on from the test and from both branches. -/
theorem branch_onward {source : Element} {cond : Effects} {thenBranch elseBranch : List Stmt}
    {head : NodeId} (hr : Ready (.stmt (.branch source cond thenBranch elseBranch)) s)
    (hne : s.pending ≠ []) (hc : Constructs h s ⟨.predicate, some source.id⟩ cond head id t)
    (hl₁ : Lowered h (.block thenBranch) (t.withPending [.plain id .trueBranch]) u)
    (hl₂ : Lowered h (.block elseBranch) (u.withPending [.plain id .falseBranch]) v)
    (ih₁ : Part.Onward (t.withPending [.plain id .trueBranch]) u (.block thenBranch))
    (ih₂ : Part.Onward (u.withPending [.plain id .falseBranch]) v (.block elseBranch)) :
    Part.Onward s (v.withPending (v.pending ++ u.pending))
      (.stmt (.branch source cond thenBranch elseBranch)) := by
  have hext₁ := hl₁.grown.ext.of_withPending
  have hext₂ := hl₂.grown.ext.of_withPending
  have hthen (y : NodeId) (hy : Made t u y ∨ From [.plain id .trueBranch] y) :=
    ih₁.bind hy hl₂.graph ((hext₂.withPending (v.pending ++ u.pending)).carries
      (.stmt (.branch source cond thenBranch elseBranch)))
      (fun _ hy => .self (.inl (hy.mono (List.subset_append_right _ _)))) fun _ hf => hf.elim
  have helse (y : NodeId) (hy : Made u v y ∨ From [.plain id .falseBranch] y) :=
    ih₂.bind hy (.refl _) (((Extends.refl Nowhere Nowhere hext₂.sound).withPending
      (v.pending ++ u.pending)).carries (.stmt (.branch source cond thenBranch elseBranch)))
      (fun _ hy => .self (.inl (hy.mono (List.subset_append_left _ _)))) fun _ hf => hf.elim
  -- the test leads to the first branch, which goes on
  have hcond {x : NodeId} (hx : Made s t x ∨ From s.pending x) :=
    (hthen id (.inr ⟨_, List.mem_singleton_self _, rfl⟩)).of_leads
      ((hl₁.graph.trans hl₂.graph).leads (hc.leads hr.sound hne hr.inputs hx))
  rintro x (hm | hin)
  · rcases hm.split (hext₂.withPending _) with hm | hm
    · rcases hm.split hext₁ with hm | hm
      exacts [hcond (.inl hm), hthen x (.inl hm)]
    · exact helse x (.inl hm)
  · exact hcond (.inr hin)

/-- Behind a loop. -/
theorem loop_carries {body : List Stmt} (ps : List Pending) {g : FlowGraph} {T : NodeId → Prop}
    (hl : Lowered h (.block body) ((s.withPending ps).entered (.loop [] [])) t)
    (hc : Carries t.left g T) (hbreaks : ∀ x, From t.innermost.breaks x → g.LeadsInto T x)
    (hcontinues : ∀ x, From t.innermost.continues x → g.LeadsInto T x) : Carries t g T := by
  refine hc.of_left ?_
  rintro _ ⟨p, hp, rfl⟩
  obtain ⟨-, hscope⟩ := hl.grown.ext.leave
  rw [hscope.loop_waiting] at hp
  rcases List.mem_append.1 hp with hp | hp
  exacts [hbreaks _ ⟨p, hp, rfl⟩, hcontinues _ ⟨p, hp, rfl⟩]

/-- Control goes on in the rounds of a loop: from the body through the update back to the head, or
    by a break. -/
theorem rounds_onward {node head : NodeId} {enter : FlowKind} {body update : List Stmt}
    (hr : Ready (.rounds node head enter body update t.innermost.breaks) s)
    (hl₁ : Lowered h (.block body) ((s.withPending [.plain node enter]).entered (.loop [] [])) t)
    (hl₂ : Lowered h (.update update) (t.left.withPending (t.pending ++ t.innermost.continues)) u)
    (ih₁ : Part.Onward ((s.withPending [.plain node enter]).entered (.loop [] [])) t (.block body))
    (ih₂ : Part.Onward (t.left.withPending (t.pending ++ t.innermost.continues)) u
      (.update update)) :
    Part.Onward s (((u.withPending []).closed head u.pending).withPending t.innermost.breaks)
      (.rounds node head enter body update t.innermost.breaks) := by
  have hclosed := closed_graph (u.withPending []) head u.pending
  have hext₁ := (loop_grown _ hl₁.grown).1
  have hext₂ := hl₂.grown.ext.of_withPending
  have hedges : ((u.withPending []).closed head u.pending).graph.edges = _ :=
    closed_edges head u.pending (hext₂.ids_subset (hext₁.ids_subset (hr.heads head rfl)))
      (hl₂.grown.outputs_mem hl₂.ready)
  -- what comes through the update leads back to the head
  have hupdate (y : NodeId) (hy : Made t.left u y ∨ From (t.pending ++ t.innermost.continues) y) :
      ((u.withPending []).closed head u.pending).graph.LeadsInto
        (Part.Target (((u.withPending []).closed head u.pending).withPending t.innermost.breaks)
          (.rounds node head enter body update t.innermost.breaks)) y := by
    refine ih₂.bind hy hclosed ⟨fun _ hx => .self (.inr (.inl hx)),
      fun _ hx => .self (.inr (.inr (.inl hx)))⟩ ?_ fun _ hf => hf.elim
    rintro _ ⟨p, hp, rfl⟩
    refine ⟨head, .single ⟨backEdge p.edge, ?_⟩, .inr (.inr (.inr rfl))⟩
    rw [hedges]
    exact List.mem_append_right _ (List.mem_map.2 ⟨p, hp, rfl⟩)
  have hcarries : Carries t.left ((u.withPending []).closed head u.pending).graph
      (Part.Target (((u.withPending []).closed head u.pending).withPending t.innermost.breaks)
        (.rounds node head enter body update t.innermost.breaks)) :=
    ⟨fun _ hx => .self (.inr (.inl (hx.mono hext₂.collected_subset))),
      fun _ hx => .self (.inr (.inr (.inl (hext₂.loopHeads.subset hx))))⟩
  have hbody (y : NodeId) (hy : Made s t y ∨ From [.plain node enter] y) :=
    ih₁.bind hy (hl₂.graph.trans hclosed)
      (loop_carries _ hl₁ hcarries (fun _ hx => .self (.inl hx))
        fun y hx => hupdate y (.inr (hx.mono (List.subset_append_right _ _))))
      (fun y hx => hupdate y (.inr (hx.mono (List.subset_append_left _ _)))) fun _ hf => hf.elim
  rintro x (hm | hin)
  · have hm : Made s u x := ⟨by simpa using hm.1, hm.2⟩
    rcases hm.split hext₂ with hm | hm
    exacts [hbody x (.inl hm), hupdate x (.inl hm)]
  · exact hbody x (.inr hin)

/-- A construct behind a block, from whose node control goes on. -/
theorem construct_onward {stmts : List Stmt} {point : Point} {effects : Effects} {head : NodeId}
    {g : FlowGraph} {T : NodeId → Prop} (hl : Lowered h (.block stmts) s t) (hne : t.pending ≠ [])
    (hc : Constructs h t point effects head id u) (ih : Part.Onward s t (.block stmts))
    (hg : u.graph.PartOf g) (hcarries : Carries u g T) (hid : g.LeadsInto T id)
    (hx : Made s u x ∨ From s.pending x) : g.LeadsInto T x := by
  have hready := hl.grown.outputs_mem hl.ready
  have hext := hc.extends hl.grown.ext.sound hne hready
  have hcond {x : NodeId} (hx : Made t u x ∨ From t.pending x) :=
    hid.of_leads (hg.leads (hc.leads hl.grown.ext.sound hne hready hx))
  have hinit {x : NodeId} (hx : Made s t x ∨ From s.pending x) :=
    ih.bind hx (hext.graph.trans hg)
      ⟨fun x hx => hcarries.collected x (hx.mono hext.collected_subset),
        fun x hx => hcarries.loopHeads x (hext.loopHeads.subset hx)⟩
      (fun _ hx => hcond (.inr hx)) fun _ hf => hf.elim
  rcases hx with hm | hin
  · rcases hm.split hext with hm | hm
    exacts [hinit (.inl hm), hcond (.inl hm)]
  · exact hinit (.inr hin)

/-- The rounds of a loop end in its breaks. -/
theorem Lowered.rounds_pending {node head : NodeId} {enter : FlowKind} {body update : List Stmt}
    {breaks : List Pending} (hl : Lowered h (.rounds node head enter body update breaks) s s') :
    s'.pending = breaks := by
  cases hl
  rfl

/-- Control goes on from a loop with a test, as the test also leads out of it. -/
theorem tested_onward {stmt : Stmt} {l : Loop} {head : NodeId} {breaks : List Pending}
    (hl₁ : Lowered h (.block l.init) s t) (hne : t.pending ≠ [])
    (hc : Constructs h t l.point l.test head id u)
    (hl₂ : Lowered h (.rounds id head .trueBranch l.body l.update breaks) u v)
    (ih₁ : Part.Onward s t (.block l.init))
    (ih₂ : Part.Onward u v (.rounds id head .trueBranch l.body l.update breaks)) :
    Part.Onward s (v.withPending (v.pending ++ [.plain id .falseBranch])) (.stmt stmt) := by
  have hext := hl₂.grown.ext.withPending (v.pending ++ [.plain id .falseBranch])
  have hid : (v.withPending (v.pending ++ [.plain id .falseBranch])).graph.LeadsInto
      (Part.Target (v.withPending (v.pending ++ [.plain id .falseBranch])) (.stmt stmt)) id :=
    .self (.inl ⟨_, List.mem_append_right _ (List.mem_singleton_self _), rfl⟩)
  have hfront {x : NodeId} (hx : Made s u x ∨ From s.pending x) :=
    construct_onward hl₁ hne hc ih₁ hext.graph (hext.carries _) hid hx
  rintro x (hm | hin)
  · rcases hm.split hext with hm | hm
    · exact hfront (.inl hm)
    · refine ih₂.bind (.inl hm) (.refl _)
        ⟨fun _ hx => .self (.inr (.inl hx)), fun _ hx => .self (.inr (.inr (.inl hx)))⟩
        (fun _ hx => .self (.inl (hx.mono (List.subset_append_left _ _)))) ?_
      rintro _ rfl
      exact hfront (.inl (hl₁.grown.ext.made_of_left hc.made.1))
  · exact hfront (.inr hin)

/-- A loop without a test is left by its breaks, and otherwise it is known to be endless. -/
theorem endless_onward {stmt : Stmt} {l : Loop} {head : NodeId} {breaks : List Pending}
    (hl₁ : Lowered h (.block l.init) s t) (hne : t.pending ≠ [])
    (hc : Constructs h t l.point l.test head head u)
    (hl₂ : Lowered h (.rounds head head .unconditional l.body l.update breaks) u v)
    (ih₁ : Part.Onward s t (.block l.init))
    (ih₂ : Part.Onward u v (.rounds head head .unconditional l.body l.update breaks)) :
    Part.Onward s (if breaks.isEmpty then v.withLoopHead head else v) (.stmt stmt) := by
  have hext := hl₂.grown.ext
  split
  · have hid : v.graph.LeadsInto (Part.Target (v.withLoopHead head) (.stmt stmt)) head :=
      .self (.inr (.inr (.inl (List.mem_append_right _ (List.mem_singleton_self _)))))
    have hcarries : Carries v v.graph (Part.Target (v.withLoopHead head) (.stmt stmt)) :=
      ⟨fun _ hx => .self (.inr (.inl hx)),
        fun _ hx => .self (.inr (.inr (.inl (List.mem_append_left _ hx))))⟩
    have hfront {x : NodeId} (hx : Made s u x ∨ From s.pending x) :=
      construct_onward hl₁ hne hc ih₁ hext.graph (hcarries.of_extends hext) hid hx
    rintro x (hm | hin)
    · rcases Made.split (t := u) (u := v) hext hm with hm | hm
      · exact hfront (.inl hm)
      · refine ih₂.bind (.inl hm) (.refl _) hcarries (fun _ hx => .self (.inl hx)) ?_
        rintro _ rfl
        exact hid
    · exact hfront (.inr hin)
  · rename_i hbreaks
    obtain ⟨p, hp⟩ := List.exists_mem_of_ne_nil breaks fun hnil => hbreaks (by rw [hnil]; rfl)
    rw [← hl₂.rounds_pending] at hp
    -- the breaks are reached from the head
    have hid : v.graph.LeadsInto (Part.Target v (.stmt stmt)) head := by
      have hmade := (hl₂.grown.outputs p hp).resolve_right (by simp [Part.passed])
      obtain ⟨_, ⟨q, hq, rfl⟩, hleads⟩ := hext.reached p.source hmade
      rw [List.mem_singleton.1 hq] at hleads
      exact ⟨p.source, hleads, .inl ⟨p, hp, rfl⟩⟩
    have hfront {x : NodeId} (hx : Made s u x ∨ From s.pending x) :=
      construct_onward hl₁ hne hc ih₁ hext.graph (hext.carries _) hid hx
    rintro x (hm | hin)
    · rcases hm.split hext with hm | hm
      · exact hfront (.inl hm)
      · refine ih₂.bind (.inl hm) (.refl _) (.refl _ _) (fun _ hx => .self (.inl hx)) ?_
        rintro _ rfl
        exact hid
    · exact hfront (.inr hin)

/-- Control goes on from the body of a loop whose test is not reached. -/
theorem footless_onward {source : Element} {body : List Stmt} {cond : Effects}
    (hl : Lowered h (.block body) (s.entered (.loop [] [])) t)
    (hfoot : t.pending ++ t.innermost.continues = [])
    (ih : Part.Onward (s.entered (.loop [] [])) t (.block body)) :
    Part.Onward s (((t.left.withPending []).skipped source.id).withPending t.innermost.breaks)
      (.stmt (.doWhile source body cond)) := by
  obtain ⟨hpending, hcontinues⟩ := List.append_eq_nil_iff.1 hfoot
  have hext := (((Extends.refl Nowhere Nowhere (loop_grown s.pending hl.grown).1.sound).withPending
    []).skipped source.id).withPending t.innermost.breaks
  refine fun x hx => ih.bind hx hext.graph (loop_carries s.pending hl (hext.carries _)
    (fun _ hx => .self (.inl hx)) ?_) ?_ fun _ hf => hf.elim
  · rw [hcontinues]
    rintro _ ⟨_, hp, _⟩
    cases hp
  · rintro _ ⟨_, hp, _⟩
    change _ ∈ t.pending at hp
    rw [hpending] at hp
    cases hp

/-- Control goes on from a loop with its test at the end. -/
theorem footed_onward {source : Element} {body : List Stmt} {cond : Effects} {head : NodeId}
    (hr : Ready (.stmt (.doWhile source body cond)) s)
    (hl : Lowered h (.block body) (s.entered (.loop [] [])) t)
    (hne : t.pending ++ t.innermost.continues ≠ [])
    (hc : Constructs h (t.left.withPending (t.pending ++ t.innermost.continues))
      ⟨.predicate, some source.id⟩ cond head id u)
    (ih : Part.Onward (s.entered (.loop [] [])) t (.block body)) (first : NodeId) :
    Part.Onward s ((u.closed first [.plain id .loopBack]).withPending
      (.plain id .falseBranch :: t.innermost.breaks)) (.stmt (.doWhile source body cond)) := by
  have hready := continue_ready s.pending hr.inputs hl.grown []
  have hext := hc.extends hready.sound hne hready.inputs
  have hclosed := closed_graph u first [.plain id .loopBack]
  -- what comes to the test goes on, as the test also leads out of the loop
  have htest (y : NodeId) (hy : Made t.left u y ∨ From (t.pending ++ t.innermost.continues) y) :
      (u.closed first [.plain id .loopBack]).graph.LeadsInto
        (Part.Target ((u.closed first [.plain id .loopBack]).withPending
          (.plain id .falseBranch :: t.innermost.breaks)) (.stmt (.doWhile source body cond))) y :=
    ⟨id, hclosed.leads (hc.leads hready.sound hne hready.inputs hy),
      .inl ⟨_, List.mem_cons_self, rfl⟩⟩
  have hbody (y : NodeId) (hy : Made s t y ∨ From s.pending y) :=
    ih.bind hy (hext.graph.trans hclosed)
      (loop_carries s.pending hl
        ⟨fun _ hx => .self (.inr (.inl (hx.mono hext.collected_subset))),
          fun _ hx => .self (.inr (.inr (.inl (hext.loopHeads.subset hx))))⟩
        (fun _ hx => .self (.inl (hx.mono (List.subset_cons_self _ _))))
        fun y hx => htest y (.inr (hx.mono (List.subset_append_right _ _))))
      (fun y hx => htest y (.inr (hx.mono (List.subset_append_left _ _)))) fun _ hf => hf.elim
  rintro x (hm | hin)
  · have hm : Made s u x := ⟨by simpa using hm.1, hm.2⟩
    rcases hm.split hext with hm | hm
    exacts [hbody x (.inl hm), htest x (.inl hm)]
  · exact hbody x (.inr hin)

/-- Control goes on from the selector and from the cases. -/
theorem select_onward {source : Element} {selector : Effects} {cases : List (SwitchCase Stmt)}
    {head : NodeId} (hr : Ready (.stmt (.select source selector cases)) s) (hne : s.pending ≠ [])
    (hc : Constructs h s ⟨.predicate, some source.id⟩ selector head id t)
    (hl : Lowered h (.cases source id [] cases) (t.entered (.select [])) u)
    (ih : Part.Onward (t.entered (.select [])) u (.cases source id [] cases)) :
    Part.Onward s (u.left.withPending (u.pending ++ u.innermost.breaks ++ skipArcs id cases))
      (.stmt (.select source selector cases)) := by
  obtain ⟨hext, hscope⟩ := hl.grown.ext.leave
  have hcases {x : NodeId} (hx : Made t u x ∨
      From (Part.inputs (t.entered (.select [])) (.cases source id [] cases)) x) :
      u.graph.LeadsInto (Part.Target
        (u.left.withPending (u.pending ++ u.innermost.breaks ++ skipArcs id cases))
        (.stmt (.select source selector cases))) x := by
    refine ih.bind hx (.refl _) (Carries.of_left
      ⟨fun _ hx => .self (.inr (.inl hx)), fun _ hx => .self (.inr (.inr (.inl hx)))⟩ ?_)
      ?_ fun _ hf => hf.elim
    · rw [hscope.select_waiting]
      exact fun _ hx => .self (.inl (hx.mono (List.Subset.trans (List.subset_append_right _ _)
        (List.subset_append_left _ _))))
    · exact fun _ hx => .self (.inl (hx.mono (List.Subset.trans (List.subset_append_left _ _)
        (List.subset_append_left _ _))))
  -- the selector leads to the first case, or past a `switch` without cases
  have hid : u.graph.LeadsInto (Part.Target
      (u.left.withPending (u.pending ++ u.innermost.breaks ++ skipArcs id cases))
      (.stmt (.select source selector cases))) id := by
    cases cases with
    | nil => exact .self (.inl ⟨_, List.mem_append_right _ (List.mem_singleton_self _), rfl⟩)
    | cons c rest => exact hcases (.inr (selector_from (p := .plain id .trueBranch) rfl))
  have hcond {x : NodeId} (hx : Made s t x ∨ From s.pending x) :=
    hid.of_leads (hext.graph.leads (hc.leads hr.sound hne hr.inputs hx))
  rintro x (hm | hin)
  · rcases hm.split (hext.withPending _) with hm | hm
    exacts [hcond (.inl hm), hcases (.inl hm)]
  · exact hcond (.inr hin)

/-- Control goes on from a case, its label in front, and from the cases behind it. -/
theorem case_onward {source : Element} {selector : NodeId} {fallthrough : List Pending}
    {c : SwitchCase Stmt} {cases : List (SwitchCase Stmt)} {head : NodeId}
    (hr : Ready (.cases source selector fallthrough (c :: cases)) s)
    (hc : Constructs h (s.withPending (caseFrontier selector fallthrough c.label))
      ⟨.caseLabel, some c.id⟩ .none head head t)
    (hl₁ : Lowered h (.block c.body) t u)
    (hl₂ : Lowered h (.cases source selector u.pending cases) (u.withPending []) v)
    (ih₁ : Part.Onward t u (.block c.body))
    (ih₂ : Part.Onward (u.withPending []) v (.cases source selector u.pending cases)) :
    Part.Onward s v (.cases source selector fallthrough (c :: cases)) := by
  have hext := hl₂.grown.ext.of_withPending
  -- from back to front: the other cases, the body of this one, its label
  have hrest (y : NodeId) (hy : Made u v y ∨
      From (Part.inputs (u.withPending []) (.cases source selector u.pending cases)) y) :
      v.graph.LeadsInto (Part.Target v (.cases source selector fallthrough (c :: cases))) y :=
    ih₂.bind hy (.refl _) (.refl _ _) (fun _ hx => .self (.inl hx)) fun _ hf => hf.elim
  have hbody (y : NodeId) (hy : Made t u y ∨ From t.pending y) :=
    ih₁.bind hy hext.graph (hext.carries _)
      (fun y hx => hrest y (.inr (hx.mono (List.subset_append_left _ _)))) fun _ hf => hf.elim
  have hlabel (y : NodeId) (hy : Made s t y ∨ From (caseFrontier selector fallthrough c.label) y) :
      v.graph.LeadsInto (Part.Target v (.cases source selector fallthrough (c :: cases))) y := by
    refine (hbody head (.inr ?_)).of_leads ((hl₁.graph.trans hext.graph).leads
      (hc.leads (hr.sound.withPending _) (by simp [caseFrontier])
        (fun p hp => hr.from_mem (caseFrontier_from hp)) hy))
    rw [hc.pending_eq]
    exact ⟨_, List.mem_singleton_self _, rfl⟩
  rintro x (hm | ⟨p, hp, rfl⟩)
  · rcases hm.split hext with hm | hm
    · rcases hm.split hl₁.grown.ext with hm | hm
      exacts [hlabel x (.inl hm), hbody x (.inl hm)]
    · exact hrest x (.inl hm)
  · rcases List.mem_append.1 hp with hp | hp
    · exact hlabel _ (.inr ⟨p, List.mem_append_left _ hp, rfl⟩)
    · rw [selector_mem hp]
      exact hlabel _ (.inr ⟨_, List.mem_append_right _ (List.mem_singleton_self _), rfl⟩)

section Try

variable {source : Element} {body finalizer : List Stmt} {catches : List (CatchClause Stmt)}
  {after : List Pending} {hasFinalizer : Bool} {g : FlowGraph} {T : NodeId → Prop}

/-- Control goes on from a catch clause and from the clauses behind it. -/
theorem catch_onward {handler : Handler} {handlers : List Handler} {c : CatchClause Stmt}
    {clauses : List (CatchClause Stmt)} {head : NodeId}
    (hr : Ready (.catches (handler :: handlers) (c :: clauses) (u.pending ++ after)) s)
    (hne : handler.incoming ≠ [])
    (hc : Constructs h (s.withPending handler.incoming) ⟨.catchClause, some c.id⟩ .none head head t)
    (hl₁ : Lowered h (.block c.body) t u)
    (hl₂ : Lowered h (.catches handlers clauses after) (u.withPending []) v)
    (ih₁ : Part.Onward t u (.block c.body))
    (ih₂ : Part.Onward (u.withPending []) v (.catches handlers clauses after)) :
    Part.Onward s v (.catches (handler :: handlers) (c :: clauses) (u.pending ++ after)) := by
  have hext := hl₂.grown.ext.of_withPending
  -- from back to front: the other clauses, the body of this one, its node
  have hrest (y : NodeId) (hy : Made u v y ∨ From (handlers.flatMap Handler.incoming) y) :=
    ih₂.bind hy (.refl _) (.refl v (.catches (handler :: handlers) (c :: clauses)
      (u.pending ++ after)))
      (fun _ hx => .self (.inl (hx.mono (List.subset_append_right _ _)))) fun _ hf => hf.elim
  have hbody (y : NodeId) (hy : Made t u y ∨ From t.pending y) :=
    ih₁.bind hy hext.graph (hext.carries (.catches (handler :: handlers) (c :: clauses)
      (u.pending ++ after)))
      (fun _ hx => .self (.inl (hx.mono (List.subset_append_left _ _)))) fun _ hf => hf.elim
  have hclause (y : NodeId) (hy : Made s t y ∨ From handler.incoming y) :
      v.graph.LeadsInto (Part.Target v (.catches (handler :: handlers) (c :: clauses)
        (u.pending ++ after))) y := by
    refine (hbody head (.inr ?_)).of_leads ((hl₁.graph.trans hext.graph).leads
      (hc.leads (hr.sound.withPending _) hne
        (fun p hp => hr.inputs p (List.mem_append_left _ hp)) hy))
    rw [hc.pending_eq]
    exact ⟨_, List.mem_singleton_self _, rfl⟩
  rintro x (hm | ⟨p, hp, rfl⟩)
  · rcases hm.split hext with hm | hm
    · rcases hm.split hl₁.grown.ext with hm | hm
      exacts [hclause x (.inl hm), hbody x (.inl hm)]
    · exact hrest x (.inl hm)
  · rcases List.mem_append.1 hp with hp | hp
    exacts [hclause _ (.inr ⟨p, hp, rfl⟩), hrest _ (.inr ⟨p, hp, rfl⟩)]

/-- A `try` has a handler for each of its clauses. -/
theorem try_handled
    (hl : Lowered h (.block body) (s.entered (tryScope catches hasFinalizer)) t) :
    Part.Handled (.catches t.innermost.handlers catches after) := by
  obtain ⟨-, hscope⟩ := hl.grown.ext.leave
  obtain ⟨handlers, escapes, heq, hhandlers, -⟩ := hscope.of_tryScope
  rw [heq]
  exact Nat.le_of_eq hhandlers.length_eq.symm

/-- Up to its `finally` block, a `try` goes on from its ends and from what has left it. -/
theorem try_leads (hl₁ : Lowered h (.block body) (s.entered (tryScope catches hasFinalizer)) t)
    (hl₂ : Lowered h (.catches t.innermost.handlers catches after)
      ((t.left.withPending []).entered t.innermost.withoutHandlers) u)
    (ih₁ : Part.Onward (s.entered (tryScope catches hasFinalizer)) t (.block body))
    (ih₂ : Part.Onward ((t.left.withPending []).entered t.innermost.withoutHandlers) u
      (.catches t.innermost.handlers catches after))
    (hg : u.graph.PartOf g) (hcarries : Carries u.left g T)
    (hin : ∀ x, From (t.pending ++ after ++ u.innermost.escapes.map (·.1)) x → g.LeadsInto T x)
    (hx : Made s u x ∨ From s.pending x) : g.LeadsInto T x := by
  obtain ⟨hext₁, hscope₁⟩ := hl₁.grown.ext.leave
  obtain ⟨hext₂, hscope₂⟩ := hl₂.grown.ext.leave
  obtain ⟨handlers, escapes, heq, -⟩ := hscope₁.of_tryScope
  rw [heq] at hscope₂ ih₂ hl₂
  obtain ⟨escapes', heq', hadds, -⟩ := hscope₂.of_withoutHandlers
  rw [heq'] at hin
  have hcatches (y : NodeId) (hy : Made t u y ∨ From (handlers.flatMap Handler.incoming) y) :
      g.LeadsInto T y := by
    refine ih₂.bind hy hg (hcarries.of_left ?_) ?_ fun _ hf => hf.elim
    · rw [heq']
      exact fun x hx => hin x (hx.mono (List.subset_append_right _ _))
    · exact fun x hx => hin x (hx.mono (List.Subset.trans (List.subset_append_right _ _)
        (List.subset_append_left _ _)))
  have hbody (y : NodeId) (hy : Made s t y ∨ From s.pending y) : g.LeadsInto T y := by
    refine ih₁.bind hy (hl₂.graph.trans hg) (Carries.of_left (hcarries.of_extends hext₂.of_withPending) ?_) ?_
      fun _ hf => hf.elim
    · rw [heq]
      rintro _ ⟨p, hp, rfl⟩
      rcases List.mem_append.1 hp with hp | hp
      · -- what waits at a handler is led to its clause
        exact hcatches _ (.inr ⟨p, hp, rfl⟩)
      · -- what no handler takes is among the ways out
        exact hin _ ⟨p, List.mem_append_right _ (List.map_subset _ hadds.subset hp), rfl⟩
    · exact fun x hx => hin x (hx.mono (List.Subset.trans (List.subset_append_left _ _)
        (List.subset_append_left _ _)))
  rcases hx with hm | hin
  · rcases hm.split hext₂ with hm | hm
    exacts [hbody x (.inl hm), hcatches x (.inl hm)]
  · exact hbody x (.inr hin)

/-- What has been sent waits where control may go on. -/
theorem sentAll_carries (part : Part) (ps : List Pending) (escapes : List (Pending × Escape)) :
    Carries v v.graph (part.Target ((v.withPending ps).sentAll h escapes)) := by
  refine ⟨fun _ hx => .self (.inr (.inl (hx.mono ?_))), fun _ hx => .self (.inr (.inr (.inl ?_)))⟩
  · exact (collected_sentAll h escapes (v.withPending ps)).1
  · rw [sentAll_loopHeads]
    exact hx

/-- A `try` with a `finally` block goes on from the ends of this block. -/
theorem finalizer_onward {stmt : Stmt} {ps : List Pending} {escapes : List (Pending × Escape)}
    (hl₁ : Lowered h (.block body) (s.entered (tryScope catches hasFinalizer)) t)
    (hl₂ : Lowered h (.catches t.innermost.handlers catches after)
      ((t.left.withPending []).entered t.innermost.withoutHandlers) u)
    (hl₃ : Lowered h (.block finalizer)
      (u.left.withPending (t.pending ++ after ++ u.innermost.escapes.map (·.1))) v)
    (ih₁ : Part.Onward (s.entered (tryScope catches hasFinalizer)) t (.block body))
    (ih₂ : Part.Onward ((t.left.withPending []).entered t.innermost.withoutHandlers) u
      (.catches t.innermost.handlers catches after))
    (ih₃ : Part.Onward
      (u.left.withPending (t.pending ++ after ++ u.innermost.escapes.map (·.1))) v
      (.block finalizer))
    (hout : ∀ x, From v.pending x →
      v.graph.LeadsInto (Part.Target ((v.withPending ps).sentAll h escapes) (.stmt stmt)) x) :
    Part.Onward s ((v.withPending ps).sentAll h escapes) (.stmt stmt) := by
  have hext := hl₃.grown.ext.of_withPending
  have hcarries := sentAll_carries (h := h) (v := v) (.stmt stmt) ps escapes
  have hblock (y : NodeId) (hy : Made u v y ∨
      From (t.pending ++ after ++ u.innermost.escapes.map (·.1)) y) :=
    ih₃.bind hy (.refl _) hcarries hout fun _ hf => hf.elim
  -- the body and the clauses come to the block by the arcs that it starts from
  have hfront {y : NodeId} (hy : Made s u y ∨ From s.pending y) :=
    try_leads hl₁ hl₂ ih₁ ih₂ hext.graph (hcarries.of_extends hext)
      (fun x hx => hblock x (.inr hx)) hy
  intro x hx
  rw [Made, sentAll_graph] at hx
  rw [sentAll_graph]
  rcases hx with hm | hin
  · rcases Made.split (s := s) hext hm with hm | hm
    exacts [hfront (.inl hm), hblock x (.inl hm)]
  · exact hfront (.inr hin)

/-- Nothing waits for a `finally` block that is not there. -/
theorem plain_subset (hl₁ : Lowered h (.block body) (s.entered (tryScope catches false)) t)
    (hl₂ : Lowered h (.catches t.innermost.handlers catches after)
      ((t.left.withPending []).entered t.innermost.withoutHandlers) u) :
    t.pending ++ after ++ u.innermost.escapes.map (·.1) ⊆ t.pending ++ after := by
  obtain ⟨-, hscope₁⟩ := hl₁.grown.ext.leave
  obtain ⟨-, hscope₂⟩ := hl₂.grown.ext.leave
  obtain ⟨handlers, escapes, heq, -, -, hnone⟩ := hscope₁.of_tryScope
  rw [heq] at hscope₂
  obtain ⟨escapes', heq', -, hsame⟩ := hscope₂.of_withoutHandlers
  rw [heq', Scope.escapes, hsame rfl, hnone rfl]
  simp

/-- A `finally` block without nodes lets everything through. -/
theorem nodeless_leads (stmt : Stmt) (escapes : List (Pending × Escape)) :
    ∀ x, From v.pending x → v.graph.LeadsInto (Part.Target ((v.withPending
      (v.pending.filter fun p => !(escapes.map (·.1)).contains p)).sentAll h escapes)
        (.stmt stmt)) x := by
  rintro _ ⟨p, hp, rfl⟩
  by_cases hmem : p ∈ escapes.map (·.1)
  · obtain ⟨e, he, rfl⟩ := List.mem_map.1 hmem
    exact .self (.inr (.inl ⟨e.1, (collected_sentAll h escapes _).2 e he, rfl⟩))
  · refine .self (.inl ⟨p, ?_, rfl⟩)
    change p ∈ Lowering.pending _
    rw [sentAll_pending]
    exact List.mem_filter.2 ⟨hp, by simpa using hmem⟩

/-- Each way out is sent on from each end of a `finally` block. -/
theorem redirected_mem {escapes : List (Pending × Escape)} {tails : List Pending}
    {e : Pending × Escape} {tail : Pending} (he : e ∈ escapes) (htail : tail ∈ tails) :
    ∃ e' ∈ redirected escapes tails, e'.2 = e.2 ∧ e'.1.source = tail.source := by
  refine ⟨_, List.mem_flatMap.2 ⟨e.2, List.mem_eraseDups.2 (List.mem_map_of_mem he),
    List.mem_map_of_mem htail⟩, ?_⟩
  split <;> simp_all

/-- A `finally` block with nodes was entered from somewhere. -/
theorem finalizer_entered {ps : List Pending} (hl : Lowered h (.block finalizer) (u.withPending ps) v)
    (hsize : v.graph.size ≠ u.graph.size) : ps ≠ [] := by
  rintro rfl
  have hle : u.graph.size ≤ v.graph.size := hl.size_le
  have hmade := hl.grown.ext.made_idAt (Nat.le_refl _) (Nat.lt_of_le_of_ne hle hsize.symm)
  obtain ⟨_, ⟨_, hp, _⟩, _⟩ := hl.grown.ext.reached _ hmade
  cases hp

/-- Behind a `finally` block, what it was entered by goes on. -/
theorem resumed_leads (stmt : Stmt) {normal : List Pending} {escapes : List (Pending × Escape)}
    (hne : normal ++ escapes.map (·.1) ≠ []) :
    ∀ x, From v.pending x → v.graph.LeadsInto (Part.Target ((v.withPending
      (if normal.isEmpty then [] else v.pending)).sentAll h (redirected escapes v.pending))
        (.stmt stmt)) x := by
  rintro _ ⟨p, hp, rfl⟩
  split
  · rename_i hnormal
    rw [List.isEmpty_iff.1 hnormal, List.nil_append] at hne
    obtain ⟨e, he⟩ := List.exists_mem_of_ne_nil escapes fun hnil => hne (by rw [hnil]; rfl)
    obtain ⟨e', he', -, hsource⟩ := redirected_mem he hp
    rw [← hsource]
    exact .self (.inr (.inl ⟨e'.1, (collected_sentAll h _ _).2 e' he', rfl⟩))
  · refine .self (.inl ⟨p, ?_, rfl⟩)
    change p ∈ Lowering.pending _
    rw [sentAll_pending]
    exact hp

end Try

/-- Control goes on from each node of a part, and from each arc it starts from. -/
theorem Lowered.onward {part : Part} (hl : Lowered h part s s') (hh : part.Handled) :
    part.Onward s s' := by
  -- a part without nodes hands on what it starts from; the others lead to their own outputs
  induction hl with
  | skip hr _ =>
    rintro x (hm | hin)
    · exact absurd hm.mem (hm.not_mem hr.sound.below)
    · exact .self (.inl hin)
  | simple hr hne hc =>
    intro x hx
    refine ⟨_, hc.leads hr.sound hne hr.inputs hx, .inl ?_⟩
    simp only [Part.outputs, hc.pending_eq]
    exact ⟨_, List.mem_singleton_self _, rfl⟩
  | branch hr hne hc hl₁ hl₂ ih₁ ih₂ =>
    exact branch_onward hr hne hc hl₁ hl₂ (ih₁ trivial) (ih₂ trivial)
  | loopUnentered _ _ _ _ _ ih => exact ih trivial
  | tested _ _ _ _ hl₁ hne hc hl₂ ih₁ ih₂ =>
    exact tested_onward hl₁ hne hc hl₂ (ih₁ trivial) (ih₂ trivial)
  | endless _ _ _ _ hl₁ hne hc hl₂ ih₁ ih₂ =>
    exact endless_onward hl₁ hne hc hl₂ (ih₁ trivial) (ih₂ trivial)
  | rounds hr hl₁ hl₂ ih₁ ih₂ => exact rounds_onward hr hl₁ hl₂ (ih₁ trivial) (ih₂ trivial)
  | updateUnentered hr _ =>
    rintro x (hm | hin)
    · exact absurd hm.mem (hm.not_mem hr.sound.below)
    · exact .self (.inl hin)
  | update _ _ _ ih => exact ih trivial
  | footless _ _ hl hfoot ih => exact footless_onward hl hfoot (ih trivial)
  | footed hr _ hl hne hc ih => exact footed_onward hr hl hne hc (ih trivial) _
  | select hr hne hc hl ih => exact select_onward hr hne hc hl (ih trivial)
  | casesEnd hr =>
    rintro x (hm | hin)
    · exact absurd hm.mem (hm.not_mem hr.sound.below)
    · refine .self (.inl ?_)
      simpa [Part.inputs, Part.outputs] using hin
  | case hr hc hl₁ hl₂ ih₁ ih₂ => exact case_onward hr hc hl₁ hl₂ (ih₁ trivial) (ih₂ trivial)
  | jump hr hne _ hc =>
    intro x hx
    exact ⟨_, hc.leads hr.sound hne hr.inputs hx, .inr (.inl ⟨_, mem_collected_sent .., rfl⟩)⟩
  | tryPlain _ _ hl₁ hl₂ ih₁ ih₂ =>
    exact fun x hx => try_leads hl₁ hl₂ (ih₁ trivial) (ih₂ (try_handled hl₁)) (.refl _)
      ⟨fun _ hx => .self (.inr (.inl hx)), fun _ hx => .self (.inr (.inr (.inl hx)))⟩
      (fun _ hx => .self (.inl (hx.mono (plain_subset hl₁ hl₂)))) hx
  | tryNodeless _ _ hl₁ hl₂ hl₃ _ ih₁ ih₂ ih₃ =>
    exact finalizer_onward hl₁ hl₂ hl₃ (ih₁ trivial) (ih₂ (try_handled hl₁)) (ih₃ trivial)
      (nodeless_leads _ _)
  | tryFinally _ _ hl₁ hl₂ hl₃ hsize ih₁ ih₂ ih₃ =>
    exact finalizer_onward hl₁ hl₂ hl₃ (ih₁ trivial) (ih₂ (try_handled hl₁)) (ih₃ trivial)
      (resumed_leads _ (finalizer_entered hl₃ hsize))
  | catchesEnd hr =>
    rintro x (hm | ⟨_, hp, _⟩)
    · exact absurd hm.mem (hm.not_mem hr.sound.below)
    · rw [Part.inputs, List.eq_nil_of_length_eq_zero (Nat.le_zero.1 hh)] at hp
      cases hp
  | catchesUnhandled hr =>
    rintro x (hm | ⟨_, hp, _⟩)
    · exact absurd hm.mem (hm.not_mem hr.sound.below)
    · cases hp
  | catchUnentered _ hin _ ih =>
    intro x hx
    refine ih (Nat.le_of_succ_le_succ hh) x (hx.imp_right ?_)
    simp [Part.inputs, hin]
  | «catch» hr hne hc hl₁ hl₂ ih₁ ih₂ =>
    exact catch_onward hr hne hc hl₁ hl₂ (ih₁ trivial) (ih₂ (Nat.le_of_succ_le_succ hh))
  | nested _ _ _ ih => exact ih trivial
  | blockEnd hr =>
    rintro x (hm | hin)
    · exact absurd hm.mem (hm.not_mem hr.sound.below)
    · exact .self (.inl hin)
  | blockNext _ hl₁ hl₂ ih₁ ih₂ =>
    have hext := hl₂.grown.ext
    have hrest {y : NodeId} := ih₂ trivial y
    have hfirst {y : NodeId} (hy : _) := (ih₁ trivial).bind (x := y) hy hext.graph (hext.carries _)
      (fun y hx => hrest (.inr hx)) fun _ hf => hf.elim
    rintro x (hm | hin)
    · rcases hm.split hext with hm | hm
      exacts [hfirst (.inl hm), hrest (.inl hm)]
    · exact hfirst (.inr hin)

end Lowering

end Slicing
