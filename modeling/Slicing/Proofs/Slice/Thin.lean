import Slicing.Proofs.Dependence.Recomputation
import Slicing.Proofs.Slice.Shortcut

/-!
# Thin slices

A thin slice leaves control dependences out. Without the summary edges that are computed it holds
the nodes that a value at the criterion may come from, along data dependences, parameters and
opaque calls (`SystemGraph.DataStep`).

A summary edge that is computed stands for all dependences within a callee, those of control among
them. A thin slice that follows it may hold nodes whose values do not get to the criterion
(`Slicer.choice_not_thin`). It holds none, and summary edges make no difference to thin slices,
just when each summary edge stands beside a path of values. This is so if all that influences
what a callee hands back is passed on as a value, by the callees of the callee where it makes calls
(`SystemGraph.Explicit`, `Slicer.Serves.ask_thin`).
-/

namespace Slicing

open ProcedureGraph Relation

/-! ## Paths of values -/

namespace SystemGraph

/-- A value goes along a dependence. All that goes into an opaque call may come out of it. -/
def Carries (g : SystemGraph) : Dependence → Prop
  | .data _ | .parameterIn _ | .parameterOut _ => True
  | .summary site => g.isOpaqueAt site = true
  | .control | .call _ => False

/-- No value goes along a control dependence or into a callee by its call. -/
theorem Carries.not_control {g : SystemGraph} {d : Dependence} (hcarries : g.Carries d) :
    ¬(d.kind = .control ∨ d.kind = .call) := by
  rintro (hkind | hkind) <;> cases d <;> first | exact hcarries | cases hkind

/-- A value goes along an edge from a node to another. -/
def DataStep (g : SystemGraph) (u v : NodeId) : Prop := ∃ d, ⟨u, v, d⟩ ∈ g.edges ∧ g.Carries d

/-- Each summary edge stands beside a path of values. -/
def Accompanied (g : SystemGraph) : Prop :=
  ∀ a o site, (a, o, site) ∈ g.summaryEdges → ReflTransGen g.DataStep a o

/-- A value is passed on from a node to another of the same callable. Where the callable makes
    a call that is not opaque, a callee passes it on. -/
inductive PassesOn (g : SystemGraph) : NodeId → NodeId → Prop
  | refl (u : NodeId) : PassesOn g u u
  | data {u v w : NodeId} {var : String} : PassesOn g u v → ⟨v, w, .data var⟩ ∈ g.edges → PassesOn g u w
  | across {u v w : NodeId} {site : CallSiteId} : PassesOn g u v → ⟨v, w, .summary site⟩ ∈ g.edges →
      g.isOpaqueAt site = true → PassesOn g u w
  | through {u a o formalIn formalOut : NodeId} {i : Invocation} {p : Procedure} {position : Nat}
      {slot : OutputSlot} : PassesOn g u a → g.MayCall i p → i.actualIns[position]? = some a →
      p.formalIns[position]? = some formalIn → PassesOn g formalIn formalOut →
      (slot, formalOut) ∈ p.formalOuts → i.actualOut? slot = some o → PassesOn g u o

/-- All that influences what a callee hands back is passed on to there as a value. -/
def Explicit (g : SystemGraph) : Prop :=
  ∀ i p, g.MayCall i p → i.isOpaque = false → ∀ formalIn ∈ p.formalIns, ∀ slot formalOut,
    (slot, formalOut) ∈ p.formalOuts → ReflTransGen (g.LocalStep g.summaries) formalIn formalOut →
      g.PassesOn formalIn formalOut

section Building

variable {config : SummaryConfig} {h : Hierarchy} {calls : CallGraph} {graphs : List ProcedureGraph}
  {g g₁ : SystemGraph}

/-- A summary edge that was not there for a start is one that is proposed for a callee, where all
    edges are there. -/
theorem Builds.exists_proposal (hsep : Separate graphs) (hb : Builds config h calls graphs g₁ g)
    {e : DependenceEdge} (he : e ∈ g.edges) (hnew : e ∉ g₁.edges) :
    ∃ c, ∃ q ∈ g.proposals c, q.edge = e := by
  have henabled : config.enabled = true := by
    by_contra hdisabled
    obtain ⟨tally, rfl⟩ := hb.rounds
    rw [if_neg hdisabled] at he
    exact hnew he
  obtain ⟨A, hA, hsettled⟩ := hb.settled hsep henabled
  have hsound := hb.sound (E := {e | e ∈ g.edges ∧ ∃ c, ∃ q ∈ g.proposals c, q.edge = e}) (B := A) ?_ hA
  · exact ((hsound e he).resolve_left hnew).2
  · intro g' henr _ hsub c hc q hq
    have henr' : Enriches g' g := ⟨hb.enriches.nodes.trans henr.nodes.symm,
      hb.enriches.procedures.trans henr.procedures.symm,
      hb.enriches.invocations.trans henr.invocations.symm,
      fun e he => (hsub e he).elim (hb.enriches.edges e) fun he => he.1⟩
    have hq := henr'.mem_proposals hb.isLocal hq
    obtain ⟨hjoined, hcaller⟩ := hsettled.done c hc List.not_mem_nil q hq
    refine ⟨fun hjoins => ⟨hjoined (hb.enriches.nodes ▸ hjoins), c, q, hq, rfl⟩, fun hnew => ?_⟩
    exact hcaller.resolve_left fun he => hnew (henr.edges _ he)

section Built

variable (hsep : Separate graphs) (hb : Builds config h calls graphs g₁ g)

include hsep hb

/-- What a callee passes on goes into the call and comes out of it. -/
theorem Builds.data_through {i : Invocation} {p : Procedure} (hcall : g.MayCall i p) {position : Nat}
    {slot : OutputSlot} {a o formalIn formalOut : NodeId} (ha : i.actualIns[position]? = some a)
    (hin : p.formalIns[position]? = some formalIn) (hreach : ReflTransGen g.DataStep formalIn formalOut)
    (hout : (slot, formalOut) ∈ p.formalOuts) (ho : i.actualOut? slot = some o) :
    ReflTransGen g.DataStep a o := by
  obtain ⟨before, after, hactuals, -⟩ := List.lookup_eq_some_iff.1 ho
  have hactual : (slot, o) ∈ i.actualOuts := hactuals ▸ by simp
  have henter : g.DataStep a formalIn :=
    ⟨.parameterIn position, hb.assembles.parameterIn_mem hsep hcall ha hin, trivial⟩
  have hreturn : g.DataStep formalOut o :=
    ⟨.parameterOut slot, hb.assembles.parameterOut_mem hsep hcall hactual hout, trivial⟩
  exact .head henter (hreach.tail hreturn)

/-- What is passed on gets there along a path of values. -/
theorem Builds.data_of_passesOn {u v : NodeId} (hpasses : g.PassesOn u v) :
    ReflTransGen g.DataStep u v := by
  induction hpasses with
  | refl u => exact .refl
  | data _ he ih => exact ih.tail ⟨_, he, trivial⟩
  | across _ he hsealed ih => exact ih.tail ⟨_, he, hsealed⟩
  | through _ hcall ha hin _ hout ho ih ihcallee =>
    exact ih.trans (hb.data_through hsep hcall ha hin ihcallee hout ho)

/-- If all that influences what callees hand back is passed on, then summary edges stand for
    nothing but values. -/
theorem Builds.accompanied (hexplicit : g.Explicit) : g.Accompanied := by
  intro a o site he
  have he : ⟨a, o, .summary site⟩ ∈ g.edges := mem_summaries_iff.1 he
  cases hsite : g.isOpaqueAt site with
  | true => exact .single ⟨_, he, hsite⟩
  | false =>
    have hnew : (⟨a, o, .summary site⟩ : DependenceEdge) ∉ g₁.edges := by
      intro hstart
      have hcomputed := hb.isComputed_eq_false hstart
      simp [isComputed, hsite] at hcomputed
    obtain ⟨c, q, hq, heq⟩ := hb.exists_proposal hsep he hnew
    obtain ⟨p, hp, i, hi, htarget, position, slot, ⟨formalIn, formalOut, hin, hout, hreach⟩, a', o', ha, ho,
      rfl⟩ := (mem_proposals_iff hb.joined).1 hq
    cases heq
    obtain ⟨hmem, rfl⟩ := (hb.assembles.procedure?_eq_some_iff hsep).1 hp
    rw [hb.assembles.isOpaqueAt_eq hi] at hsite
    have hpasses := hexplicit i p ⟨hi, hmem, htarget⟩ hsite formalIn (List.mem_of_getElem? hin) slot
      formalOut hout hreach
    exact hb.data_through hsep ⟨hi, hmem, htarget⟩ ha hin (hb.data_of_passesOn hsep hpasses) hout ho

end Built

end Building

end SystemGraph

/-! ## Thin traversals -/

namespace Traversal

variable {g : SystemGraph} {n m : NodeId}

/-- A thin traversal goes back along what carries values, and along summary edges if it uses them. -/
theorem step_iff_of_thin (hjoined : ∀ e ∈ g.edges, SystemGraph.joins g.nodes e = true) {useSummaries : Bool}
    {location : Location} {u v : NodeId} :
    (Traversal.mk .backward .closure false useSummaries).Step g ⟨location, none⟩ n .full u v ↔
      g.DataStep v u ∨ useSummaries = true ∧ ∃ site, (v, u, site) ∈ g.summaryEdges := by
  rw [step_iff]
  constructor
  · rintro ⟨-, d, hadmissible, he⟩
    cases d with
    | control => cases hadmissible.control (.inl rfl)
    | call site => cases hadmissible.control (.inr rfl)
    | data _ | parameterIn _ | parameterOut _ => exact .inl ⟨_, he, trivial⟩
    | summary site =>
      obtain hsummaries | hsealed := hadmissible.summary site rfl
      · exact .inr ⟨hsummaries, site, SystemGraph.mem_summaries_iff.2 he⟩
      · exact .inl ⟨_, he, hsealed⟩
  · intro hstep
    obtain ⟨d, he, hadmissible⟩ : ∃ d, ⟨v, u, d⟩ ∈ g.edges ∧
        (Traversal.mk .backward .closure false useSummaries).Admissible g .full d := by
      obtain ⟨d, he, hcarries⟩ | ⟨hsummaries, site, he⟩ := hstep
      · refine ⟨d, he, ?_, ?_, nofun, nofun⟩
        · exact fun hkind => absurd hkind hcarries.not_control
        · rintro site rfl
          exact .inr hcarries
      · refine ⟨_, SystemGraph.mem_summaries_iff.1 he, ?_, fun _ _ => .inl hsummaries, nofun, nofun⟩
        rintro (hkind | hkind) <;> cases hkind
    exact ⟨(SystemGraph.joins_iff.1 (hjoined _ he)).1, d, hadmissible, he⟩

/-- What a thin traversal finds, with summary edges or without them. -/
theorem mem_found_thin_iff (hjoined : ∀ e ∈ g.edges, SystemGraph.joins g.nodes e = true)
    {useSummaries : Bool} :
    m ∈ (Traversal.mk .backward .closure false useSummaries).found g ⟨n, none⟩ ↔
      ReflTransGen (fun u v => g.DataStep u v ∨
        useSummaries = true ∧ ∃ site, (u, v, site) ∈ g.summaryEdges) m n := by
  rw [mem_found_iff rfl (.node n), ← reflTransGen_swap]
  have hsteps : Function.swap ((Traversal.mk .backward .closure false useSummaries).Step g
      ⟨.node n, none⟩ n .full) = fun u v => g.DataStep u v ∨
        useSummaries = true ∧ ∃ site, (u, v, site) ∈ g.summaryEdges :=
    funext₂ fun u v => propext (step_iff_of_thin hjoined)
  rw [hsteps]

/-- Without summary edges a thin traversal finds what values come from. -/
theorem mem_found_data_iff (hjoined : ∀ e ∈ g.edges, SystemGraph.joins g.nodes e = true) :
    m ∈ (Traversal.mk .backward .closure false false).found g ⟨n, none⟩ ↔
      ReflTransGen g.DataStep m n := by
  rw [mem_found_thin_iff hjoined]
  simp

/-- If values take the same ways as summary edges, a thin traversal finds what values come from. -/
theorem mem_found_iff_of_accompanied (hjoined : ∀ e ∈ g.edges, SystemGraph.joins g.nodes e = true)
    (haccompanied : g.Accompanied) :
    m ∈ (Traversal.mk .backward .closure false true).found g ⟨n, none⟩ ↔ ReflTransGen g.DataStep m n := by
  rw [mem_found_thin_iff hjoined]
  constructor
  · refine ReflTransGen.lift' id (fun u v hstep => ?_) m n
    obtain hdata | ⟨-, site, he⟩ := hstep
    · exact .single hdata
    · exact haccompanied u v site he
  · exact ReflTransGen.mono (fun _ _ => .inl) m n

end Traversal

/-! ## Thin slices -/

/-- A slice holds the nodes that a value at its criterion comes from. -/
def Slice.IsOfValues (slice : Slice) (g : SystemGraph) : Prop :=
  ∀ m, m ∈ slice.nodes ↔ ReflTransGen g.DataStep m slice.node

/-- A slice is one of values by the nodes that were found. -/
theorem Slice.isOfValues_ofNodes {g : SystemGraph} {c : Criterion} {n : NodeId} {direction : Direction}
    {found : List NodeId} : (Slice.ofNodes g c n direction found).IsOfValues g ↔
      ∀ m, m ∈ found ↔ ReflTransGen g.DataStep m n :=
  forall_congr' fun _ => iff_congr mem_ascending Iff.rfl

namespace Slicer

variable {g : SystemGraph} {sc : SliceConfig} {s : Slicer}

/-- A thin slice is that of what a thin traversal finds from the node that is meant. -/
theorem Serves.ask_thin_eq (hs : Serves g sc s) (hstrategy : sc.strategy = .closure) (location : Location) :
    (s.ask (.thin ⟨location, none⟩)).1 = ((g.locate ⟨location, none⟩).map fun n =>
      .ofNodes g ⟨location, none⟩ n .backward
        ((Traversal.mk .backward .closure false sc.useSummaries).found g ⟨n, none⟩)).mapError .criterion := by
  rw [hs.ask_eq, Query.thin, Query.answer_slice_location, SliceConfig.traversal, hstrategy]

/-- All thin slices are of values just when all thin traversals find what values come from. -/
theorem Serves.isOfValues_iff (hs : Serves g sc s) (hstrategy : sc.strategy = .closure) :
    (∀ location slice, (s.ask (.thin ⟨location, none⟩)).1 = .ok slice → slice.IsOfValues g) ↔
      ∀ n ∈ g.nodeIds, ∀ m, m ∈ (Traversal.mk .backward .closure false sc.useSummaries).found g ⟨n, none⟩ ↔
        ReflTransGen g.DataStep m n := by
  constructor
  · intro hslices n hn
    have hslice := hs.ask_thin_eq hstrategy (.node n)
    rw [Query.locate_node, if_pos hn] at hslice
    exact Slice.isOfValues_ofNodes.1 (hslices (.node n) _ hslice)
  · intro hfound location slice hslice
    rw [hs.ask_thin_eq hstrategy] at hslice
    cases hlocate : g.locate ⟨location, none⟩ with
    | error e =>
      rw [hlocate] at hslice
      cases hslice
    | ok n =>
      rw [hlocate] at hslice
      cases hslice
      exact Slice.isOfValues_ofNodes.2 (hfound n (SystemGraph.locate_eq_ok_iff.1 hlocate).mem_nodeIds)

variable {config : SummaryConfig} {h : Hierarchy} {calls : CallGraph} {graphs : List ProcedureGraph}

/-- A slicer that passes by summary edges finds thin slices of values. With summary edges it does
    so, and finds the same slices, just when each of them stands beside a path of values, as they
    do where callees pass on whatever influences what they hand back. -/
theorem Serves.ask_thin (hsep : Separate graphs) (hg : SystemGraph.build config h calls graphs = .ok g)
    (sc : SliceConfig) (hstrategy : sc.strategy = .closure) {s s' : Slicer}
    (hs : Serves g { sc with useSummaries := true } s)
    (hs' : Serves g { sc with useSummaries := false } s') :
    (∀ location slice, (s'.ask (.thin ⟨location, none⟩)).1 = .ok slice → slice.IsOfValues g) ∧
      ((∀ location slice, (s.ask (.thin ⟨location, none⟩)).1 = .ok slice → slice.IsOfValues g) ↔
        g.Accompanied) ∧
      ((∀ location, (s.ask (.thin ⟨location, none⟩)).1 = (s'.ask (.thin ⟨location, none⟩)).1) ↔
        g.Accompanied) ∧
      (g.Explicit → g.Accompanied) := by
  obtain ⟨g₁, hb⟩ := SystemGraph.build_eq_ok hsep hg
  have hoff := (hs'.isOfValues_iff hstrategy).2 fun _ _ _ => Traversal.mem_found_data_iff hb.joined
  have hon : (∀ location slice, (s.ask (.thin ⟨location, none⟩)).1 = .ok slice → slice.IsOfValues g) ↔
      g.Accompanied := by
    rw [hs.isOfValues_iff hstrategy]
    constructor
    · intro hfound a o site he
      have ho := (SystemGraph.joins_iff.1 (hb.joined _ (SystemGraph.mem_summaries_iff.1 he))).2
      refine (hfound o ho a).1 ((Traversal.mem_found_thin_iff hb.joined).2 (.single (.inr ?_)))
      exact ⟨rfl, site, he⟩
    · exact fun haccompanied _ _ _ => Traversal.mem_found_iff_of_accompanied hb.joined haccompanied
  -- without summary edges slices are thin anyway, so the two agree just if the others are thin
  refine ⟨hoff, hon, ⟨fun heq => ?_, fun haccompanied location => ?_⟩, hb.accompanied hsep⟩
  · refine hon.1 fun location slice hslice => hoff location slice ?_
    rw [← heq, hslice]
  · rw [hs.ask_thin_eq hstrategy, hs'.ask_thin_eq hstrategy]
    congr 2
    funext n
    refine Slice.ofNodes_congr g _ n .backward fun m => ?_
    exact (Traversal.mem_found_iff_of_accompanied hb.joined haccompanied).trans
      (Traversal.mem_found_data_iff hb.joined).symm

set_option synthInstance.maxSize 512 in
/-- Two callables call each other and pass on what comes back through a third one. Summary edges
    make no difference to the thin slice of what they return. -/
theorem recursion_thin : ∃ g,
    SystemGraph.build ⟨true, 9⟩ (SystemGraph.declarations [⟨0⟩, ⟨1⟩, ⟨2⟩, ⟨3⟩])
        (SystemGraph.callsFrom [(0, 1), (1, 0), (1, 2)]) SystemGraph.relays = .ok g ∧
      (⟨3⟩, ⟨5⟩, ⟨0⟩) ∈ g.summaryEdges ∧ g.Explicit ∧
      (({ graph := g, config := ⟨.backward, .closure, true, true, 0⟩ } : Slicer).ask
          (.thin ⟨.node ⟨6⟩, none⟩)).1 =
        (({ graph := g, config := ⟨.backward, .closure, true, false, 0⟩ } : Slicer).ask
          (.thin ⟨.node ⟨6⟩, none⟩)).1 := by
  obtain ⟨g, hg, hmem, hformals, hdata, ⟨i, hi, p, hp, hcall⟩, ⟨j, hj, q, hq, hcall'⟩⟩ : ∃ g,
      SystemGraph.build ⟨true, 9⟩ (SystemGraph.declarations [⟨0⟩, ⟨1⟩, ⟨2⟩, ⟨3⟩])
          (SystemGraph.callsFrom [(0, 1), (1, 0), (1, 2)]) SystemGraph.relays = .ok g ∧
        ((⟨3⟩, ⟨5⟩, ⟨0⟩) : NodeId × NodeId × CallSiteId) ∈ g.summaryEdges ∧
        (∀ i ∈ g.invocations, ∀ p ∈ g.procedures, p.callable ∈ i.targets →
          (p.formalIns, p.formalOuts) ∈ ([([⟨2⟩], [(.result, ⟨6⟩)]), ([⟨9⟩], [(.result, ⟨13⟩)]),
            ([⟨16⟩], [(.result, ⟨17⟩)])] : List (List NodeId × List (OutputSlot × NodeId)))) ∧
        (∀ e ∈ ([⟨⟨2⟩, ⟨3⟩, .data "x"⟩, ⟨⟨5⟩, ⟨6⟩, .data returnVar⟩, ⟨⟨9⟩, ⟨10⟩, .data "x"⟩,
          ⟨⟨12⟩, ⟨13⟩, .data returnVar⟩, ⟨⟨16⟩, ⟨17⟩, .data "x"⟩] : List DependenceEdge), e ∈ g.edges) ∧
        (∃ i ∈ g.invocations, ∃ p ∈ g.procedures, p.callable ∈ i.targets ∧
          i.actualIns[0]? = some ⟨10⟩ ∧ p.formalIns[0]? = some ⟨16⟩ ∧ (.result, ⟨17⟩) ∈ p.formalOuts ∧
          i.actualOut? .result = some ⟨12⟩) ∧
        ∃ i ∈ g.invocations, ∃ p ∈ g.procedures, p.callable ∈ i.targets ∧
          i.actualIns[0]? = some ⟨3⟩ ∧ p.formalIns[0]? = some ⟨9⟩ ∧ (.result, ⟨13⟩) ∈ p.formalOuts ∧
          i.actualOut? .result = some ⟨5⟩ :=
    SystemGraph.exists_ok_of_any (by cbv)
  simp only [List.forall_mem_cons] at hdata
  obtain ⟨h₁, h₂, h₃, h₄, h₅, -⟩ := hdata
  -- the callee that makes no call first, then those that call it
  have hleaf : g.PassesOn ⟨16⟩ ⟨17⟩ := .data (.refl _) h₅
  have hinner : g.PassesOn ⟨9⟩ ⟨13⟩ := by
    obtain ⟨htarget, ha, hin, hout, ho⟩ := hcall
    exact .data (.through (.data (.refl _) h₃) ⟨hi, hp, htarget⟩ ha hin hleaf hout ho) h₄
  have houter : g.PassesOn ⟨2⟩ ⟨6⟩ := by
    obtain ⟨htarget, ha, hin, hout, ho⟩ := hcall'
    exact .data (.through (.data (.refl _) h₁) ⟨hj, hq, htarget⟩ ha hin hinner hout ho) h₂
  have hexplicit : g.Explicit := by
    rintro i p ⟨hi, hp, htarget⟩ - formalIn hin slot formalOut hout -
    have hmem := hformals i hi p hp htarget
    simp only [List.mem_cons, Prod.mk.injEq, List.not_mem_nil, or_false] at hmem
    obtain ⟨hins, houts⟩ | ⟨hins, houts⟩ | ⟨hins, houts⟩ := hmem <;> rw [hins] at hin <;>
      rw [houts] at hout <;> obtain rfl := List.mem_singleton.1 hin <;> cases List.mem_singleton.1 hout <;>
      assumption
  have hnew (useSummaries : Bool) : Serves g ⟨.backward, .closure, true, useSummaries, 0⟩
      { graph := g, config := ⟨.backward, .closure, true, useSummaries, 0⟩ } := .new rfl
  obtain ⟨-, -, hequal, haccompanied⟩ := Serves.ask_thin SystemGraph.relays_separate hg
    ⟨.backward, .closure, true, true, 0⟩ rfl (hnew true) (hnew false)
  exact ⟨g, hg, hmem, hexplicit, hequal.2 (haccompanied hexplicit) _⟩

/-- A callable that returns its parameter at a call, and one that looks at its parameter to choose
    what it returns. -/
def choice : List ProcedureGraph :=
  [SystemGraph.relay ⟨0⟩ ⟨0⟩ 0,
    { callable := ⟨1⟩
      entry := ⟨7⟩
      exit := ⟨8⟩
      nodes := [{ id := ⟨7⟩, callable := ⟨1⟩, kind := .entry, text := "enter" },
        { id := ⟨8⟩, callable := ⟨1⟩, kind := .exit, text := "exit" },
        { id := ⟨9⟩, callable := ⟨1⟩, kind := .formalIn 0, text := "in x" },
        { id := ⟨10⟩, callable := ⟨1⟩, kind := .predicate, text := "if (x)" },
        { id := ⟨11⟩, callable := ⟨1⟩, kind := .returnJump, text := "return 1" },
        { id := ⟨12⟩, callable := ⟨1⟩, kind := .returnJump, text := "return 2" },
        { id := ⟨13⟩, callable := ⟨1⟩, kind := .formalOut .result, text := "out return" }]
      edges := [⟨⟨9⟩, ⟨10⟩, .data "x"⟩, ⟨⟨10⟩, ⟨11⟩, .control⟩, ⟨⟨10⟩, ⟨12⟩, .control⟩,
        ⟨⟨11⟩, ⟨13⟩, .data returnVar⟩, ⟨⟨12⟩, ⟨13⟩, .data returnVar⟩]
      formalIns := [⟨9⟩]
      formalOuts := [(.result, ⟨13⟩)]
      callSites := [] }]

/-- No number is given to two nodes. -/
theorem choice_separate : Separate choice := by
  refine ⟨?_, by decide, by decide⟩
  simp only [choice, List.forall_mem_cons, List.not_mem_nil, false_implies, implies_true, and_true]
  refine ⟨SystemGraph.relay_wellFormed _ _ _, ?_⟩
  constructor <;> simp [ProcedureGraph.nodeIds]

/-- With summary edges the thin slice of what comes back holds the argument, no value of which is
    ever returned. -/
theorem choice_not_thin : ∃ g,
    SystemGraph.build ⟨true, 9⟩ (SystemGraph.declarations [⟨0⟩, ⟨1⟩]) (SystemGraph.callsFrom [(0, 1)])
        choice = .ok g ∧
      (∃ slice, (({ graph := g, config := ⟨.backward, .closure, true, true, 0⟩ } : Slicer).ask
          (.thin ⟨.node ⟨6⟩, none⟩)).1 = .ok slice ∧ slice.node = ⟨6⟩ ∧ ⟨3⟩ ∈ slice.nodes) ∧
      ¬ReflTransGen g.DataStep ⟨3⟩ ⟨6⟩ ∧
      (({ graph := g, config := ⟨.backward, .closure, true, true, 0⟩ } : Slicer).ask
          (.thin ⟨.node ⟨6⟩, none⟩)).1 ≠
        (({ graph := g, config := ⟨.backward, .closure, true, false, 0⟩ } : Slicer).ask
          (.thin ⟨.node ⟨6⟩, none⟩)).1 := by
  obtain ⟨g, hg, hn, hon, hoff⟩ : ∃ g,
      SystemGraph.build ⟨true, 9⟩ (SystemGraph.declarations [⟨0⟩, ⟨1⟩]) (SystemGraph.callsFrom [(0, 1)])
          choice = .ok g ∧
        (⟨6⟩ : NodeId) ∈ g.nodeIds ∧
        (⟨3⟩ : NodeId) ∈ (Traversal.mk .backward .closure false true).found g ⟨⟨6⟩, none⟩ ∧
        (⟨3⟩ : NodeId) ∉ (Traversal.mk .backward .closure false false).found g ⟨⟨6⟩, none⟩ :=
    SystemGraph.exists_ok_of_any (by cbv)
  obtain ⟨g₁, hb⟩ := SystemGraph.build_eq_ok choice_separate hg
  have hanswer (useSummaries : Bool) :
      (({ graph := g, config := ⟨.backward, .closure, true, useSummaries, 0⟩ } : Slicer).ask
        (.thin ⟨.node ⟨6⟩, none⟩)).1 = .ok (.ofNodes g ⟨.node ⟨6⟩, none⟩ ⟨6⟩ .backward
          ((Traversal.mk .backward .closure false useSummaries).found g ⟨⟨6⟩, none⟩)) := by
    have hserves : Serves g ⟨.backward, .closure, true, useSummaries, 0⟩
        { graph := g, config := ⟨.backward, .closure, true, useSummaries, 0⟩ } := .new rfl
    rw [hserves.ask_thin_eq rfl, Query.locate_node, if_pos hn]
    rfl
  refine ⟨g, hg, ⟨_, hanswer true, rfl, mem_ascending.2 hon⟩, ?_, fun heq => hoff ?_⟩
  · rwa [← Traversal.mem_found_data_iff hb.joined]
  · rw [hanswer, hanswer] at heq
    have hnodes := congrArg (fun slice => (⟨3⟩ : NodeId) ∈ slice.nodes) (Except.ok.inj heq)
    exact mem_ascending.1 (hnodes.mp (mem_ascending.2 hon))

end Slicer

end Slicing
