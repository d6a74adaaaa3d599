import Slicing.Proofs.Flow.DataDependence
import Slicing.Proofs.Flow.Placement
import Slicing.Proofs.Flow.Sequences
import Slicing.Proofs.Flow.Sites

/-!
# Results of calls

The result of a call is handed on by a variable of its own (`resultVar`), which the return actual-out
of the call writes and the node that evaluates the call reads: that of the construct around it, or
the actual-in of the argument that it stands in (`CallableDecl.evaluations`). If the calls of a
callable have different numbers and no variable of the front end has a name of this form, there is
one such write and one such read. Control goes on from the one to the other, so the result of each
call gets to where it is evaluated and nowhere else (`FlowGraph.build_handsOver`).
-/

namespace Slicing

/-! ## Variables -/

/-- The variables in the arguments of a call. -/
def CallSite.vars (site : CallSite) : List String := site.args.flatMap fun arg => arg.uses ++ arg.var.toList

/-- The variables in a segment. -/
def Segment.vars (c : Segment) : List String :=
  c.defs ++ c.effects.defs ++ c.effects.uses ++ c.calls.flatMap (·.vars)

/-- The variables in a callable, and the one that its `return` statements write. -/
def CallableDecl.vars (decl : CallableDecl) : List String :=
  decl.params.map (·.name) ++ decl.segments.flatMap (·.vars)

/-- A variable has a name like those that hold the results of calls. -/
def NamesResult (var : String) : Prop := "$call".toList <+: var.toList

instance (var : String) : Decidable (NamesResult var) :=
  inferInstanceAs (Decidable ("$call".toList <+: var.toList))

/-- The variable of a result is named like one. -/
theorem namesResult_resultVar (id : CallSiteId) : NamesResult (resultVar id) := by
  rw [NamesResult, resultVar, String.toList_append]
  exact List.prefix_append _ _

/-- The variables of the results of different calls are different. -/
theorem resultVar_injective {id id' : CallSiteId} (h : resultVar id = resultVar id') : id = id' := by
  have hlist := congrArg String.toList h
  rw [resultVar, resultVar, String.toList_append, String.toList_append] at hlist
  have hdigits := congrArg (Nat.ofDigitChars 10 · 0) (List.append_cancel_left hlist)
  exact Ident.rank_injective (by simpa [Nat.toString_eq_ofList_toDigits] using hdigits)

/-! ## Evaluations -/

mutual

/-- The calls that a call takes, with the points where they are evaluated: the call itself at some
    point, and those in an argument at the actual-in of the argument. -/
def CallSite.evaluations (point : Point) : CallSite → List (CallSite × Point)
  | ⟨id, text, target, dispatch, args, resultUsed, throws⟩ =>
    argEvaluations id 0 args ++ [(⟨id, text, target, dispatch, args, resultUsed, throws⟩, point)]

/-- The calls in the arguments of a call from a position on, with the points of their evaluation. -/
def argEvaluations (site : CallSiteId) (position : Nat) :
    List (Argument CallSite) → List (CallSite × Point)
  | [] => []
  | ⟨_, _, calls, _⟩ :: args =>
    allEvaluations ⟨.actualIn site position, none⟩ calls ++ argEvaluations site (position + 1) args

/-- The calls that some calls take, with the points of their evaluation. -/
def allEvaluations (point : Point) : List CallSite → List (CallSite × Point)
  | [] => []
  | site :: sites => site.evaluations point ++ allEvaluations point sites

end

/-- The point that a node stands for. -/
def Draft.point (d : Draft) : Point := ⟨d.kind, d.element⟩

/-- The calls of a segment, with the points of their evaluation. -/
def Segment.evaluations (c : Segment) : List (CallSite × Point) :=
  allEvaluations c.own.point c.effects.calls

/-- The calls of a callable, with the points of their evaluation. -/
def CallableDecl.evaluations (decl : CallableDecl) : List (CallSite × Point) :=
  decl.segments.flatMap (·.evaluations)

mutual

/-- Each call that a call makes is evaluated at some point. -/
theorem CallSite.map_fst_evaluations (point : Point) :
    ∀ site : CallSite, (site.evaluations point).map (·.1) = site.calls
  | ⟨id, text, target, dispatch, args, resultUsed, throws⟩ => by
    rw [CallSite.evaluations, CallSite.calls, List.map_append, map_fst_argEvaluations id 0 args]
    rfl

theorem map_fst_argEvaluations (site : CallSiteId) (position : Nat) :
    ∀ args : List (Argument CallSite), (argEvaluations site position args).map (·.1) = argCalls args
  | [] => rfl
  | ⟨_, _, calls, _⟩ :: args => by
    rw [argEvaluations, argCalls, List.map_append, map_fst_allEvaluations _ calls,
      map_fst_argEvaluations site (position + 1) args]

theorem map_fst_allEvaluations (point : Point) :
    ∀ sites : List CallSite, (allEvaluations point sites).map (·.1) = allCalls sites
  | [] => rfl
  | site :: sites => by
    rw [allEvaluations, allCalls, List.map_append, site.map_fst_evaluations, map_fst_allEvaluations point sites]

end

/-- Each call of a callable is evaluated at one point. -/
theorem CallableDecl.map_fst_evaluations (decl : CallableDecl) :
    decl.evaluations.map (·.1) = decl.calls := by
  have hsegments : decl.segments.flatMap (·.calls) = decl.calls := by
    rw [segments, calls, flatMap_blockSegments]
    cases decl.body <;> rfl
  rw [← hsegments, evaluations, List.map_flatMap]
  refine congrArg (List.flatMap · decl.segments) (funext fun c => ?_)
  exact map_fst_allEvaluations c.own.point c.effects.calls

/-! ## Nodes of calls -/

variable {h : Hierarchy} {sites sites' calls : List CallSite} {d : Draft} {position : Nat}

/-- A call is among those that it makes. -/
theorem mem_calls_self (site : CallSite) : site ∈ site.calls := by
  obtain ⟨id, text, target, dispatch, args, resultUsed, throws⟩ := site
  rw [CallSite.calls]
  exact List.mem_append_right _ (List.mem_singleton_self _)

/-- The calls of a construct are among all that it makes. -/
theorem subset_allCalls : ∀ calls : List CallSite, calls ⊆ allCalls calls
  | [] => List.nil_subset _
  | site :: sites => by
    rw [allCalls]
    refine List.cons_subset.2 ⟨List.mem_append_left _ (mem_calls_self site), ?_⟩
    exact List.subset_append_of_subset_right _ (subset_allCalls sites)

/-- A node of one of some calls, or of one of its arguments, which evaluates calls among them. -/
def Draft.OfCall (h : Hierarchy) (sites : List CallSite) (d : Draft) : Prop :=
  ∃ site ∈ sites, d ∈ site.ownDrafts h ∨
    ∃ position, ∃ arg ∈ site.args, arg.calls ⊆ sites ∧ d = arg.draft site.id position

mutual

/-- Each node that is drafted for a call is that of a call. -/
theorem ofCall_of_mem_drafts : ∀ {site : CallSite}, site.calls ⊆ sites → d ∈ site.drafts h → d.OfCall h sites
  | ⟨id, text, target, dispatch, args, resultUsed, throws⟩, hsub, hd => by
    have hsite := hsub (mem_calls_self _)
    rw [CallSite.calls] at hsub
    rw [CallSite.drafts] at hd
    rcases List.mem_append.1 hd with hd | hd
    · exact ofCall_of_mem_argDrafts hsite (List.Subset.refl args) (List.append_subset.1 hsub).1 hd
    · exact ⟨_, hsite, .inl hd⟩

/-- Each node that is drafted for arguments is that of a call. -/
theorem ofCall_of_mem_argDrafts {site : CallSite} (hsite : site ∈ sites) {position : Nat} :
    ∀ {args : List (Argument CallSite)}, args ⊆ site.args → argCalls args ⊆ sites →
      d ∈ argDrafts h site.id position args → d.OfCall h sites
  | [], _, _, hd => by cases hd
  | ⟨text, uses, calls, var⟩ :: args, hargs, hsub, hd => by
    rw [argCalls, List.append_subset] at hsub
    rw [argDrafts, List.mem_append, List.mem_cons] at hd
    obtain ⟨harg, hargs⟩ := List.cons_subset.1 hargs
    rcases hd with hd | rfl | hd
    · exact ofCall_of_mem_allDrafts hsub.1 hd
    · exact ⟨site, hsite, .inr ⟨position, _, harg, List.Subset.trans (subset_allCalls calls) hsub.1, rfl⟩⟩
    · exact ofCall_of_mem_argDrafts hsite hargs hsub.2 hd

theorem ofCall_of_mem_allDrafts : ∀ {calls : List CallSite}, allCalls calls ⊆ sites →
    d ∈ allDrafts h calls → d.OfCall h sites
  | [], _, hd => by cases hd
  | site :: rest, hsub, hd => by
    rw [allCalls, List.append_subset] at hsub
    rw [allDrafts, List.mem_append] at hd
    exact hd.elim (ofCall_of_mem_drafts hsub.1) (ofCall_of_mem_allDrafts hsub.2)

end

/-- A value that comes back in an argument is written to its variable. -/
theorem mem_writtenDrafts {site : CallSite} {passing : List Passing} {args : List (Argument CallSite)}
    (hd : d ∈ site.writtenDrafts passing position args) :
    ∃ position, ∃ arg ∈ args, ∃ var ∈ arg.var, d = site.outDraft (.param position) var := by
  fun_induction CallSite.writtenDrafts site passing position args with
  | case1 => cases hd
  | case2 position arg args var _ hvar ih =>
    rcases List.mem_cons.1 hd with rfl | hd
    · exact ⟨position, arg, List.mem_cons_self, var, hvar, rfl⟩
    · obtain ⟨position, arg, harg, hd⟩ := ih hd
      exact ⟨position, arg, List.mem_cons_of_mem _ harg, hd⟩
  | case3 position arg args _ ih =>
    obtain ⟨position, arg, harg, hd⟩ := ih hd
    exact ⟨position, arg, List.mem_cons_of_mem _ harg, hd⟩

/-- The nodes of a call behind those of its arguments: the call, its result, and what it writes. -/
theorem mem_ownDrafts {site : CallSite} (hd : d ∈ site.ownDrafts h) :
    d = { kind := .call site.id, text := site.text } ∨ site.resultUsed = true ∧ d = site.resultDraft ∨
      ∃ position, ∃ var ∈ site.vars, d = site.outDraft (.param position) var := by
  rw [CallSite.ownDrafts, CallSite.outDrafts, List.mem_cons, List.mem_append] at hd
  refine hd.imp_right (Or.imp (fun hd => ?_) fun hd => ?_)
  · split at hd
    · exact ⟨‹_›, List.mem_singleton.1 hd⟩
    · cases hd
  · obtain ⟨position, arg, harg, var, hvar, rfl⟩ := mem_writtenDrafts hd
    refine ⟨position, var, List.mem_flatMap.2 ⟨arg, harg, List.mem_append_right _ ?_⟩, rfl⟩
    rw [hvar]
    exact List.mem_singleton_self _

/-- The nodes of calls are of their own kinds. -/
theorem Draft.OfCall.kind (hd : d.OfCall h sites) : d.kind.isOfCall = true := by
  obtain ⟨site, -, hd | ⟨position, arg, -, -, rfl⟩⟩ := hd
  · rcases mem_ownDrafts hd with rfl | ⟨-, rfl⟩ | ⟨position, var, -, rfl⟩ <;> rfl
  · rfl

/-- The nodes of calls stand for no source elements. -/
theorem Draft.OfCall.element (hd : d.OfCall h sites) : d.element = none := by
  obtain ⟨site, -, hd | ⟨position, arg, -, -, rfl⟩⟩ := hd
  · rcases mem_ownDrafts hd with rfl | ⟨-, rfl⟩ | ⟨position, var, -, rfl⟩ <;> rfl
  · rfl

/-- A node writes only variables from a list and the result of the call that it hands back, and
    reads only variables from the list and the results of calls that it evaluates. -/
structure Draft.Minds (vars : List String) (sites : List CallSite) (d : Draft) : Prop where
  defs : ∀ var ∈ d.defs, var ∈ vars ∨
    ∃ site ∈ sites, site.resultUsed = true ∧ var = resultVar site.id ∧ d.kind = .actualOut site.id .result
  uses : ∀ var ∈ d.uses, var ∈ vars ∨
    ∃ site ∈ sites, site.resultUsed = true ∧ var = resultVar site.id ∧ site.id ∈ d.calls

/-- A node minds its variables among more variables and calls as well. -/
theorem Draft.Minds.mono {vars vars' : List String} (hd : d.Minds vars sites) (hvars : vars ⊆ vars')
    (hsites : sites ⊆ sites') : d.Minds vars' sites' where
  defs var hvar := (hd.defs var hvar).imp (hvars ·) fun ⟨site, hsite, hrest⟩ => ⟨site, hsites hsite, hrest⟩
  uses var hvar := (hd.uses var hvar).imp (hvars ·) fun ⟨site, hsite, hrest⟩ => ⟨site, hsites hsite, hrest⟩

/-- A variable of a result is that of a call whose result is used. -/
theorem mem_resultVars {var : String} (hvar : var ∈ Lowering.resultVars calls) :
    ∃ site ∈ calls, site.resultUsed = true ∧ var = resultVar site.id := by
  obtain ⟨site, hsite, rfl⟩ := List.mem_map.1 hvar
  exact ⟨site, (List.mem_filter.1 hsite).1, (List.mem_filter.1 hsite).2, rfl⟩

/-- A node that evaluates calls. -/
theorem Draft.minds_of_calls {vars uses : List String} (hdefs : d.defs ⊆ vars)
    (huses : d.uses = uses ++ Lowering.resultVars calls) (hsub : uses ⊆ vars)
    (hcalls : d.calls = calls.map (·.id)) (hsites : calls ⊆ sites) : d.Minds vars sites := by
  refine ⟨fun var hvar => .inl (hdefs hvar), fun var hvar => ?_⟩
  rw [huses, List.mem_append] at hvar
  refine hvar.imp (hsub ·) fun hvar => ?_
  obtain ⟨site, hsite, hused, rfl⟩ := mem_resultVars hvar
  exact ⟨site, hsites hsite, hused, rfl, hcalls ▸ List.mem_map_of_mem hsite⟩

/-- The nodes of calls write and read only variables of the calls and results that are used. -/
theorem Draft.OfCall.minds (hd : d.OfCall h sites) : d.Minds (sites.flatMap (·.vars)) sites := by
  obtain ⟨site, hsite, hd | ⟨position, arg, harg, hcalls, rfl⟩⟩ := hd
  · rcases mem_ownDrafts hd with rfl | ⟨hused, rfl⟩ | ⟨position, var, hvar, rfl⟩
    · exact ⟨nofun, nofun⟩
    · refine ⟨fun var hvar => .inr ⟨site, hsite, hused, List.mem_singleton.1 hvar, rfl⟩, nofun⟩
    · refine ⟨fun var' hvar' => .inl ?_, nofun⟩
      rw [List.mem_singleton.1 hvar']
      exact List.mem_flatMap.2 ⟨site, hsite, hvar⟩
  · refine Draft.minds_of_calls (List.nil_subset _) rfl (fun var hvar => ?_) rfl hcalls
    exact List.mem_flatMap.2 ⟨site, hsite, List.mem_flatMap.2 ⟨arg, harg, List.mem_append_left _ hvar⟩⟩

/-! ## Each call once -/

/-- The calls whose result a node hands back. -/
def Draft.results (d : Draft) : List CallSiteId :=
  match d.kind with
  | .actualOut site .result => [site]
  | _ => []

theorem Draft.results_of_plain (hd : d.kind.isOfCall = false) : d.results = [] := by
  obtain ⟨kind, _⟩ := d
  cases kind <;> first | rfl | cases hd

/-- The drafts of some calls: a call is evaluated by as many of them, and by whatever evaluates the
    calls themselves, as it is there, and the result of a call is handed back by at most as many. -/
structure Counted (calls all : List CallSite) (ds : List Draft) : Prop where
  evaluated : ∀ id, (ds.flatMap (·.calls)).count id + (calls.map (·.id)).count id = (all.map (·.id)).count id
  results : ∀ id, (ds.flatMap (·.results)).count id ≤ (all.map (·.id)).count id

namespace Counted

variable {calls' all all' : List CallSite} {ds ds' : List Draft}

theorem nil : Counted [] [] [] := ⟨by simp, by simp⟩

/-- The drafts of some calls and then those of others are counted together. -/
theorem append (hc : Counted calls all ds) (hc' : Counted calls' all' ds') :
    Counted (calls ++ calls') (all ++ all') (ds ++ ds') := by
  constructor <;> intro id
  · have := hc.evaluated id
    have := hc'.evaluated id
    simp only [List.flatMap_append, List.map_append, List.count_append]
    omega
  · have := hc.results id
    have := hc'.results id
    simp only [List.flatMap_append, List.map_append, List.count_append]
    omega

/-- Nodes that have nothing to do with calls. -/
theorem of_plain (hds : ∀ d ∈ ds, d.calls = [] ∧ d.kind.isOfCall = false) : Counted [] [] ds := by
  have hcalls := List.flatMap_eq_nil_iff.2 fun d hd => (hds d hd).1
  have hresults := List.flatMap_eq_nil_iff.2 fun d hd => Draft.results_of_plain (hds d hd).2
  exact ⟨fun id => by simp [hcalls], fun id => by simp [hresults]⟩

/-- The drafts of several constructs are counted together. -/
theorem flatMap {α : Type} {f : α → List CallSite} {k : α → List Draft} {as : List α}
    (has : ∀ a ∈ as, Counted [] (f a) (k a)) : Counted [] (as.flatMap f) (as.flatMap k) := by
  induction as with
  | nil => exact .nil
  | cons a as ih =>
    exact (has a List.mem_cons_self).append (ih fun b hb => has b (List.mem_cons_of_mem a hb))

/-- The node that evaluates some calls. -/
theorem evaluator (hc : Counted calls all ds) (hcalls : d.calls = calls.map (·.id)) (hd : d.results = []) :
    Counted [] all (ds ++ [d]) := by
  constructor <;> intro id
  · have := hc.evaluated id
    simp [hcalls, this]
  · have := hc.results id
    simpa [hd] using this

end Counted

/-- The own nodes of a call leave its evaluation to others, and hand back its result at most once.
    -/
theorem counted_ownDrafts (h : Hierarchy) (site : CallSite) : Counted [site] [site] (site.ownDrafts h) := by
  have hcalls : (site.ownDrafts h).flatMap (·.calls) = [] := by
    refine List.flatMap_eq_nil_iff.2 fun d hd => ?_
    rcases mem_ownDrafts hd with rfl | ⟨-, rfl⟩ | ⟨position, var, -, rfl⟩ <;> rfl
  have hwritten : (site.writtenDrafts (site.passing h) 0 site.args).flatMap (·.results) = [] := by
    refine List.flatMap_eq_nil_iff.2 fun d hd => ?_
    obtain ⟨position, arg, -, var, -, rfl⟩ := mem_writtenDrafts hd
    rfl
  have hresults : (site.ownDrafts h).flatMap (·.results) = if site.resultUsed then [site.id] else [] := by
    rw [CallSite.ownDrafts, CallSite.outDrafts, List.flatMap_cons, List.flatMap_append, hwritten,
      List.append_nil]
    split <;> rfl
  refine ⟨fun id => by simp [hcalls], fun id => ?_⟩
  rw [hresults]
  split <;> simp

mutual

/-- The nodes of a call evaluate the calls in its arguments, and hand back each result at most once.
    -/
theorem CallSite.counted (h : Hierarchy) : ∀ site : CallSite, Counted [site] site.calls (site.drafts h)
  | ⟨id, text, target, dispatch, args, resultUsed, throws⟩ => by
    rw [CallSite.drafts, CallSite.calls]
    exact (counted_argDrafts h id 0 args).append (counted_ownDrafts h _)

theorem counted_argDrafts (h : Hierarchy) (site : CallSiteId) (position : Nat) :
    ∀ args : List (Argument CallSite), Counted [] (argCalls args) (argDrafts h site position args)
  | [] => .nil
  | ⟨text, uses, calls, var⟩ :: args => by
    rw [argDrafts, argCalls, List.append_cons]
    exact ((counted_allDrafts h calls).evaluator rfl rfl).append (counted_argDrafts h site (position + 1) args)

/-- The nodes of some calls evaluate the calls in their arguments, and hand back each result at most
    once. -/
theorem counted_allDrafts (h : Hierarchy) : ∀ calls : List CallSite,
    Counted calls (allCalls calls) (allDrafts h calls)
  | [] => .nil
  | site :: sites => by
    rw [allDrafts, allCalls]
    exact (site.counted h).append (counted_allDrafts h sites)

end

/-! ## From the result to its evaluation -/

/-- The node for the result of a call stands in front of the node that evaluates the call, at some
    point, and reads its result. Only nodes of calls stand between them. -/
def HandsOver (ds : List Draft) (site : CallSite) (point : Point) : Prop :=
  ∃ before between evaluator after,
    ds = before ++ site.resultDraft :: (between ++ evaluator :: after) ∧
      (∀ d ∈ between, d.kind.isOfCall = true) ∧ evaluator.point = point ∧ site.id ∈ evaluator.calls ∧
      resultVar site.id ∈ evaluator.uses

namespace HandsOver

variable {site : CallSite} {point : Point} {ds : List Draft}

/-- What is handed over is handed over behind other nodes as well. -/
theorem append_left (hh : HandsOver ds site point) (ds' : List Draft) : HandsOver (ds' ++ ds) site point := by
  obtain ⟨before, between, evaluator, after, rfl, hrest⟩ := hh
  exact ⟨ds' ++ before, between, evaluator, after, (List.append_assoc ..).symm, hrest⟩

/-- What is handed over is handed over in front of other nodes as well. -/
theorem append_right (hh : HandsOver ds site point) (ds' : List Draft) : HandsOver (ds ++ ds') site point := by
  obtain ⟨before, between, evaluator, after, rfl, hrest⟩ := hh
  exact ⟨before, between, evaluator, after ++ ds', by simp, hrest⟩

theorem of_mem_flatMap {α : Type} {f : α → List Draft} {a : α} {as : List α} (ha : a ∈ as)
    (hh : HandsOver (f a) site point) : HandsOver (as.flatMap f) site point := by
  obtain ⟨before, after, rfl⟩ := List.append_of_mem ha
  rw [List.flatMap_append, List.flatMap_cons]
  exact (hh.append_right _).append_left _

/-- A node that evaluates some calls, right behind their nodes. -/
theorem evaluator (hh : HandsOver (allDrafts h calls) site point ∨
      site ∈ calls ∧ point = d.point ∧ site.resultDraft ∈ allDrafts h calls)
    (hused : site.resultUsed = true) (hcalls : d.calls = calls.map (·.id))
    (huses : Lowering.resultVars calls ⊆ d.uses) (after : List Draft) :
    HandsOver (allDrafts h calls ++ d :: after) site point := by
  rcases hh with hh | ⟨hsite, rfl, hresult⟩
  · exact hh.append_right _
  · obtain ⟨before, between, heq⟩ := List.append_of_mem hresult
    refine ⟨before, between, d, after, by simp [heq], fun d' hd' => ?_, rfl, ?_, huses ?_⟩
    · refine (ofCall_of_mem_allDrafts (h := h) (List.Subset.refl (allCalls calls)) ?_).kind
      rw [heq]
      exact List.mem_append_right _ (List.mem_cons_of_mem _ hd')
    · rw [hcalls]
      exact List.mem_map_of_mem hsite
    · exact List.mem_map.2 ⟨site, List.mem_filter.2 ⟨hsite, hused⟩, rfl⟩

end HandsOver

mutual

/-- The result of a call in an argument is handed over inside, and that of the call itself is
    drafted for whatever evaluates it. -/
theorem CallSite.handsOver (h : Hierarchy) (point : Point) :
    ∀ (site : CallSite), ∀ e ∈ site.evaluations point, e.1.resultUsed = true →
      HandsOver (site.drafts h) e.1 e.2 ∨ e = (site, point) ∧ site.resultDraft ∈ site.drafts h
  | ⟨id, text, target, dispatch, args, resultUsed, throws⟩, e, he, hused => by
    rw [CallSite.evaluations, List.mem_append, List.mem_singleton] at he
    rw [CallSite.drafts]
    rcases he with he | rfl
    · exact .inl ((handsOver_args h id 0 args e he hused).append_right _)
    · refine .inr ⟨rfl, List.mem_append_right _ (List.mem_cons_of_mem _ (List.mem_append_left _ ?_))⟩
      rw [if_pos hused]
      exact List.mem_singleton_self _

/-- The result of a call in an argument is handed over to the argument. -/
theorem handsOver_args (h : Hierarchy) (site : CallSiteId) (position : Nat) :
    ∀ (args : List (Argument CallSite)), ∀ e ∈ argEvaluations site position args,
      e.1.resultUsed = true → HandsOver (argDrafts h site position args) e.1 e.2
  | [], _, he, _ => by cases he
  | ⟨text, uses, calls, var⟩ :: args, e, he, hused => by
    rw [argEvaluations, List.mem_append] at he
    rw [argDrafts]
    rcases he with he | he
    · exact .evaluator (d := Argument.draft site position ⟨text, uses, calls, var⟩)
        (handsOver_calls h _ calls e he hused) hused rfl (List.subset_append_right _ _) _
    · rw [List.append_cons]
      exact (handsOver_args h site (position + 1) args e he hused).append_left _

/-- The results of calls in arguments are handed over inside, and those of the calls themselves are
    drafted for whatever evaluates them. -/
theorem handsOver_calls (h : Hierarchy) (point : Point) :
    ∀ (calls : List CallSite), ∀ e ∈ allEvaluations point calls, e.1.resultUsed = true →
      HandsOver (allDrafts h calls) e.1 e.2 ∨
        e.1 ∈ calls ∧ e.2 = point ∧ e.1.resultDraft ∈ allDrafts h calls
  | [], _, he, _ => by cases he
  | site :: sites, e, he, hused => by
    rw [allEvaluations, List.mem_append] at he
    rw [allDrafts]
    rcases he with he | he
    · rcases site.handsOver h point e he hused with hh | ⟨rfl, hresult⟩
      · exact .inl (hh.append_right _)
      · exact .inr ⟨List.mem_cons_self, rfl, List.mem_append_left _ hresult⟩
    · rcases handsOver_calls h point sites e he hused with hh | ⟨hsite, hpoint, hresult⟩
      · exact .inl (hh.append_left _)
      · exact .inr ⟨List.mem_cons_of_mem _ hsite, hpoint, List.mem_append_right _ hresult⟩

end

/-! ## Segments -/

namespace Segment

/-- The results of the calls of a construct are handed over inside of it. -/
theorem handsOver (h : Hierarchy) (c : Segment) :
    ∀ e ∈ c.evaluations, e.1.resultUsed = true → HandsOver (c.drafts h) e.1 e.2 :=
  fun e he hused => .evaluator (handsOver_calls h _ _ e he hused) hused rfl (List.subset_append_right _ _) _

/-- The nodes of a construct evaluate its calls, and hand back each result at most once. -/
theorem counted (h : Hierarchy) (c : Segment) : Counted [] c.calls (c.drafts h) := by
  have hown := (counted_allDrafts h c.effects.calls).evaluator (d := c.own) rfl (Draft.results_of_plain c.plain)
  have hlabel : Counted [] [] (c.label.map c.labelDraft).toList := by
    refine .of_plain fun d hd => ?_
    obtain ⟨label, -, rfl⟩ := Option.map_eq_some_iff.1 (Option.mem_toList.1 hd)
    exact ⟨rfl, rfl⟩
  have hall : Counted [] (c.calls ++ []) _ := hown.append hlabel
  rw [List.append_nil, List.append_assoc] at hall
  exact hall

/-- The nodes of a construct write and read its variables and results of its calls only. -/
theorem minds (h : Hierarchy) (c : Segment) : ∀ d ∈ c.drafts h, d.Minds c.vars c.calls := by
  intro d hd
  rw [drafts, List.mem_append, List.mem_cons, Option.mem_toList] at hd
  rcases hd with hd | rfl | hd
  · have hminds := (ofCall_of_mem_allDrafts (h := h) (List.Subset.refl (allCalls c.effects.calls)) hd).minds
    exact hminds.mono (List.subset_append_right _ _) (List.Subset.refl _)
  · refine Draft.minds_of_calls (List.subset_append_of_subset_left _ ?_) rfl ?_ rfl (subset_allCalls _)
    · exact List.subset_append_left _ _
    · exact List.subset_append_of_subset_left _ (List.subset_append_right _ _)
  · obtain ⟨label, -, rfl⟩ := Option.map_eq_some_iff.1 hd
    exact ⟨List.forall_mem_nil _, List.forall_mem_nil _⟩

end Segment

/-! ## Flow graphs -/

theorem mem_formalInDrafts {params : List Param} (hd : d ∈ formalInDrafts position params) :
    ∃ position, ∃ param ∈ params, d = formalInDraft position param := by
  induction params generalizing position with
  | nil => cases hd
  | cons param params ih =>
    rcases List.mem_cons.1 hd with rfl | hd
    · exact ⟨position, param, List.mem_cons_self, rfl⟩
    · obtain ⟨position, param', hparam, hd⟩ := ih hd
      exact ⟨position, param', List.mem_cons_of_mem _ hparam, hd⟩

/-- A value that leaves the callable in a parameter is drafted for it. -/
theorem mem_writtenParamDrafts {params : List Param} (hd : d ∈ writtenParamDrafts position params) :
    ∃ position, ∃ param ∈ params,
      d = formalOutDraft (.param position) ("out " ++ param.name) param.name := by
  induction params generalizing position with
  | nil => cases hd
  | cons param params ih =>
    have hrest (hd : d ∈ writtenParamDrafts (position + 1) params) : ∃ position,
        ∃ param' ∈ param :: params,
          d = formalOutDraft (.param position) ("out " ++ param'.name) param'.name := by
      obtain ⟨position, param', hparam, hd⟩ := ih hd
      exact ⟨position, param', List.mem_cons_of_mem _ hparam, hd⟩
    rw [writtenParamDrafts] at hd
    split at hd
    · rcases List.mem_cons.1 hd with rfl | hd
      · exact ⟨position, param, List.mem_cons_self, rfl⟩
      · exact hrest hd
    · exact hrest hd

/-- The nodes around the body of a callable have nothing to do with calls, and stand for its parameters
    and its return value. -/
theorem CallableDecl.minds_frame (decl : CallableDecl) (hd : d ∈ decl.openingDrafts ∨ d ∈ decl.closingDrafts) :
    (d.calls = [] ∧ d.kind.isOfCall = false) ∧ d.Minds (returnVar :: decl.vars) [] := by
  have hparam {param : Param} (hmem : param ∈ decl.params) : param.name ∈ returnVar :: decl.vars :=
    List.mem_cons_of_mem _ (List.mem_append_left _ (List.mem_map_of_mem hmem))
  rcases hd with hd | hd
  · simp only [openingDrafts, List.mem_cons] at hd
    rcases hd with rfl | rfl | hd
    · exact ⟨⟨rfl, rfl⟩, List.forall_mem_nil _, List.forall_mem_nil _⟩
    · exact ⟨⟨rfl, rfl⟩, List.forall_mem_nil _, List.forall_mem_nil _⟩
    · obtain ⟨position, param, hmem, rfl⟩ := mem_formalInDrafts hd
      refine ⟨⟨rfl, rfl⟩, fun var hvar => .inl ?_, List.forall_mem_nil _⟩
      exact List.mem_singleton.1 hvar ▸ hparam hmem
  · rw [closingDrafts, List.mem_append] at hd
    rcases hd with hd | hd
    · split at hd
      · rw [List.mem_singleton.1 hd]
        refine ⟨⟨rfl, rfl⟩, List.forall_mem_nil _, fun var hvar => .inl ?_⟩
        exact List.mem_singleton.1 hvar ▸ List.mem_cons_self
      · cases hd
    · obtain ⟨position, param, hmem, rfl⟩ := mem_writtenParamDrafts hd
      refine ⟨⟨rfl, rfl⟩, List.forall_mem_nil _, fun var hvar => .inl ?_⟩
      exact List.mem_singleton.1 hvar ▸ hparam hmem

namespace FlowGraph

variable {decl : CallableDecl} {n : Nat} {g : FlowGraph} {site : CallSite} {point : Point}

/-- What the nodes of a graph have to do with calls: each call that it records is evaluated once and
    hands back its result at most once, variables of calls are used for this only, and what comes
    back from a call gets to its evaluation. -/
structure Minded (decl : CallableDecl) (g : FlowGraph) : Prop where
  counted : Counted [] g.recorded g.drafts
  minds : ∀ d ∈ g.drafts, d.Minds (returnVar :: decl.vars) g.recorded
  handsOver : ∀ site ∈ g.recorded, site.resultUsed = true →
    ∃ point, (site, point) ∈ decl.evaluations ∧ HandsOver g.drafts site point

/-- The graph of a callable with a body minds the calls that it records. -/
theorem build_minded (hg : (build h decl n).1 = .ok g) (hbody : decl.body.isSome) : g.Minded decl := by
  obtain ⟨body, hbody⟩ := Option.isSome_iff_exists.1 hbody
  obtain ⟨kept, hkept, hdrafts, hrecorded⟩ := build_segments hbody hg
  have hsub : kept ⊆ decl.segments := by
    rw [CallableDecl.segments, hbody]
    exact hkept.subset
  refine ⟨?_, fun d hd => ?_, fun site hsite hused => ?_⟩
  · have hopening := Counted.of_plain fun d hd => (decl.minds_frame (.inl hd)).1
    have hclosing := Counted.of_plain fun d hd => (decl.minds_frame (.inr hd)).1
    have hkept : Counted [] _ _ := .flatMap fun c (_ : c ∈ kept) => c.counted h
    have hall := hopening.append (hkept.append hclosing)
    rw [hdrafts, hrecorded]
    simpa using hall
  · rw [hdrafts, List.mem_append, List.mem_append, List.mem_flatMap] at hd
    rcases hd with hd | ⟨c, hc, hd⟩ | hd
    · exact (decl.minds_frame (.inl hd)).2.mono (List.Subset.refl _) (List.nil_subset _)
    · refine (c.minds h d hd).mono (fun var hvar => ?_) fun site hsite => ?_
      · exact List.mem_cons_of_mem _ (List.mem_append_right _ (List.mem_flatMap.2 ⟨c, hsub hc, hvar⟩))
      · rw [hrecorded]
        exact List.mem_flatMap.2 ⟨c, hc, hsite⟩
    · exact (decl.minds_frame (.inr hd)).2.mono (List.Subset.refl _) (List.nil_subset _)
  · rw [hrecorded] at hsite
    obtain ⟨c, hc, hsite⟩ := List.mem_flatMap.1 hsite
    rw [Segment.calls, Effects.allCalls, ← map_fst_allEvaluations c.own.point] at hsite
    obtain ⟨⟨_, point⟩, he, rfl⟩ := List.mem_map.1 hsite
    refine ⟨point, List.mem_flatMap.2 ⟨c, hsub hc, he⟩, ?_⟩
    rw [hdrafts]
    exact ((HandsOver.of_mem_flatMap hc (c.handsOver h _ he hused)).append_right _).append_left _

end FlowGraph

namespace FlowGraph

variable {decl : CallableDecl} {n : Nat} {g : FlowGraph} {site : CallSite} {point : Point} {node : Node}

/-- The data dependences of a graph on what is written to a variable. -/
def dependencesOn (g : FlowGraph) (var : String) : List DataDependence :=
  (g.reachingDefinitions.dependences g).filter (·.var == var)

/-- The dependences on a variable go from nodes that write it to nodes that read it, as it is
    carried. -/
theorem mem_dependencesOn {var : String} {d : DataDependence} (hr : g.InRange) (hn : g.ids.Nodup) :
    d ∈ g.dependencesOn var ↔ d.var = var ∧ ∃ source ∈ g.nodes, ∃ target ∈ g.nodes, source.id = d.source ∧
      target.id = d.target ∧ var ∈ source.defs ∧ var ∈ target.uses ∧ g.Carries var d.source d.target := by
  obtain ⟨x, y, var'⟩ := d
  rw [dependencesOn, List.mem_filter, beq_iff_eq, mem_dependences_iff hr hn, and_comm]
  refine and_congr_right fun heq => ?_
  obtain rfl : var' = var := heq
  rfl

/-- No variable of the source is that of a result. -/
theorem resultVar_not_mem (hvars : ∀ var ∈ decl.vars, ¬NamesResult var) (id : CallSiteId) :
    resultVar id ∉ returnVar :: decl.vars := by
  rw [List.mem_cons, not_or]
  refine ⟨fun heq => ?_, fun hmem => hvars _ hmem (namesResult_resultVar id)⟩
  exact absurd (heq ▸ namesResult_resultVar id) (by decide : ¬NamesResult returnVar)

namespace Minded

variable (hm : g.Minded decl) (hcalls : (g.recorded.map (·.id)).Nodup)
  (hvars : ∀ var ∈ decl.vars, ¬NamesResult var) (hsite : site ∈ g.recorded)

include hm hcalls

/-- A call is evaluated by one node. -/
theorem evaluator_unique {a b : Node} (ha : a ∈ g.nodes) (hb : b ∈ g.nodes) {id : CallSiteId}
    (hid : id ∈ a.calls) (hid' : id ∈ b.calls) : a = b := by
  have hnodup : (g.nodes.flatMap (·.draft.calls)).Nodup := by
    rw [← List.flatMap_map]
    exact List.nodup_iff_count_le_one.2 fun id =>
      Nat.le_trans (Nat.le.intro (hm.counted.evaluated id)) (List.nodup_iff_count_le_one.1 hcalls id)
  exact eq_of_nodup_flatMap hnodup ha hb hid hid'

/-- The result of a call is handed back by one node. -/
theorem result_unique {a b : Node} (ha : a ∈ g.nodes) (hb : b ∈ g.nodes) {id : CallSiteId}
    (hkind : a.kind = .actualOut id .result) (hkind' : b.kind = .actualOut id .result) : a = b := by
  have hnodup : (g.nodes.flatMap (·.draft.results)).Nodup := by
    rw [← List.flatMap_map]
    exact List.nodup_iff_count_le_one.2 fun id =>
      Nat.le_trans (hm.counted.results id) (List.nodup_iff_count_le_one.1 hcalls id)
  have hresults {node : Node} (hkind : node.kind = .actualOut id .result) : id ∈ node.draft.results := by
    simp [Draft.results, Node.draft, hkind]
  exact eq_of_nodup_flatMap hnodup ha hb (hresults hkind) (hresults hkind')

include hvars hsite

/-- The result of a call is written only by its return actual-out. -/
theorem of_mem_defs (hnode : node ∈ g.nodes) (hwrite : resultVar site.id ∈ node.defs) :
    site.resultUsed = true ∧ node.kind = .actualOut site.id .result := by
  obtain ⟨site', hsite', hused, heq, hkind⟩ :=
    ((hm.minds _ (List.mem_map_of_mem hnode)).defs _ hwrite).resolve_left (resultVar_not_mem hvars site.id)
  obtain rfl := List.inj_on_of_nodup_map hcalls hsite hsite' (resultVar_injective heq)
  exact ⟨hused, hkind⟩

omit hcalls hsite in
/-- The result of a call is read only by a node that evaluates it. -/
theorem of_mem_uses (hnode : node ∈ g.nodes) (hread : resultVar site.id ∈ node.uses) :
    site.id ∈ node.calls := by
  obtain ⟨site', -, -, heq, hid⟩ :=
    ((hm.minds _ (List.mem_map_of_mem hnode)).uses _ hread).resolve_left (resultVar_not_mem hvars site.id)
  rwa [resultVar_injective heq]

/-- What a call hands back gets to the node that evaluates it. -/
theorem exists_carries (hn : g.ids.Nodup) (ho : g.Onward g.nodes) (hused : site.resultUsed = true) :
    ∃ source ∈ g.nodes, ∃ target ∈ g.nodes, source.kind = .actualOut site.id .result ∧
      (site, target.point) ∈ decl.evaluations ∧ site.id ∈ target.calls ∧
      resultVar site.id ∈ source.defs ∧ resultVar site.id ∈ target.uses ∧
      g.Carries (resultVar site.id) source.id target.id := by
  obtain ⟨point, hpoint, before, between, _, after, hdrafts, hbetween, rfl, hevaluates, hread⟩ :=
    hm.handsOver site hsite hused
  -- the nodes stand as their drafts do
  obtain ⟨front, _, hnodes, -, h₁⟩ := List.map_eq_append_iff.1 hdrafts
  obtain ⟨source, _, rfl, hsource, h₂⟩ := List.map_eq_cons_iff.1 h₁
  obtain ⟨middle, _, rfl, rfl, h₃⟩ := List.map_eq_append_iff.1 h₂
  obtain ⟨target, back, rfl, rfl, -⟩ := List.map_eq_cons_iff.1 h₃
  have hkind : source.kind = .actualOut site.id .result := congrArg Draft.kind hsource
  have hdefs : source.defs = [resultVar site.id] := congrArg Draft.defs hsource
  have hsourceMem : source ∈ g.nodes := by simp [hnodes]
  have hkinds : ∀ node ∈ source :: middle, node.kind.isOfCall = true := by
    refine List.forall_mem_cons.2 ⟨by rw [hkind]; rfl, fun node hnode => ?_⟩
    exact hbetween node.draft (List.mem_map_of_mem hnode)
  have hline : source :: middle ++ [target] <:+: g.nodes := ⟨front, back, by simp [hnodes]⟩
  have honward : g.Onward _ := ho.infix hline
  have hchain := honward.isChain hkinds
  refine ⟨source, hsourceMem, target, by simp [hnodes], hkind, hpoint, hevaluates, by simp [hdefs], hread,
    carries_iff_exists_clearWay.2 ⟨middle.map (·.id), ?_, fun node hnode hid hwrite => ?_⟩⟩
  · have hids := (List.isChain_map (R := g.HasEdge) Node.id).2 hchain
    simpa using hids
  · -- the only node that writes the result stands in front of those in between
    have hresult := (hm.of_mem_defs hcalls hvars hsite hnode hwrite).2
    obtain rfl := hm.result_unique hcalls hnode hsourceMem hresult hkind
    have hids := hn.sublist (hline.sublist.map Node.id)
    simp only [List.cons_append, List.map_cons, List.map_append, List.nodup_cons, List.mem_append] at hids
    exact hids.1 (.inl hid)

end Minded

/-- A call whose result is used has an actual-out for it. -/
theorem exists_actualOut? (hg : (build h decl n).1 = .ok g) {r : CallSiteNodes} (hr : r ∈ g.callSites)
    (hused : r.site.resultUsed = true) : ∃ node ∈ g.nodes, r.actualOut? .result = some node.id ∧
      node.kind = .actualOut r.site.id .result := by
  obtain ⟨⟨call, outs, hline, -, -, -, houts, -⟩, -, hslots⟩ := (build_orderly hg).inLine.calls r hr
  have hslot : .result ∈ r.actualOuts.map (·.1) := by
    rw [(build_sequenced hg).slots r hr, CallSite.outputs, if_pos hused]
    exact List.mem_cons_self
  obtain ⟨⟨_, out⟩, hmem, rfl⟩ := List.mem_map.1 hslot
  obtain ⟨node, hnode, rfl, hkind⟩ := forall₂_mem_right houts hmem
  exact ⟨node, hline.subset (List.mem_cons_of_mem _ hnode), (lookup_eq_some_iff_mem hslots).2 hmem, hkind⟩

/-- The result of a call that is used is handed over by one data dependence, from the return actual-out
    of the call to the one node that evaluates the call: that of the construct around it, or the
    actual-in of the argument that it is in. No data dependence hands over the result of another call. -/
theorem build_handsOver (hg : (build h decl n).1 = .ok g) (hcalls : (decl.calls.map (·.id)).Nodup)
    (hvars : ∀ var ∈ decl.vars, ¬NamesResult var) : ∀ r ∈ g.callSites,
      (r.site.resultUsed = true → ∃ out, r.actualOut? .result = some out ∧
        ∃ target ∈ g.nodes, (r.site, target.point) ∈ decl.evaluations ∧
          (∀ node ∈ g.nodes, r.site.id ∈ node.calls ↔ node = target) ∧
          g.dependencesOn (resultVar r.site.id) = [⟨out, target.id, resultVar r.site.id⟩]) ∧
      (r.site.resultUsed = false → g.dependencesOn (resultVar r.site.id) = []) := by
  intro r hr
  have hbody : decl.body.isSome := by
    refine Option.isSome_iff_ne_none.2 fun hnone => ?_
    rw [(build_bodyless hnone hg).2] at hr
    cases hr
  have hm := build_minded hg hbody
  have hformed := build_formed hg
  have hsites : (g.recorded.map (·.id)).Nodup := hcalls.sublist ((build_sites hg).map _)
  have hsite : r.site ∈ g.recorded := List.mem_map_of_mem hr
  have hmem {d : DataDependence} : d ∈ g.dependencesOn (resultVar r.site.id) ↔ _ :=
    mem_dependencesOn hformed.inRange hformed.nodup
  constructor
  · intro hused
    obtain ⟨node, hnode, hout, hkind⟩ := exists_actualOut? hg hr hused
    obtain ⟨source, hsource, target, htarget, hkind', hpoint, hevaluates, hwrite, hread, hcarries⟩ :=
      hm.exists_carries hsites hvars hsite hformed.nodup (build_sequenced hg).onward hused
    obtain rfl := hm.result_unique hsites hnode hsource hkind hkind'
    have hunique {node' : Node} (hnode' : node' ∈ g.nodes) (hid : r.site.id ∈ node'.calls) : node' = target :=
      hm.evaluator_unique hsites hnode' htarget hid hevaluates
    refine ⟨node.id, hout, target, htarget, hpoint, fun node' hnode' => ⟨hunique hnode', ?_⟩, ?_⟩
    · rintro rfl
      exact hevaluates
    · have hnodup : (g.dependencesOn (resultVar r.site.id)).Nodup := (nodup_dependences hformed.nodup).filter _
      refine List.perm_singleton.1 ((List.perm_ext_iff_of_nodup hnodup (List.nodup_singleton _)).2 fun d => ?_)
      rw [hmem, List.mem_singleton]
      constructor
      · rintro ⟨hvar, source', hsource', target', htarget', hid, hid', hwrite', hread', -⟩
        have hkind' := (hm.of_mem_defs hsites hvars hsite hsource' hwrite').2
        obtain rfl := hm.result_unique hsites hsource' hnode hkind' hkind
        obtain rfl := hunique htarget' (hm.of_mem_uses hvars htarget' hread')
        rw [hid, hid', ← hvar]
      · rintro rfl
        exact ⟨rfl, node, hnode, target, htarget, rfl, rfl, hwrite, hread, hcarries⟩
  · intro hunused
    refine List.eq_nil_iff_forall_not_mem.2 fun d hd => ?_
    obtain ⟨-, source, hsource, -, -, -, -, hwrite, -⟩ := hmem.1 hd
    have hused := (hm.of_mem_defs hsites hvars hsite hsource hwrite).1
    rw [hunused] at hused
    cases hused

/-- A loop whose test evaluates a call in the argument of a call, and a call whose result is dropped. -/
def nestedCalls : CallableDecl := callableWith [
  .whileLoop ⟨⟨0⟩, "while (f(g(x)))", none⟩ ⟨[], [], [⟨⟨0⟩, "f(g(x))", .external "f", .direct,
      [.ofCall ⟨⟨1⟩, "g(x)", .external "g", .direct, [.ofVar "x"], true, ["E"]⟩], true, ["E"]⟩], []⟩
    [.simple ⟨⟨1⟩, "h(x)", none⟩
      ⟨[], [], [⟨⟨2⟩, "h(x)", .external "h", .direct, [.ofVar "x"], false, []⟩], []⟩]]

/-- The result of the inner call goes to the argument, and that of the outer one to the test. -/
theorem nestedCalls_handsOver : ∃ g, (build ⟨[], []⟩ nestedCalls 0).1 = .ok g ∧ g.callSites.length = 3 ∧
    (nestedCalls.calls.map (·.id)).Nodup ∧ (∀ var ∈ nestedCalls.vars, ¬NamesResult var) ∧
    ∀ r ∈ g.callSites,
      (r.site.resultUsed = true → ∃ out, r.actualOut? .result = some out ∧
        ∃ target ∈ g.nodes, (r.site, target.point) ∈ nestedCalls.evaluations ∧
          (∀ node ∈ g.nodes, r.site.id ∈ node.calls ↔ node = target) ∧
          g.dependencesOn (resultVar r.site.id) = [⟨out, target.id, resultVar r.site.id⟩]) ∧
      (r.site.resultUsed = false → g.dependencesOn (resultVar r.site.id) = []) := by
  have hcalls : (nestedCalls.calls.map (·.id)).Nodup := by decide +kernel
  have hvars : ∀ var ∈ nestedCalls.vars, ¬NamesResult var := by decide +kernel
  have hlength : (match (build ⟨[], []⟩ nestedCalls 0).1 with
      | .ok g => decide (g.callSites.length = 3)
      | .error _ => false) = true := by decide +kernel
  obtain ⟨g, hg⟩ := Lowering.build_ok ⟨[], []⟩ nestedCalls 0 (by decide +kernel)
  rw [hg] at hlength
  exact ⟨g, hg, of_decide_eq_true hlength, hcalls, hvars, build_handsOver hg hcalls hvars⟩

end FlowGraph

end Slicing
