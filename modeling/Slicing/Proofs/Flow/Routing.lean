import Slicing.Proofs.Flow.Entrance

/-!
# Where ways out lead

An execution that leaves a statement by a way out meets the statements around, the
innermost first. Each of them may take it in, and may let it pass (`Scope.Passes`).
`Routed` says that lowering has noted the way out of a node at every statement that may
take it in. It holds of a way out that has just been sent (`routed_deliver`), and it stays
true while the statements around take in more (`Routed.mono`).

`FlowGraph.Walks` follows the points of an execution along the edges of a flow graph.
-/

namespace Slicing

/-! ## Walks -/

namespace FlowGraph

/-- A node of the graph stands for a point. -/
def At (g : FlowGraph) (id : NodeId) (point : Point) : Prop :=
  ∃ node ∈ g.nodes, node.id = id ∧ node.point = point

/-- The nodes along some edges stand for some points. -/
inductive Walks (g : FlowGraph) : NodeId → List Point → NodeId → Prop
  | done (x : NodeId) : Walks g x [] x
  | step {x y z : NodeId} {point : Point} {τ : List Point} :
      g.HasEdge x y → g.At y point → Walks g y τ z → Walks g x (point :: τ) z

variable {g g' : FlowGraph} {x y z : NodeId} {τ τ' : List Point} {point : Point}

/-- A node stands for its point in a larger graph as well. -/
theorem At.mono (hg : g.PartOf g') (hx : g.At x point) : g'.At x point :=
  let ⟨node, hnode, hid⟩ := hx
  ⟨node, hg.nodes.subset hnode, hid⟩

/-- One walk behind another. -/
theorem Walks.trans (hw : g.Walks x τ y) (hw' : g.Walks y τ' z) : g.Walks x (τ ++ τ') z := by
  induction hw with
  | done _ => exact hw'
  | step hedge hat _ ih => exact .step hedge hat (ih hw')

/-- A walk goes along a path of nodes. -/
theorem Walks.exists_path (hw : g.Walks x τ y) {first : Node} (hfirst : first.id = x) :
    ∃ path : List Node, path.map Node.point = τ ∧ path ⊆ g.nodes ∧
      (first :: path).IsChain (fun a b => g.HasEdge a.id b.id) ∧
      ∃ last, (first :: path).getLast? = some last ∧ last.id = y := by
  induction hw generalizing first with
  | done _ => exact ⟨[], rfl, List.nil_subset _, by simp, first, rfl, hfirst⟩
  | step hedge hat _ ih =>
    obtain ⟨node, hnode, hid, rfl⟩ := hat
    obtain ⟨path, rfl, hsub, hchain, last, hlast, hy⟩ := ih hid
    refine ⟨node :: path, rfl, List.cons_subset.2 ⟨hnode, hsub⟩, ?_, last, ?_, hy⟩
    · rw [List.isChain_cons_cons, hfirst, hid]
      exact ⟨hedge, hchain⟩
    · rw [List.getLast?_cons_cons, hlast]

end FlowGraph

/-! ## Ways out -/

open Lowering (From)

/-- An exception may pass all of some handlers. -/
def PassesHandlers (h : Hierarchy) (escape : Escape) (handlers : List Handler) : Prop :=
  ∀ exceptionType, escape = .throwJump exceptionType →
    ∀ handler ∈ handlers, h.exceptionMatch exceptionType handler.exceptionType ≠ .definite

/-- An exception of a node is noted at each handler that may take it. -/
def Offered (h : Hierarchy) (exceptionType : String) (x : NodeId) (handlers : List Handler) :
    Prop :=
  ∀ before handler after, handlers = before ++ handler :: after →
    (∀ b ∈ before, h.exceptionMatch exceptionType b.exceptionType ≠ .definite) →
    h.exceptionMatch exceptionType handler.exceptionType ≠ .never → From handler.incoming x

/-- A way out may pass a statement. -/
def Scope.Passes (h : Hierarchy) (escape : Escape) : Scope → Prop
  | .loop _ _ => escape ≠ .breakJump ∧ escape ≠ .continueJump
  | .select _ => escape ≠ .breakJump
  | .tryBlock handlers hasFinalizer _ =>
    hasFinalizer = false ∧ PassesHandlers h escape handlers

/-- A statement has noted the way out of a node wherever it may take it in. -/
def Scope.Notes (h : Hierarchy) (escape : Escape) (x : NodeId) : Scope → Prop
  | .loop breaks continues =>
    (escape = .breakJump → From breaks x) ∧ (escape = .continueJump → From continues x)
  | .select breaks => escape = .breakJump → From breaks x
  | .tryBlock handlers hasFinalizer escapes =>
    (∀ exceptionType, escape = .throwJump exceptionType → Offered h exceptionType x handlers) ∧
      (hasFinalizer = true → PassesHandlers h escape handlers →
        ∃ e ∈ escapes, e.2 = escape ∧ e.1.source = x)

/-- The way out of a node is noted wherever it may lead. -/
def Routed (h : Hierarchy) (returns : List Pending) (escape : Escape) (x : NodeId) :
    List Scope → Prop
  | [] => From returns x
  | scope :: outer =>
    scope.Notes h escape x ∧ (scope.Passes h escape → Routed h returns escape x outer)

section Growing

variable {h : Hierarchy} {P : Pending → Prop} {escape : Escape} {x : NodeId}

/-- An arc from a node is still there when arcs have been added. -/
theorem from_adds {ps ps' : List Pending} (ha : Adds P ps ps') (hx : From ps x) : From ps' x :=
  let ⟨p, hp, hid⟩ := hx
  ⟨p, ha.subset hp, hid⟩

/-- A list related to one that was put together falls into two. -/
theorem forall₂_append_right {α β : Type} {R : α → β → Prop} {as : List α} {bs bs' : List β}
    (hab : List.Forall₂ R as (bs ++ bs')) :
    ∃ as₁ as₂, List.Forall₂ R as₁ bs ∧ List.Forall₂ R as₂ bs' ∧ as = as₁ ++ as₂ :=
  ⟨_, _, List.forall₂_take_append as bs bs' hab, List.forall₂_drop_append as bs bs' hab,
    (List.take_append_drop _ _).symm⟩

/-- Whether a way out passes handlers does not depend on what they have taken in. -/
theorem passesHandlers_iff {handlers handlers' : List Handler}
    (hg : List.Forall₂ (Handler.Grows P) handlers handlers') :
    PassesHandlers h escape handlers' ↔ PassesHandlers h escape handlers := by
  have htypes : handlers'.map (·.exceptionType) = handlers.map (·.exceptionType) := by
    induction hg with
    | nil => rfl
    | cons hhead _ ih => rw [List.map_cons, List.map_cons, ih, hhead.1]
  have key (l : List Handler) : PassesHandlers h escape l ↔
      ∀ exceptionType, escape = .throwJump exceptionType → ∀ type ∈ l.map (·.exceptionType),
        h.exceptionMatch exceptionType type ≠ .definite := by
    simp [PassesHandlers]
  rw [key, key, htypes]

/-- What handlers have noted they keep. -/
theorem Offered.mono {exceptionType : String} {handlers handlers' : List Handler}
    (hg : List.Forall₂ (Handler.Grows P) handlers handlers')
    (ho : Offered h exceptionType x handlers) : Offered h exceptionType x handlers' := by
  rintro before' handler' after' rfl hbefore hmatch
  obtain ⟨before, rest, hgb, hgr, rfl⟩ := forall₂_append_right hg
  obtain ⟨handler, after, hgh, -, rfl⟩ := List.forall₂_cons_right_iff.1 hgr
  refine from_adds hgh.2 (ho before handler after rfl (fun b hb => ?_) (by rwa [hgh.1]))
  obtain ⟨b', hb', hbb⟩ := forall₂_mem_right hgb.flip hb
  rw [hbb.1]
  exact hbefore b' hb'

/-- Whether a way out passes a statement does not depend on what it has taken in. -/
theorem Scope.Grows.passes_iff {a b : Scope} (hg : Scope.Grows P a b) :
    b.Passes h escape ↔ a.Passes h escape := by
  cases hg with
  | loop _ _ => exact Iff.rfl
  | select _ => exact Iff.rfl
  | tryBlock hh _ _ => exact and_congr_right fun _ => passesHandlers_iff hh

/-- What a statement has noted it keeps. -/
theorem Scope.Grows.notes {a b : Scope} (hg : Scope.Grows P a b) (hn : a.Notes h escape x) :
    b.Notes h escape x := by
  cases hg with
  | loop hb hc => exact ⟨fun he => from_adds hb (hn.1 he), fun he => from_adds hc (hn.2 he)⟩
  | select hb => exact fun he => from_adds hb (hn he)
  | tryBlock hh he _ =>
    refine ⟨fun type ht => (hn.1 type ht).mono hh, fun hfin hpass => ?_⟩
    obtain ⟨e, hmem, heq⟩ := hn.2 hfin ((passesHandlers_iff hh).1 hpass)
    exact ⟨e, he.subset hmem, heq⟩

/-- Ways out stay noted while statements take in more. -/
theorem Routed.mono {scopes scopes' : List Scope} {returns returns' : List Pending}
    (hs : List.Forall₂ (Scope.Grows P) scopes scopes') (hr : returns ⊆ returns')
    (hx : Routed h returns escape x scopes) : Routed h returns' escape x scopes' := by
  induction hs with
  | nil =>
    obtain ⟨p, hp, hid⟩ := hx
    exact ⟨p, hr hp, hid⟩
  | cons hg _ ih => exact ⟨hg.notes hx.1, fun hpass => ih (hx.2 (hg.passes_iff.1 hpass))⟩

end Growing

/-! ## Sending -/

section Sending

variable (h : Hierarchy) (p : Pending) (escape : Escape)

/-- An exception that is offered is noted by each handler that may take it. -/
theorem offered_offer (exceptionType : String) (handlers : List Handler) :
    Offered h exceptionType p.source (offer h exceptionType p handlers).1 := by
  induction handlers with
  | nil => simp [Offered, offer]
  | cons first rest ih =>
    have hpending : From (first.incoming ++ [p]) p.source := ⟨p, by simp, rfl⟩
    -- a handler of the rest is asked only if the first one may let the exception pass
    have hlater {first' handler : Handler} {before after : List Handler}
        (heq : (offer h exceptionType p rest).1 = before ++ handler :: after)
        (hbefore : ∀ b ∈ first' :: before,
          h.exceptionMatch exceptionType b.exceptionType ≠ .definite)
        (hmatch : h.exceptionMatch exceptionType handler.exceptionType ≠ .never) :
        From handler.incoming p.source :=
      ih before handler after heq (fun b hb => hbefore b (List.mem_cons_of_mem _ hb)) hmatch
    intro before handler after heq hbefore hmatch
    unfold offer at heq
    split at heq
    · rename_i hdef
      cases before with
      | nil =>
        obtain ⟨rfl, rfl⟩ := List.cons.inj heq
        exact hpending
      | cons b before =>
        obtain ⟨rfl, rfl⟩ := List.cons.inj heq
        exact (hbefore _ List.mem_cons_self hdef).elim
    · cases before with
      | nil =>
        obtain ⟨rfl, rfl⟩ := List.cons.inj heq
        exact hpending
      | cons b before =>
        obtain ⟨rfl, hrest⟩ := List.cons.inj heq
        exact hlater hrest hbefore hmatch
    · rename_i hnever
      cases before with
      | nil =>
        obtain ⟨rfl, rfl⟩ := List.cons.inj heq
        exact absurd hnever hmatch
      | cons b before =>
        obtain ⟨rfl, hrest⟩ := List.cons.inj heq
        exact hlater hrest hbefore hmatch

/-- No handler takes an exception for certain that may pass all of them. -/
theorem offer_passes (exceptionType : String) (handlers : List Handler)
    (hp : ∀ handler ∈ handlers, h.exceptionMatch exceptionType handler.exceptionType ≠ .definite) :
    (offer h exceptionType p handlers).2 = false := by
  induction handlers with
  | nil => rfl
  | cons first rest ih =>
    have hrest := ih fun handler hmem => hp handler (List.mem_cons_of_mem _ hmem)
    unfold offer
    split
    · rename_i hdef
      exact absurd hdef (hp first List.mem_cons_self)
    · exact hrest
    · exact hrest

/-- An exception that is sent to handlers is noted by each one that may take it. -/
theorem offered_offered (handlers : List Handler) (exceptionType : String)
    (he : escape = .throwJump exceptionType) :
    Offered h exceptionType p.source (offered h p escape handlers).1 := by
  subst he
  exact offered_offer h p exceptionType handlers

/-- A way out that may pass handlers is sent on. -/
theorem offered_passes (handlers : List Handler) (hp : PassesHandlers h escape handlers) :
    (offered h p escape handlers).2 = false := by
  cases escape with
  | throwJump exceptionType => exact offer_passes h p exceptionType handlers (hp exceptionType rfl)
  | breakJump => rfl
  | continueJump => rfl
  | returnJump => rfl

/-- A statement notes what it may take in, and sends on what may pass. -/
theorem take_notes (scope : Scope) : (scope.take h p escape).1.Notes h escape p.source ∧
    (scope.Passes h escape → (scope.take h p escape).2 = false) := by
  have hlast (ps : List Pending) : From (ps ++ [p]) p.source := ⟨p, by simp, rfl⟩
  cases scope with
  | loop breaks continues => cases escape <;> simp [Scope.take, Scope.Notes, Scope.Passes, hlast]
  | select breaks => cases escape <;> simp [Scope.take, Scope.Notes, Scope.Passes, hlast]
  | tryBlock handlers hasFinalizer escapes =>
    have ho := offered_offered h p escape handlers
    have hpass := offered_passes h p escape handlers
    have hiff : PassesHandlers h escape (offered h p escape handlers).1 ↔
        PassesHandlers h escape handlers :=
      passesHandlers_iff (offered_grows h p escape handlers)
    rw [take_tryBlock]
    split
    · rename_i htaken
      refine ⟨⟨ho, fun _ hp => ?_⟩, fun hp => ?_⟩
      · simp [hpass (hiff.1 hp)] at htaken
      · simp [hpass hp.2] at htaken
    · split
      · rename_i hfin
        refine ⟨⟨ho, fun _ _ => ⟨(p, escape), by simp, rfl, rfl⟩⟩, fun hp => ?_⟩
        simp [hp.1] at hfin
      · rename_i hfin
        exact ⟨⟨ho, fun hyes => absurd hyes hfin⟩, fun _ => rfl⟩

/-- A way out that is delivered is noted wherever it may lead. -/
theorem routed_deliver (returns : List Pending) (scopes : List Scope) :
    Routed h (if (deliver h p escape scopes).2 then returns else returns ++ [p]) escape p.source
      (deliver h p escape scopes).1 := by
  induction scopes with
  | nil => exact ⟨p, by simp [deliver], rfl⟩
  | cons scope outer ih =>
    obtain ⟨hnotes, hpasses⟩ := take_notes h p escape scope
    have hgrows := take_grows h p escape scope
    unfold deliver
    split
    · rename_i scope' heq
      rw [heq] at hnotes hpasses hgrows
      refine ⟨hnotes, fun hpass => ?_⟩
      cases hpasses (hgrows.passes_iff.1 hpass)
    · rename_i scope' heq
      rw [heq] at hnotes
      exact ⟨hnotes, fun _ => ih⟩

end Sending

namespace Lowering

variable {h : Hierarchy} {s t : Lowering} {P H : NodeId → Prop} {escape : Escape} {x : NodeId}

/-- The way out of a node is noted wherever it may lead. -/
def Escapes (h : Hierarchy) (s : Lowering) (escape : Escape) (x : NodeId) : Prop :=
  Routed h s.returns escape x s.scopes

/-- Where a way out has been noted it stays noted. -/
theorem Extends.escapes (he : Extends P H s t) (hx : s.Escapes h escape x) :
    t.Escapes h escape x :=
  hx.mono he.scopes he.returns.subset

/-- A way out that is sent is noted wherever it may lead. -/
theorem escapes_sent (h : Hierarchy) (s : Lowering) (p : Pending) (escape : Escape) :
    (s.sent h p escape).Escapes h escape p.source :=
  routed_deliver h p escape s.returns s.scopes

/-- Sending another way out leaves what is noted. -/
theorem Escapes.sent (hx : s.Escapes h escape x) (p : Pending) (escape' : Escape) :
    (s.sent h p escape').Escapes h escape x :=
  hx.mono (sent_scopes h s p escape') (sent_returns h s p escape').subset

/-- Sending other ways out leaves what is noted. -/
theorem Escapes.sentAll (hx : s.Escapes h escape x) (escapes : List (Pending × Escape)) :
    (s.sentAll h escapes).Escapes h escape x :=
  sentAll_induction h s escapes (motive := fun t => t.Escapes h escape x) hx
    fun _ e _ ht => ht.sent e.1 e.2

/-- Each way out that is sent is noted wherever it may lead. -/
theorem escapes_sentAll (h : Hierarchy) (s : Lowering) {escapes : List (Pending × Escape)}
    {e : Pending × Escape} (he : e ∈ escapes) :
    (s.sentAll h escapes).Escapes h e.2 e.1.source := by
  induction escapes generalizing s with
  | nil => simp at he
  | cons first rest ih =>
    rcases List.mem_cons.1 he with rfl | he
    · exact (escapes_sent h s e.1 e.2).sentAll rest
    · exact ih (s.sent h first.1 first.2) he

end Lowering

end Slicing
