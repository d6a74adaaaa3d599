import Slicing.Proofs.Flow.Execution
import Slicing.Proofs.Flow.Graph
import Slicing.Proofs.Lists

/-!
# The steps of lowering

A step of lowering that succeeds takes one state to another. This module says, for the
steps that everything else is made of, which state that is: placing a node (`placed`),
sending a way out to where it leads (`sent`), and the bookkeeping around them. Behind
it no proof looks at how steps are put together: a sequence succeeds if its members do
(`bind_eq_ok`).

What the statements around the current one have taken in only ever grows
(`Scope.Grows`, `deliver_grows`), and a way out that is sent is taken in somewhere, or
leads out of the callable (`mem_collected_sent`).
-/

namespace Slicing

namespace Lowering

/-! ## Sequences -/

section Sequences

variable {α β : Type} {s s' : Lowering}

/-- Two steps succeed if the first one does and then the second one. -/
theorem bind_eq_ok {m : Lower α} {f : α → Lower β} {b : β} :
    (m >>= f) s = .ok b s' ↔ ∃ a t, m s = .ok a t ∧ f a t = .ok b s' := by
  change EStateM.bind m f s = _ ↔ _
  unfold EStateM.bind
  cases h : m s with
  | ok a t =>
    refine ⟨fun hf => ⟨a, t, rfl, hf⟩, ?_⟩
    rintro ⟨_, _, heq, hf⟩
    cases heq
    exact hf
  | error e t => simp

theorem pure_eq_ok {a b : α} : (pure a : Lower α) s = .ok b s' ↔ b = a ∧ s' = s := by
  change EStateM.Result.ok a s = _ ↔ _
  simp [eq_comm]

theorem get_eq_ok {t : Lowering} : (get : Lower Lowering) s = .ok t s' ↔ t = s ∧ s' = s := by
  change EStateM.Result.ok s s = _ ↔ _
  simp [eq_comm]

theorem set_eq_ok {t : Lowering} {u : PUnit} : (set t : Lower PUnit) s = .ok u s' ↔ s' = t := by
  change EStateM.Result.ok _ t = _ ↔ _
  simp [eq_comm]

theorem modify_eq_ok {f : Lowering → Lowering} {u : PUnit} :
    (modify f : Lower PUnit) s = .ok u s' ↔ s' = f s := by
  change EStateM.Result.ok _ (f s) = _ ↔ _
  simp [eq_comm]

end Sequences

/-! ## Bookkeeping -/

/-- The state with another frontier. -/
def withPending (s : Lowering) (pending : List Pending) : Lowering := { s with pending }

/-- The state with other statements around. -/
def withScopes (s : Lowering) (scopes : List Scope) : Lowering := { s with scopes }

/-- The state with another graph. -/
def withGraph (s : Lowering) (graph : FlowGraph) : Lowering := { s with graph }

/-- The state with one more number in use. -/
def numbered (s : Lowering) : Lowering := { s with nextId := s.nextId + 1 }

/-- The state inside of a statement. -/
def entered (s : Lowering) (scope : Scope) : Lowering := s.withScopes (scope :: s.scopes)

/-- The innermost statement around the current one. -/
def innermost (s : Lowering) : Scope := s.scopes.headD (.select [])

/-- The state outside of the innermost statement. -/
def left (s : Lowering) : Lowering := s.withScopes s.scopes.tail

/-- The state with an element recorded as unreachable. -/
def skipped (s : Lowering) (element : ElementId) : Lowering :=
  s.withGraph { s.graph with unreachable := s.graph.unreachable ++ [element] }

/-- The node with the next number. -/
def freshNode (s : Lowering) (kind : NodeKind) (text : String) : Node :=
  { id := ⟨s.nextId⟩, callable := s.graph.callable, kind, text }

/-- The node with the next number, for a statement. -/
def stmtNode (s : Lowering) (kind : NodeKind) (source : Element) : Node :=
  { s.freshNode kind source.text with element := some source.id, span := source.span }

/-- The state with a node placed. -/
def placed (s : Lowering) (node : Node) : Lowering :=
  { s with
    graph := s.pending.foldl (fun g p => g.addArc p.source node.id p.edge) (s.graph.addNode node)
    pending := [.plain node.id .unconditional] }

/-- The edge back to the head of a loop. -/
def backEdge (edge : FlowEdge) : FlowEdge :=
  if edge.kind = .unconditional then ⟨.loopBack, none⟩ else edge

/-- The state with arcs back to the head of a loop. -/
def closed (s : Lowering) (head : NodeId) (tails : List Pending) : Lowering :=
  s.withGraph (tails.foldl (fun g p => g.addArc p.source head (backEdge p.edge)) s.graph)

/-- The state with the head of a loop that nothing ends. -/
def withLoopHead (s : Lowering) (head : NodeId) : Lowering :=
  { s with loopHeads := s.loopHeads ++ [head] }

/-- The state with a call recorded. -/
def recorded (s : Lowering) (nodes : CallSiteNodes) : Lowering :=
  s.withGraph { s.graph with callSites := s.graph.callSites ++ [nodes] }

variable {s s' : Lowering}

section Fields

variable (s) (pending : List Pending) (scopes : List Scope) (scope : Scope) (node : Node)
  (nodes : CallSiteNodes) (element : ElementId) (head : NodeId) (tails : List Pending)

@[simp] theorem withPending_pending : (s.withPending pending).pending = pending := rfl
@[simp] theorem withPending_graph : (s.withPending pending).graph = s.graph := rfl
@[simp] theorem withPending_scopes : (s.withPending pending).scopes = s.scopes := rfl
@[simp] theorem withPending_returns : (s.withPending pending).returns = s.returns := rfl
@[simp] theorem withPending_loopHeads : (s.withPending pending).loopHeads = s.loopHeads := rfl
@[simp] theorem withPending_nextId : (s.withPending pending).nextId = s.nextId := rfl
@[simp] theorem withPending_self : s.withPending s.pending = s := rfl

@[simp] theorem numbered_pending : s.numbered.pending = s.pending := rfl
@[simp] theorem numbered_graph : s.numbered.graph = s.graph := rfl
@[simp] theorem numbered_scopes : s.numbered.scopes = s.scopes := rfl
@[simp] theorem numbered_returns : s.numbered.returns = s.returns := rfl
@[simp] theorem numbered_loopHeads : s.numbered.loopHeads = s.loopHeads := rfl
@[simp] theorem numbered_nextId : s.numbered.nextId = s.nextId + 1 := rfl

@[simp] theorem entered_pending : (s.entered scope).pending = s.pending := rfl
@[simp] theorem entered_graph : (s.entered scope).graph = s.graph := rfl
@[simp] theorem entered_scopes : (s.entered scope).scopes = scope :: s.scopes := rfl
@[simp] theorem entered_returns : (s.entered scope).returns = s.returns := rfl
@[simp] theorem entered_loopHeads : (s.entered scope).loopHeads = s.loopHeads := rfl
@[simp] theorem entered_nextId : (s.entered scope).nextId = s.nextId := rfl

@[simp] theorem left_pending : s.left.pending = s.pending := rfl
@[simp] theorem left_graph : s.left.graph = s.graph := rfl
@[simp] theorem left_scopes : s.left.scopes = s.scopes.tail := rfl
@[simp] theorem left_returns : s.left.returns = s.returns := rfl
@[simp] theorem left_loopHeads : s.left.loopHeads = s.loopHeads := rfl
@[simp] theorem left_nextId : s.left.nextId = s.nextId := rfl

@[simp] theorem skipped_pending : (s.skipped element).pending = s.pending := rfl
@[simp] theorem skipped_scopes : (s.skipped element).scopes = s.scopes := rfl
@[simp] theorem skipped_returns : (s.skipped element).returns = s.returns := rfl
@[simp] theorem skipped_loopHeads : (s.skipped element).loopHeads = s.loopHeads := rfl
@[simp] theorem skipped_nextId : (s.skipped element).nextId = s.nextId := rfl

@[simp] theorem placed_pending :
    (s.placed node).pending = [.plain node.id .unconditional] := rfl
@[simp] theorem placed_scopes : (s.placed node).scopes = s.scopes := rfl
@[simp] theorem placed_returns : (s.placed node).returns = s.returns := rfl
@[simp] theorem placed_loopHeads : (s.placed node).loopHeads = s.loopHeads := rfl
@[simp] theorem placed_nextId : (s.placed node).nextId = s.nextId := rfl

@[simp] theorem closed_pending : (s.closed head tails).pending = s.pending := rfl
@[simp] theorem closed_scopes : (s.closed head tails).scopes = s.scopes := rfl
@[simp] theorem closed_returns : (s.closed head tails).returns = s.returns := rfl
@[simp] theorem closed_loopHeads : (s.closed head tails).loopHeads = s.loopHeads := rfl
@[simp] theorem closed_nextId : (s.closed head tails).nextId = s.nextId := rfl

@[simp] theorem withLoopHead_pending : (s.withLoopHead head).pending = s.pending := rfl
@[simp] theorem withLoopHead_graph : (s.withLoopHead head).graph = s.graph := rfl
@[simp] theorem withLoopHead_scopes : (s.withLoopHead head).scopes = s.scopes := rfl
@[simp] theorem withLoopHead_returns : (s.withLoopHead head).returns = s.returns := rfl
@[simp] theorem withLoopHead_loopHeads :
    (s.withLoopHead head).loopHeads = s.loopHeads ++ [head] := rfl
@[simp] theorem withLoopHead_nextId : (s.withLoopHead head).nextId = s.nextId := rfl

@[simp] theorem recorded_pending : (s.recorded nodes).pending = s.pending := rfl
@[simp] theorem recorded_scopes : (s.recorded nodes).scopes = s.scopes := rfl
@[simp] theorem recorded_returns : (s.recorded nodes).returns = s.returns := rfl
@[simp] theorem recorded_loopHeads : (s.recorded nodes).loopHeads = s.loopHeads := rfl
@[simp] theorem recorded_nextId : (s.recorded nodes).nextId = s.nextId := rfl

@[simp] theorem freshNode_id (kind : NodeKind) (text : String) :
    (s.freshNode kind text).id = ⟨s.nextId⟩ := rfl
@[simp] theorem freshNode_point (kind : NodeKind) (text : String) :
    (s.freshNode kind text).point = ⟨kind, none⟩ := rfl
@[simp] theorem stmtNode_id (kind : NodeKind) (source : Element) :
    (s.stmtNode kind source).id = ⟨s.nextId⟩ := rfl
@[simp] theorem stmtNode_point (kind : NodeKind) (source : Element) :
    (s.stmtNode kind source).point = ⟨kind, some source.id⟩ := rfl

end Fields

theorem setPending_eq_ok {pending : List Pending} {u : Unit} :
    setPending pending s = .ok u s' ↔ s' = s.withPending pending :=
  modify_eq_ok

theorem addPending_eq_ok {pending : List Pending} {u : Unit} :
    addPending pending s = .ok u s' ↔ s' = s.withPending (s.pending ++ pending) :=
  modify_eq_ok

theorem takePending_eq_ok {pending : List Pending} :
    takePending s = .ok pending s' ↔ pending = s.pending ∧ s' = s.withPending [] := by
  simp only [takePending, bind_eq_ok, get_eq_ok, setPending_eq_ok, pure_eq_ok]
  constructor
  · rintro ⟨_, _, ⟨rfl, rfl⟩, _, _, rfl, rfl, rfl⟩
    exact ⟨rfl, rfl⟩
  · rintro ⟨rfl, rfl⟩
    exact ⟨_, _, ⟨rfl, rfl⟩, (), _, rfl, rfl, rfl⟩

theorem modifyGraph_eq_ok {f : FlowGraph → FlowGraph} {u : Unit} :
    modifyGraph f s = .ok u s' ↔ s' = s.withGraph (f s.graph) :=
  modify_eq_ok

theorem pushScope_eq_ok {scope : Scope} {u : Unit} :
    pushScope scope s = .ok u s' ↔ s' = s.entered scope :=
  modify_eq_ok

/-- Leaving a statement gives back what it has taken in. -/
theorem popScope_apply (s : Lowering) : popScope s = .ok s.innermost s.left := by
  obtain ⟨nextId, graph, pending, scopes, returns, loopHeads⟩ := s
  cases scopes <;> rfl

/-- Leaving a statement succeeds. -/
theorem popScope_eq_ok {scope : Scope} :
    popScope s = .ok scope s' ↔ scope = s.innermost ∧ s' = s.left := by
  rw [popScope_apply]
  simp [eq_comm]

/-- A new node gets the next number. -/
theorem newNode_eq_ok {kind : NodeKind} {text : String} {node : Node} :
    newNode kind text s = .ok node s' ↔ node = s.freshNode kind text ∧ s' = s.numbered := by
  simp only [newNode, bind_eq_ok, get_eq_ok, set_eq_ok, pure_eq_ok]
  constructor
  · rintro ⟨_, _, ⟨rfl, rfl⟩, _, _, rfl, rfl, rfl⟩
    exact ⟨rfl, rfl⟩
  · rintro ⟨rfl, rfl⟩
    exact ⟨_, _, ⟨rfl, rfl⟩, (), _, rfl, rfl, rfl⟩

/-- A new node for a statement gets the next number. -/
theorem newStmtNode_eq_ok {kind : NodeKind} {source : Element} {node : Node} :
    newStmtNode kind source s = .ok node s' ↔ node = s.stmtNode kind source ∧ s' = s.numbered := by
  simp only [newStmtNode, bind_eq_ok, newNode_eq_ok, pure_eq_ok]
  constructor
  · rintro ⟨_, _, ⟨rfl, rfl⟩, rfl, rfl⟩
    exact ⟨rfl, rfl⟩
  · rintro ⟨rfl, rfl⟩
    exact ⟨_, _, ⟨rfl, rfl⟩, rfl, rfl⟩

/-- Placing a node succeeds. -/
theorem place_eq_ok {node : Node} {id : NodeId} :
    place node s = .ok id s' ↔ id = node.id ∧ s' = s.placed node := by
  simp only [place, bind_eq_ok, modify_eq_ok, pure_eq_ok]
  constructor
  · rintro ⟨_, _, rfl, rfl, rfl⟩
    exact ⟨rfl, rfl⟩
  · rintro ⟨rfl, rfl⟩
    exact ⟨(), _, rfl, rfl, rfl⟩

/-- Leading arcs back to the head of a loop succeeds. -/
theorem closeLoop_eq_ok {head : NodeId} {tails : List Pending} {u : Unit} :
    closeLoop head tails s = .ok u s' ↔ s' = s.closed head tails :=
  modify_eq_ok

/-- Recording an element as unreachable succeeds. -/
theorem skip_eq_ok {element : ElementId} {u : Unit} :
    skip element s = .ok u s' ↔ s' = s.skipped element :=
  modify_eq_ok

end Lowering

/-! ## What grows -/

/-- A list with members added behind, all of which have a property. -/
def Adds {α : Type} (P : α → Prop) (before after : List α) : Prop :=
  ∃ added, after = before ++ added ∧ ∀ a ∈ added, P a

namespace Adds

variable {α : Type} {P Q : α → Prop} {a b c : List α}

theorem refl (P : α → Prop) (a : List α) : Adds P a a := ⟨[], by simp⟩

/-- What is added in two steps. -/
theorem trans (hab : Adds P a b) (hbc : Adds P b c) : Adds P a c := by
  obtain ⟨x, rfl, hx⟩ := hab
  obtain ⟨y, rfl, hy⟩ := hbc
  refine ⟨x ++ y, by simp, fun z hz => ?_⟩
  rcases List.mem_append.1 hz with hz | hz
  exacts [hx z hz, hy z hz]

/-- What is added has any property that follows. -/
theorem imp (h : ∀ x, P x → Q x) (hab : Adds P a b) : Adds Q a b :=
  let ⟨x, hx, hP⟩ := hab
  ⟨x, hx, fun y hy => h y (hP y hy)⟩

theorem subset (hab : Adds P a b) : a ⊆ b := by
  obtain ⟨x, rfl, -⟩ := hab
  exact List.subset_append_left _ _

/-- A member is an old one or has the property. -/
theorem mem_or (hab : Adds P a b) {x : α} (hx : x ∈ b) : x ∈ a ∨ P x := by
  obtain ⟨y, rfl, hy⟩ := hab
  exact (List.mem_append.1 hx).imp_right (hy x)

theorem single {x : α} (hx : P x) : Adds P a (a ++ [x]) := ⟨[x], rfl, by simpa using hx⟩

end Adds

/-- A handler that has taken in more. -/
def Handler.Grows (P : Pending → Prop) (a b : Handler) : Prop :=
  a.exceptionType = b.exceptionType ∧ Adds P a.incoming b.incoming

/-- A statement that has taken in more, where what it took in has a property. -/
inductive Scope.Grows (P : Pending → Prop) : Scope → Scope → Prop
  | loop {breaks breaks' continues continues' : List Pending} :
      Adds P breaks breaks' → Adds P continues continues' →
        Scope.Grows P (.loop breaks continues) (.loop breaks' continues')
  | select {breaks breaks' : List Pending} :
      Adds P breaks breaks' → Scope.Grows P (.select breaks) (.select breaks')
  | tryBlock {handlers handlers' : List Handler} {hasFinalizer : Bool}
      {escapes escapes' : List (Pending × Escape)} :
      List.Forall₂ (Handler.Grows P) handlers handlers' →
        Adds (fun e => P e.1) escapes escapes' → (hasFinalizer = false → escapes' = escapes) →
        Scope.Grows P (.tryBlock handlers hasFinalizer escapes)
          (.tryBlock handlers' hasFinalizer escapes')

/-- The arcs that a statement has taken in. -/
def Scope.waiting : Scope → List Pending
  | .loop breaks continues => breaks ++ continues
  | .select breaks => breaks
  | .tryBlock handlers _ escapes => handlers.flatMap (·.incoming) ++ escapes.map (·.1)

section Growing

variable {P Q : Pending → Prop}

theorem Handler.Grows.refl (P : Pending → Prop) (a : Handler) : Handler.Grows P a a :=
  ⟨rfl, .refl P _⟩

/-- What a handler took in has any property that follows. -/
theorem Handler.Grows.imp (h : ∀ p, P p → Q p) {a b : Handler} (hab : Handler.Grows P a b) :
    Handler.Grows Q a b :=
  ⟨hab.1, hab.2.imp h⟩

/-- A transitive relation between lists, member by member. -/
theorem forall₂_comp {α : Type} {R : α → α → Prop} (h : ∀ a b c, R a b → R b c → R a c) :
    ∀ {a b c : List α}, List.Forall₂ R a b → List.Forall₂ R b c → List.Forall₂ R a c
  | _, _, _, .nil, .nil => .nil
  | _, _, _, .cons h₁ hab, .cons h₂ hbc => .cons (h _ _ _ h₁ h₂) (forall₂_comp h hab hbc)

theorem Scope.Grows.refl (P : Pending → Prop) : ∀ a : Scope, Scope.Grows P a a
  | .loop _ _ => .loop (.refl P _) (.refl P _)
  | .select _ => .select (.refl P _)
  | .tryBlock _ _ _ =>
    .tryBlock (List.forall₂_same.2 fun a _ => .refl P a) (.refl _ _) fun _ => rfl

/-- What a statement took in has any property that follows. -/
theorem Scope.Grows.imp (h : ∀ p, P p → Q p) {a b : Scope} (hab : Scope.Grows P a b) :
    Scope.Grows Q a b := by
  cases hab with
  | loop hb hc => exact .loop (hb.imp h) (hc.imp h)
  | select hb => exact .select (hb.imp h)
  | tryBlock hh he hf =>
    exact .tryBlock (hh.imp fun _ _ => .imp h) (he.imp fun e => h e.1) hf

/-- A statement has taken in more twice. -/
theorem Scope.Grows.trans {a b c : Scope} (hab : Scope.Grows P a b) (hbc : Scope.Grows P b c) :
    Scope.Grows P a c := by
  cases hab with
  | loop hb hc =>
    cases hbc with
    | loop hb' hc' => exact .loop (hb.trans hb') (hc.trans hc')
  | select hb =>
    cases hbc with
    | select hb' => exact .select (hb.trans hb')
  | tryBlock hh he hf =>
    cases hbc with
    | tryBlock hh' he' hf' =>
      exact .tryBlock (forall₂_comp (fun _ _ _ h₁ h₂ => ⟨h₁.1.trans h₂.1, h₁.2.trans h₂.2⟩) hh hh')
        (he.trans he') fun hno => (hf' hno).trans (hf hno)

/-- Lists that are put together from growing ones grow. -/
theorem forall₂_flatMap_subset {α β : Type} {R : α → α → Prop} {f : α → List β}
    (h : ∀ a b, R a b → f a ⊆ f b) {as bs : List α} (hab : List.Forall₂ R as bs) :
    as.flatMap f ⊆ bs.flatMap f := by
  induction hab with
  | nil => exact List.Subset.refl _
  | cons h₁ _ ih =>
    rw [List.flatMap_cons, List.flatMap_cons]
    exact List.append_subset.2 ⟨List.Subset.trans (h _ _ h₁) (List.subset_append_left _ _),
      List.Subset.trans ih (List.subset_append_right _ _)⟩

/-- A member of growing lists that are put together is an old one or has the property. -/
theorem forall₂_flatMap_mem_or {α β : Type} {R : α → α → Prop} {f : α → List β} {P : β → Prop}
    (h : ∀ a b, R a b → ∀ x ∈ f b, x ∈ f a ∨ P x) {as bs : List α} (hab : List.Forall₂ R as bs)
    {x : β} (hx : x ∈ bs.flatMap f) : x ∈ as.flatMap f ∨ P x := by
  induction hab with
  | nil => exact .inl hx
  | cons h₁ _ ih =>
    rw [List.flatMap_cons] at hx ⊢
    rcases List.mem_append.1 hx with hx | hx
    · exact (h _ _ h₁ x hx).imp_left (List.mem_append_left _)
    · exact (ih hx).imp_left (List.mem_append_right _)

/-- What a statement has taken in it keeps. -/
theorem Scope.Grows.waiting_subset {a b : Scope} (hab : Scope.Grows P a b) :
    a.waiting ⊆ b.waiting := by
  cases hab with
  | loop hb hc => exact List.append_subset.2 ⟨List.Subset.trans hb.subset (List.subset_append_left _ _),
      List.Subset.trans hc.subset (List.subset_append_right _ _)⟩
  | select hb => exact hb.subset
  | tryBlock hh he _ =>
    refine List.append_subset.2 ⟨List.Subset.trans ?_ (List.subset_append_left _ _),
      List.Subset.trans (List.map_subset _ he.subset) (List.subset_append_right _ _)⟩
    exact forall₂_flatMap_subset (fun _ _ h => h.2.subset) hh

/-- An arc that a statement has taken in is an old one or has the property. -/
theorem Scope.Grows.waiting_mem_or {a b : Scope} (hab : Scope.Grows P a b) {p : Pending}
    (hp : p ∈ b.waiting) : p ∈ a.waiting ∨ P p := by
  cases hab with
  | loop hb hc =>
    rcases List.mem_append.1 hp with hp | hp
    · exact (hb.mem_or hp).imp_left (List.mem_append_left _)
    · exact (hc.mem_or hp).imp_left (List.mem_append_right _)
  | select hb => exact hb.mem_or hp
  | tryBlock hh he _ =>
    rcases List.mem_append.1 hp with hp | hp
    · exact (forall₂_flatMap_mem_or (fun _ _ h x => h.2.mem_or) hh hp).imp_left
        (List.mem_append_left _)
    · obtain ⟨e, hmem, rfl⟩ := List.mem_map.1 hp
      exact (he.mem_or hmem).imp_left fun h => List.mem_append_right _ (List.mem_map_of_mem h)

end Growing

/-! ## Ways out -/

section WaysOut

variable (h : Hierarchy) (p : Pending) (escape : Escape)

/-- Handlers take in nothing but what is offered to them. -/
theorem offer_grows (exceptionType : String) : ∀ handlers : List Handler,
    List.Forall₂ (Handler.Grows (· = p)) handlers (offer h exceptionType p handlers).1
  | [] => .nil
  | handler :: rest => by
    have ih := offer_grows exceptionType rest
    unfold offer
    split
    · exact .cons ⟨rfl, .single rfl⟩ (List.forall₂_same.2 fun a _ => .refl _ a)
    · exact .cons ⟨rfl, .single rfl⟩ ih
    · exact .cons (.refl _ _) ih

/-- What the handlers of a `try` become when a way out is offered to them, and whether one
    of them takes it for certain. -/
def offered (handlers : List Handler) : List Handler × Bool :=
  match escape with
  | .throwJump exceptionType => offer h exceptionType p handlers
  | _ => (handlers, false)

/-- A `try` takes in a way out at its handlers, and else at its `finally` block. -/
theorem take_tryBlock (handlers : List Handler) (hasFinalizer : Bool)
    (escapes : List (Pending × Escape)) :
    (Scope.tryBlock handlers hasFinalizer escapes).take h p escape =
      if (offered h p escape handlers).2 then
        (.tryBlock (offered h p escape handlers).1 hasFinalizer escapes, true)
      else if hasFinalizer then
        (.tryBlock (offered h p escape handlers).1 hasFinalizer (escapes ++ [(p, escape)]), true)
      else (.tryBlock (offered h p escape handlers).1 hasFinalizer escapes, false) := by
  cases escape <;> rfl

/-- Handlers take in nothing but the way out that is sent to them. -/
theorem offered_grows (handlers : List Handler) :
    List.Forall₂ (Handler.Grows (· = p)) handlers (offered h p escape handlers).1 := by
  cases escape with
  | throwJump exceptionType => exact offer_grows h p exceptionType handlers
  | breakJump => exact List.forall₂_same.2 fun a _ => .refl _ a
  | continueJump => exact List.forall₂_same.2 fun a _ => .refl _ a
  | returnJump => exact List.forall₂_same.2 fun a _ => .refl _ a

/-- A statement takes in nothing but the way out that is sent to it. -/
theorem take_grows (scope : Scope) : Scope.Grows (· = p) scope (scope.take h p escape).1 := by
  cases scope with
  | loop breaks continues =>
    cases escape with
    | breakJump => exact .loop (.single rfl) (.refl _ _)
    | continueJump => exact .loop (.refl _ _) (.single rfl)
    | returnJump => exact .refl _ _
    | throwJump => exact .refl _ _
  | select breaks =>
    cases escape with
    | breakJump => exact .select (.single rfl)
    | continueJump => exact .refl _ _
    | returnJump => exact .refl _ _
    | throwJump => exact .refl _ _
  | tryBlock handlers hasFinalizer escapes =>
    have hgrows := offered_grows h p escape handlers
    rw [take_tryBlock]
    split
    · exact .tryBlock hgrows (.refl _ _) fun _ => rfl
    · split
      · rename_i hfin
        exact .tryBlock hgrows (.single rfl) fun hno => by simp [hno] at hfin
      · exact .tryBlock hgrows (.refl _ _) fun _ => rfl

/-- Only the arc that is sent is taken in. -/
theorem deliver_grows : ∀ scopes : List Scope,
    List.Forall₂ (Scope.Grows (· = p)) scopes (deliver h p escape scopes).1
  | [] => .nil
  | scope :: outer => by
    have hscope := take_grows h p escape scope
    unfold deliver
    split
    · rename_i scope' heq
      rw [heq] at hscope
      exact .cons hscope (List.forall₂_same.2 fun a _ => .refl _ a)
    · rename_i scope' heq
      rw [heq] at hscope
      exact .cons hscope (deliver_grows outer)

/-- A handler that takes an exception for certain takes it in. -/
theorem mem_offer (exceptionType : String) : ∀ handlers : List Handler,
    (offer h exceptionType p handlers).2 = true →
      p ∈ (offer h exceptionType p handlers).1.flatMap (·.incoming)
  | [] => by simp [offer]
  | handler :: rest => by
    have ih := mem_offer exceptionType rest
    unfold offer
    split
    · simp
    · simp
    · intro ht
      exact List.mem_append_right _ (ih ht)

/-- A statement that a way out ends at takes it in. -/
theorem mem_take (scope : Scope) (ht : (scope.take h p escape).2 = true) :
    p ∈ (scope.take h p escape).1.waiting := by
  cases scope with
  | loop breaks continues =>
    cases escape with
    | breakJump => simp [Scope.take, Scope.waiting]
    | continueJump => simp [Scope.take, Scope.waiting]
    | returnJump => simp [Scope.take] at ht
    | throwJump => simp [Scope.take] at ht
  | select breaks =>
    cases escape with
    | breakJump => simp [Scope.take, Scope.waiting]
    | continueJump => simp [Scope.take] at ht
    | returnJump => simp [Scope.take] at ht
    | throwJump => simp [Scope.take] at ht
  | tryBlock handlers hasFinalizer escapes =>
    rw [take_tryBlock] at ht ⊢
    by_cases htaken : (offered h p escape handlers).2
    · rw [if_pos htaken]
      cases escape with
      | throwJump exceptionType =>
        exact List.mem_append_left _ (mem_offer h p exceptionType handlers htaken)
      | breakJump => cases htaken
      | continueJump => cases htaken
      | returnJump => cases htaken
    · rw [if_neg htaken] at ht ⊢
      cases hasFinalizer with
      | true => simp [Scope.waiting]
      | false => cases ht

/-- An arc that ends at a statement around is among those it has taken in. -/
theorem mem_deliver : ∀ scopes : List Scope, (deliver h p escape scopes).2 = true →
    p ∈ (deliver h p escape scopes).1.flatMap Scope.waiting
  | [] => by simp [deliver]
  | scope :: outer => by
    have hscope := mem_take h p escape scope
    have ih := mem_deliver outer
    unfold deliver
    split
    · rename_i scope' heq
      rw [heq] at hscope
      exact fun _ => List.mem_append_left _ (hscope rfl)
    · exact fun ht => List.mem_append_right _ (ih ht)

end WaysOut

namespace Lowering

/-- The state with a way out sent to where it leads. -/
def sent (h : Hierarchy) (s : Lowering) (p : Pending) (escape : Escape) : Lowering :=
  { s with
    scopes := (deliver h p escape s.scopes).1
    returns := if (deliver h p escape s.scopes).2 then s.returns else s.returns ++ [p] }

/-- A way out leads somewhere: only breaks and continues may not. -/
def Lands (h : Hierarchy) (s : Lowering) (p : Pending) (escape : Escape) : Prop :=
  (deliver h p escape s.scopes).2 = true ∨ escape ≠ .breakJump ∧ escape ≠ .continueJump

/-- The state with several ways out sent. -/
def sentAll (h : Hierarchy) (s : Lowering) (escapes : List (Pending × Escape)) : Lowering :=
  escapes.foldl (fun s e => s.sent h e.1 e.2) s

/-- The exceptions that a node may raise, as ways out. -/
def raises (node : NodeId) (exceptionTypes : List String) : List (Pending × Escape) :=
  exceptionTypes.map fun exceptionType =>
    (⟨node, (Escape.throwJump exceptionType).edge⟩, .throwJump exceptionType)

/-- What waits for its target elsewhere than in the frontier. -/
def collected (s : Lowering) : List Pending := s.scopes.flatMap Scope.waiting ++ s.returns

variable {h : Hierarchy} {s s' : Lowering} {p : Pending} {escape : Escape}

section Fields

variable (h : Hierarchy) (s : Lowering) (p : Pending) (escape : Escape)

@[simp] theorem sent_pending : (s.sent h p escape).pending = s.pending := rfl
@[simp] theorem sent_graph : (s.sent h p escape).graph = s.graph := rfl
@[simp] theorem sent_loopHeads : (s.sent h p escape).loopHeads = s.loopHeads := rfl
@[simp] theorem sent_nextId : (s.sent h p escape).nextId = s.nextId := rfl

variable (escapes : List (Pending × Escape))

/-- What is kept as each way out is sent is kept as all of them are. -/
theorem sentAll_induction {motive : Lowering → Prop} (hs : motive s)
    (hstep : ∀ t, ∀ e ∈ escapes, motive t → motive (t.sent h e.1 e.2)) :
    motive (s.sentAll h escapes) := by
  induction escapes generalizing s with
  | nil => exact hs
  | cons e escapes ih =>
    exact ih (s.sent h e.1 e.2) (hstep s e List.mem_cons_self hs)
      fun t e' he' => hstep t e' (List.mem_cons_of_mem _ he')

@[simp] theorem sentAll_pending : (s.sentAll h escapes).pending = s.pending :=
  sentAll_induction h s escapes (motive := fun t => t.pending = s.pending) rfl fun _ _ _ ht => ht

@[simp] theorem sentAll_graph : (s.sentAll h escapes).graph = s.graph :=
  sentAll_induction h s escapes (motive := fun t => t.graph = s.graph) rfl fun _ _ _ ht => ht

@[simp] theorem sentAll_loopHeads : (s.sentAll h escapes).loopHeads = s.loopHeads :=
  sentAll_induction h s escapes (motive := fun t => t.loopHeads = s.loopHeads) rfl
    fun _ _ _ ht => ht

@[simp] theorem sentAll_nextId : (s.sentAll h escapes).nextId = s.nextId :=
  sentAll_induction h s escapes (motive := fun t => t.nextId = s.nextId) rfl fun _ _ _ ht => ht

/-- The statements around take in nothing but what is sent. -/
theorem sent_scopes : List.Forall₂ (Scope.Grows (· = p)) s.scopes (s.sent h p escape).scopes :=
  deliver_grows h p escape s.scopes

/-- Nothing leaves the callable but what is sent. -/
theorem sent_returns : Adds (· = p) s.returns (s.sent h p escape).returns := by
  unfold sent
  dsimp only
  split
  · exact .refl _ _
  · exact .single rfl

/-- What is sent waits where it was sent to. -/
theorem mem_collected_sent : p ∈ (s.sent h p escape).collected := by
  unfold collected sent
  dsimp only
  split
  · rename_i ht
    exact List.mem_append_left _ (mem_deliver h p escape s.scopes ht)
  · simp

end Fields

/-- Sending a way out fails only if it is a jump that leads nowhere. -/
theorem route_apply (h : Hierarchy) (s : Lowering) (p : Pending) (escape : Escape) :
    route h p escape s = match deliver h p escape s.scopes, escape with
      | (scopes, true), _ => .ok () { s with scopes }
      | (_, false), .breakJump =>
        .error (.structural s.graph.callable (.misplacedJump .breakJump p.source)) s
      | (_, false), .continueJump =>
        .error (.structural s.graph.callable (.misplacedJump .continueJump p.source)) s
      | (scopes, false), _ => .ok () { s with scopes, returns := s.returns ++ [p] } := by
  change (match deliver h p escape s.scopes, escape with
    | (scopes, true), _ => set { s with scopes }
    | (_, false), .breakJump =>
      throw (.structural s.graph.callable (.misplacedJump .breakJump p.source))
    | (_, false), .continueJump =>
      throw (.structural s.graph.callable (.misplacedJump .continueJump p.source))
    | (scopes, false), _ => set { s with scopes, returns := s.returns ++ [p] } : Lower Unit) s = _
  obtain ⟨scopes, taken⟩ := deliver h p escape s.scopes
  cases taken <;> cases escape <;> rfl

/-- Sending a way out succeeds if it leads somewhere. -/
theorem route_eq_ok {u : Unit} :
    route h p escape s = .ok u s' ↔ s.Lands h p escape ∧ s' = s.sent h p escape := by
  rw [route_apply, Lands, sent]
  obtain ⟨scopes, taken⟩ := deliver h p escape s.scopes
  cases taken <;> cases escape <;> simp [eq_comm]

/-- Where sending ways out succeeds, all of them have been sent. -/
theorem routeAll_eq_ok {escapes : List (Pending × Escape)} {u : Unit}
    (hr : routeAll h escapes s = .ok u s') : s' = s.sentAll h escapes := by
  induction escapes generalizing s with
  | nil => exact (pure_eq_ok.1 hr).2
  | cons e escapes ih =>
    obtain ⟨p, escape⟩ := e
    simp only [routeAll, bind_eq_ok, route_eq_ok] at hr
    obtain ⟨_, _, ⟨-, rfl⟩, hr⟩ := hr
    exact ih hr

/-- Ways out that lead somewhere in any state can all be sent. -/
theorem routeAll_ok {escapes : List (Pending × Escape)}
    (hl : ∀ t : Lowering, t.scopes.length = s.scopes.length → ∀ e ∈ escapes, t.Lands h e.1 e.2) :
    routeAll h escapes s = .ok () (s.sentAll h escapes) := by
  induction escapes generalizing s with
  | nil => rfl
  | cons e escapes ih =>
    obtain ⟨p, escape⟩ := e
    have hlen : (s.sent h p escape).scopes.length = s.scopes.length :=
      (sent_scopes h s p escape).length_eq.symm
    rw [routeAll, bind_eq_ok]
    refine ⟨(), _, route_eq_ok.2 ⟨hl s rfl _ List.mem_cons_self, rfl⟩, ih fun t ht e' he' => ?_⟩
    exact hl t (ht.trans hlen) e' (List.mem_cons_of_mem _ he')

/-- Raising exceptions succeeds, as each leads somewhere. -/
theorem raiseAll_eq_ok {node : NodeId} {exceptionTypes : List String} {u : Unit} :
    raiseAll h node exceptionTypes s = .ok u s' ↔
      s' = s.sentAll h (raises node exceptionTypes) := by
  refine ⟨routeAll_eq_ok, ?_⟩
  rintro rfl
  refine routeAll_ok fun t _ e he => ?_
  obtain ⟨exceptionType, -, rfl⟩ := List.mem_map.1 he
  exact .inr ⟨by simp, by simp⟩

end Lowering

end Slicing
