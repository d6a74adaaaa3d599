import Slicing.Proofs.Flow.Plain
import Slicing.Proofs.Flow.Routing
import Slicing.Proofs.Flow.Waiting
import Slicing.Proofs.Resolution

/-!
# Exceptions at run time

An exception that is thrown as one type may be of any type below it at run time, and a handler
handles it if that type is below the one of the handler (`Program.Handles`).
`Hierarchy.exceptionMatch` looks at the two declared types only. If it answers that a handler always
handles the exception, so it does at run time. If it answers that the handler never does, none of
the two types is below the other, and the answer holds of all types at run time but those that get
to both of them where the supertypes of some type part (`Program.Forks`). There are none where each
type names one supertype at most (`Program.not_forks_of_single`).

So an exception is always noted where it goes at run time (`Hierarchy.Awaited`), up to such types:
at the first handler that handles it, or at a `finally` block in front of that one.
-/

namespace Slicing

open Relation
open Lowering (From)

namespace Program

variable {program : Program} {r s t c : TypeId}

/-- On the way up from `r` the supertypes of some type part: one of them leads to `t` and not to `c`,
    another one leads to `c`. -/
def Forks (program : Program) (r t c : TypeId) : Prop :=
  ∃ b s s', program.Below r b ∧ program.Extends b s ∧ program.Extends b s' ∧
    program.Below s t ∧ ¬program.Below s c ∧ program.Below s' c

/-- A type gets to two types, none of which is below the other, by a type whose supertypes part. -/
theorem forks_of_below (hrt : program.Below r t) (hrc : program.Below r c) (htc : ¬program.Below t c)
    (hct : ¬program.Below c t) : program.Forks r t c := by
  induction hrt using ReflTransGen.head_induction_on with
  | refl => exact absurd hrc htc
  | @head r s hstep hst ih =>
    by_cases hsc : program.Below s c
    · obtain ⟨b, s₁, s₂, hsb, hfork⟩ := ih hsc
      exact ⟨b, s₁, s₂, .head hstep hsb, hfork⟩
    · -- `s` has left the ways to `c`, one of which starts at `r`
      rcases hrc.cases_head with rfl | ⟨s', hstep', hsc'⟩
      · exact absurd (.head hstep hst) hct
      · exact ⟨r, s, s', .refl, hstep, hstep', hst, hsc, hsc'⟩

/-- Supertypes do not part where each type on the way up names one of them at most. -/
theorem not_forks_of_single (hsingle : ∀ b s s', program.Below r b → program.Extends b s →
    program.Extends b s' → s = s') : ¬program.Forks r t c := by
  rintro ⟨b, s, s', hrb, hs, hs', -, hsc, hsc'⟩
  exact hsc (hsingle b s s' hrb hs hs' ▸ hsc')

/-- A handler for a type, or for everything, handles what is of some type at run time. -/
def Handles (program : Program) (r : TypeId) : Option String → Prop
  | none => True
  | some name => ∃ decl ∈ program.types, decl.name = name ∧ program.Below r decl.id

/-- A handler is one for everything, or for a declared type such that what is of type `r` at run time
    does not get to it and to `t` by different supertypes. -/
def Unforked (program : Program) (r t : TypeId) : Option String → Prop
  | none => True
  | some name => ∃ decl ∈ program.types, decl.name = name ∧ ¬program.Forks r t decl.id

end Program

namespace Hierarchy

variable {program : Program} {h : Hierarchy} {thrown caught : TypeDecl} {r : TypeId}

/-! ## Verdicts -/

/-- The hierarchy of a program in which no name of a type is given twice, and no number. -/
structure Names (h : Hierarchy) (program : Program) : Prop where
  isSubtype_iff : ∀ s t, h.isSubtype s t = true ↔ program.Below s t
  typeByName? : ∀ decl ∈ program.types, h.typeByName? decl.name = some decl.id
  names_nodup : (program.types.map (·.name)).Nodup

/-- In a program with distinct names a type is what its name says. -/
theorem names_of_ofProgram (hh : ofProgram program = .ok h) (htypes : (program.types.map (·.id)).Nodup)
    (hnames : (program.types.map (·.name)).Nodup) : h.Names program where
  isSubtype_iff s t := by
    rw [isSubtype, List.contains_iff_mem]
    exact (describes_types hh htypes).mem_supertypesOf_iff
  typeByName? decl hdecl := by
    have hfind : h.types.reverse.find? (·.name == decl.name) = some decl := by
      rw [(describes_types hh htypes).types, find?_eq_some_iff_of_unique, List.mem_reverse]
      · exact ⟨hdecl, rfl⟩
      · intro a ha b hb
        exact List.inj_on_of_nodup_map hnames (List.mem_reverse.1 ha) (List.mem_reverse.1 hb)
    rw [Hierarchy.typeByName?, hfind]
    rfl
  names_nodup := hnames

/-- What is said of a handler for a declared type: always if the thrown type is below that one,
    sometimes if it is the other way round, and never if none is below the other. -/
theorem Names.exceptionMatch_iff (hn : h.Names program) (ht : thrown ∈ program.types)
    (hc : caught ∈ program.types) :
    (h.exceptionMatch thrown.name (some caught.name) = .definite ↔ program.Below thrown.id caught.id) ∧
    (h.exceptionMatch thrown.name (some caught.name) = .possible ↔
      ¬program.Below thrown.id caught.id ∧ program.Below caught.id thrown.id) ∧
    (h.exceptionMatch thrown.name (some caught.name) = .never ↔
      ¬program.Below thrown.id caught.id ∧ ¬program.Below caught.id thrown.id) := by
  by_cases heq : thrown.name = caught.name
  · obtain rfl : thrown = caught := List.inj_on_of_nodup_map hn.names_nodup ht hc heq
    have hself : program.Below thrown.id thrown.id := .refl
    simp [exceptionMatch, hself]
  · rw [exceptionMatch, if_neg heq, hn.typeByName? thrown ht, hn.typeByName? caught hc,
      ← hn.isSubtype_iff, ← hn.isSubtype_iff]
    dsimp only
    cases h.isSubtype thrown.id caught.id <;> cases h.isSubtype caught.id thrown.id <;> simp

/-- Whoever always handles a thrown type handles what is below it. -/
theorem Names.handles_of_definite (hn : h.Names program) (ht : thrown ∈ program.types)
    (hr : program.Below r thrown.id) {type : Option String} (htype : program.Unforked r thrown.id type)
    (hmatch : h.exceptionMatch thrown.name type = .definite) : program.Handles r type := by
  cases type with
  | none => trivial
  | some name =>
    obtain ⟨caught, hc, rfl, -⟩ := htype
    exact ⟨caught, hc, rfl, hr.trans ((hn.exceptionMatch_iff ht hc).1.1 hmatch)⟩

/-- Whoever never handles a thrown type only handles what is below it where supertypes part. -/
theorem Names.not_handles_of_never (hn : h.Names program) (ht : thrown ∈ program.types)
    (hr : program.Below r thrown.id) {type : Option String} (htype : program.Unforked r thrown.id type)
    (hmatch : h.exceptionMatch thrown.name type = .never) : ¬program.Handles r type := by
  cases type with
  | none => cases hmatch
  | some name =>
    obtain ⟨caught, hc, rfl, hfork⟩ := htype
    obtain ⟨htc, hct⟩ := (hn.exceptionMatch_iff ht hc).2.2.1 hmatch
    rintro ⟨decl, hdecl, heq, hrc⟩
    obtain rfl : decl = caught := List.inj_on_of_nodup_map hn.names_nodup hdecl hc heq
    exact hfork (Program.forks_of_below hr hrc htc hct)

/-! ## Routing -/

/-- What leaves a node is noted where an exception goes at run time that some handlers handle: at the
    first handler around that does, unless there is a `finally` block in front of it. There it waits
    for the block, and without any handler or `finally` block it leaves the callable. -/
def Awaited (handles : Option String → Prop) (returns : List Pending) (escape : Escape) (x : NodeId) :
    List Scope → Prop
  | [] => From returns x
  | scope :: outer =>
    (∀ before handler after, scope.handlers = before ++ handler :: after →
      (∀ b ∈ before, ¬handles b.exceptionType) → handles handler.exceptionType →
        From handler.incoming x) ∧
    ((∀ handler ∈ scope.handlers, ¬handles handler.exceptionType) →
      if scope.hasFinalizer then ∃ e ∈ scope.escapes, e.2 = escape ∧ e.1.source = x
      else Awaited handles returns escape x outer)

/-- What is noted wherever the verdicts on handlers let it go is noted where it goes, if the verdicts
    are right. -/
theorem Awaited.of_routed {handles : Option String → Prop} {exceptionType : String}
    {returns : List Pending} {x : NodeId} {scopes : List Scope}
    (hdefinite : ∀ handler ∈ scopes.flatMap Scope.handlers,
      h.exceptionMatch exceptionType handler.exceptionType = .definite → handles handler.exceptionType)
    (hnever : ∀ handler ∈ scopes.flatMap Scope.handlers,
      h.exceptionMatch exceptionType handler.exceptionType = .never → ¬handles handler.exceptionType)
    (hrouted : Routed h returns (.throwJump exceptionType) x scopes) :
    Awaited handles returns (.throwJump exceptionType) x scopes := by
  -- scope by scope outwards, as far as the exception gets
  induction scopes with
  | nil => exact hrouted
  | cons scope outer ih =>
    have houter := ih (fun handler hmem => hdefinite handler (List.mem_append_right _ hmem))
      (fun handler hmem => hnever handler (List.mem_append_right _ hmem))
    obtain ⟨hnotes, hpasses⟩ := hrouted
    cases scope with
    | loop breaks continues =>
      refine ⟨fun before handler after heq => ?_, fun _ => houter (hpasses ⟨nofun, nofun⟩)⟩
      exact absurd heq (by simp [Scope.handlers])
    | select breaks =>
      refine ⟨fun before handler after heq => ?_, fun _ => houter (hpasses nofun)⟩
      exact absurd heq (by simp [Scope.handlers])
    | tryBlock handlers hasFinalizer escapes =>
      have hmem {handler : Handler} (hhandler : handler ∈ handlers) :
          handler ∈ (Scope.tryBlock handlers hasFinalizer escapes :: outer).flatMap Scope.handlers :=
        List.mem_append_left _ hhandler
      refine ⟨fun before handler after heq hbefore hhandles => ?_, fun hnone => ?_⟩
      · have heq : handlers = before ++ handler :: after := heq
        refine hnotes.1 exceptionType rfl before handler after heq (fun b hb hdef => ?_) fun hno => ?_
        · exact hbefore b hb (hdefinite b (hmem (heq ▸ List.mem_append_left _ hb)) hdef)
        · exact hnever handler (hmem (heq ▸ by simp)) hno hhandles
      · have hpass : PassesHandlers h (.throwJump exceptionType) handlers := by
          rintro _ ⟨⟩ handler hhandler hdef
          exact hnone handler hhandler (hdefinite handler (hmem hhandler) hdef)
        cases hasFinalizer with
        | true => exact hnotes.2 rfl hpass
        | false => exact houter (hpasses ⟨rfl, hpass⟩)

/-- The handlers around stay for the same types when something is sent. -/
theorem exceptionType_of_mem_deliver {p : Pending} {escape : Escape} {scopes : List Scope}
    {handler : Handler} (hmem : handler ∈ (deliver h p escape scopes).1.flatMap Scope.handlers) :
    ∃ old ∈ scopes.flatMap Scope.handlers, old.exceptionType = handler.exceptionType := by
  have hgrows := List.rel_flatMap (deliver_grows h p escape scopes) fun _ _ hg => hg.handlers
  obtain ⟨old, hold, hg⟩ := forall₂_mem_right hgrows hmem
  exact ⟨old, hold, hg.1⟩

/-- What is said of handlers holds at run time. Of what is below the thrown type, a handler that always
    handles that type handles everything, and one that never does handles nothing but what gets to
    both types where supertypes part. An exception that is thrown is noted where it goes at run time,
    if no handler around is of such a type. -/
theorem exceptionMatch_sound (hh : ofProgram program = .ok h) (htypes : (program.types.map (·.id)).Nodup)
    (hnames : (program.types.map (·.name)).Nodup) (ht : thrown ∈ program.types)
    (hr : program.Below r thrown.id) :
    (∀ caught ∈ program.types,
      (h.exceptionMatch thrown.name (some caught.name) = .definite → program.Below r caught.id) ∧
      (h.exceptionMatch thrown.name (some caught.name) = .never →
        program.Below r caught.id → program.Forks r thrown.id caught.id) ∧
      (h.exceptionMatch thrown.name (some caught.name) = .possible →
        program.Below caught.id thrown.id ∧ ¬program.Below thrown.id caught.id)) ∧
    ∀ p returns scopes,
      (∀ handler ∈ scopes.flatMap Scope.handlers, program.Unforked r thrown.id handler.exceptionType) →
      Awaited (program.Handles r)
        (if (deliver h p (.throwJump thrown.name) scopes).2 then returns else returns ++ [p])
        (.throwJump thrown.name) p.source (deliver h p (.throwJump thrown.name) scopes).1 := by
  have hn := names_of_ofProgram hh htypes hnames
  refine ⟨fun caught hc => ?_, fun p returns scopes hunforked => ?_⟩
  · obtain ⟨hdefinite, hpossible, hnever⟩ := hn.exceptionMatch_iff ht hc
    refine ⟨fun hmatch => hr.trans (hdefinite.1 hmatch), fun hmatch hrc => ?_, fun hmatch => ?_⟩
    · exact Program.forks_of_below hr hrc (hnever.1 hmatch).1 (hnever.1 hmatch).2
    · exact (hpossible.1 hmatch).symm
  · have hunforked' (handler : Handler)
        (hmem : handler ∈ (deliver h p (.throwJump thrown.name) scopes).1.flatMap Scope.handlers) :
        program.Unforked r thrown.id handler.exceptionType := by
      obtain ⟨old, hold, heq⟩ := exceptionType_of_mem_deliver hmem
      exact heq ▸ hunforked old hold
    refine Awaited.of_routed (fun handler hmem => ?_) (fun handler hmem => ?_)
      (routed_deliver h p (.throwJump thrown.name) returns scopes)
    · exact hn.handles_of_definite ht hr (hunforked' handler hmem)
    · exact hn.not_handles_of_never ht hr (hunforked' handler hmem)

/-- Failures of a network. One to connect in time is both a failure of the network and a timeout. -/
def outages : Program where
  types := [⟨⟨0⟩, "Failure", []⟩, ⟨⟨1⟩, "NetworkFailure", [⟨0⟩]⟩, ⟨⟨2⟩, "Timeout", [⟨0⟩]⟩,
    ⟨⟨3⟩, "ConnectTimeout", [⟨1⟩, ⟨2⟩]⟩, ⟨⟨4⟩, "Refusal", [⟨1⟩]⟩]
  callables := []

/-- What is thrown as a failure of the network and is a refusal at run time passes a handler for timeouts
    and is noted at one for all failures. -/
theorem outages_sound : outages.Below ⟨4⟩ ⟨1⟩ ∧
    (exceptionMatch ⟨outages.types, outages.callables⟩ "NetworkFailure" (some "Failure") = .definite ∧
      outages.Below ⟨4⟩ ⟨0⟩) ∧
    (∀ c, ¬outages.Forks ⟨4⟩ ⟨1⟩ c) ∧
    ∀ p, Awaited (outages.Handles ⟨4⟩) [] (.throwJump "NetworkFailure") p.source
      (deliver ⟨outages.types, outages.callables⟩ p (.throwJump "NetworkFailure")
        [.tryBlock [⟨some "Timeout", []⟩, ⟨some "Failure", []⟩] false []]).1 := by
  have hprogram : ofProgram outages = .ok ⟨outages.types, outages.callables⟩ := rfl
  have hfailure : ⟨⟨0⟩, "Failure", []⟩ ∈ outages.types := by decide
  have hnetwork : ⟨⟨1⟩, "NetworkFailure", [⟨0⟩]⟩ ∈ outages.types := by decide
  have htimeout : ⟨⟨2⟩, "Timeout", [⟨0⟩]⟩ ∈ outages.types := by decide
  have hrefusal : outages.Below ⟨4⟩ ⟨1⟩ := .single ⟨⟨⟨4⟩, "Refusal", [⟨1⟩]⟩, by decide, rfl, by decide⟩
  -- all types but that of failures to connect in time name one supertype at most
  have hsingle : ∀ decl ∈ outages.types, decl.id ≠ ⟨3⟩ →
      ∀ s ∈ decl.supertypes, ∀ s' ∈ decl.supertypes, s = s' := by decide
  have hnamed : ∀ decl ∈ outages.types, ∀ s ∈ decl.supertypes, s ≠ ⟨3⟩ := by decide
  have habove {b : TypeId} (hb : outages.Below ⟨4⟩ b) : b ≠ ⟨3⟩ := by
    rcases ReflTransGen.cases_tail hb with rfl | ⟨s, -, decl, hdecl, -, hb⟩
    exacts [by decide, hnamed decl hdecl b hb]
  have hfork (c : TypeId) : ¬outages.Forks ⟨4⟩ ⟨1⟩ c := by
    refine Program.not_forks_of_single fun b s s' hb hs hs' => ?_
    obtain ⟨decl, hdecl, rfl, hs⟩ := hs
    obtain ⟨decl', hdecl', hid, hs'⟩ := hs'
    obtain rfl : decl' = decl := List.inj_on_of_nodup_map (by decide) hdecl' hdecl hid
    exact hsingle decl' hdecl (habove hb) s hs s' hs'
  obtain ⟨hverdicts, hrouted⟩ :=
    exceptionMatch_sound hprogram (by decide) (by decide) hnetwork hrefusal
  have hdefinite : exceptionMatch ⟨outages.types, outages.callables⟩ "NetworkFailure" (some "Failure") =
      .definite := by cbv
  have htaken (p : Pending) : (deliver ⟨outages.types, outages.callables⟩ p (.throwJump "NetworkFailure")
      [.tryBlock [⟨some "Timeout", []⟩, ⟨some "Failure", []⟩] false []]).2 = true := by cbv
  refine ⟨hrefusal, ⟨hdefinite, (hverdicts _ hfailure).1 hdefinite⟩, hfork, fun p => ?_⟩
  have hscopes := hrouted p [] [.tryBlock [⟨some "Timeout", []⟩, ⟨some "Failure", []⟩] false []] ?_
  · simpa only [htaken p, if_true] using hscopes
  · simp only [List.flatMap_cons, List.flatMap_nil, List.append_nil, Scope.handlers, List.mem_cons,
      List.not_mem_nil, or_false]
    rintro handler (rfl | rfl)
    · exact ⟨_, htimeout, rfl, hfork _⟩
    · exact ⟨_, hfailure, rfl, hfork _⟩

/-- A handler for timeouts is said never to handle a failure of the network, which it does if the failure is
    one to connect in time. -/
theorem outages_hide_handler : ofProgram outages = .ok ⟨outages.types, outages.callables⟩ ∧
    (outages.types.map (·.id)).Nodup ∧ (outages.types.map (·.name)).Nodup ∧
    outages.Below ⟨3⟩ ⟨1⟩ ∧
    exceptionMatch ⟨outages.types, outages.callables⟩ "NetworkFailure" (some "Timeout") = .never ∧
    outages.Below ⟨3⟩ ⟨2⟩ := by
  have hconnect : ⟨⟨3⟩, "ConnectTimeout", [⟨1⟩, ⟨2⟩]⟩ ∈ outages.types := by decide
  exact ⟨rfl, by decide, by decide, .single ⟨_, hconnect, rfl, by decide⟩, by cbv,
    .single ⟨_, hconnect, rfl, by decide⟩⟩

end Hierarchy

end Slicing
