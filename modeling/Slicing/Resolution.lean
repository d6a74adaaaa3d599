import Slicing.Hierarchy

/-!
# Call resolution

Which callables a call site may reach. A call that is not dispatched, or whose
declared target takes no part in dispatch (a constructor, an initializer, a
static method), reaches just its target. A virtual call reaches whatever method
an object runs for the signature of the target, for every type that the
receiver may have: the *root* of the dispatch or a type below it.
-/

namespace Slicing.Hierarchy

/-- The type that the receiver of a virtual call is known to have. Where none is
    written, it is the type around the caller, unless that is unrelated to the
    one that declares the target. -/
def dispatchRoot (h : Hierarchy) (caller callee : CallableDecl) : Receiver → TypeId
  | .expr staticType => staticType
  | .self (some qualifier) => qualifier
  | .unqualified | .self none =>
    if h.isSubtype caller.owner callee.owner then caller.owner else callee.owner

/-- The methods that objects below a type run for a signature. -/
def dispatchTargets (h : Hierarchy) (root : TypeId) (signature : Signature) : List CallableId :=
  ascending Ident.rank ((h.subtypesOf root).filterMap (h.findMethod? · signature))

/-- The callables that a call site may reach when it is run by a caller. Code
    without a declaration is nowhere to be reached. -/
def resolve (h : Hierarchy) (caller : CallableDecl) (site : CallSite) :
    Except ResolutionError (List CallableId) :=
  match site.target with
  | .external _ => .ok []
  | .declared target =>
    match h.callable? target with
    | none => .error (.unknownCallable target)
    | some callee =>
      match site.dispatch, callee.isDispatched with
      | .virtual receiver, true =>
        let root := h.dispatchRoot caller callee receiver
        if (h.type? root).isNone then .error (.unknownType root)
        else match h.dispatchTargets root callee.signature with
          | [] => .error (.noDispatchTarget site.id callee.signature.label)
          | targets => .ok targets
      | _, _ => .ok [target]

end Slicing.Hierarchy
