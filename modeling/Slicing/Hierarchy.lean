import Slicing.Ascending
import Slicing.Digraph
import Slicing.Error
import Slicing.Program.Basic

/-!
# Type hierarchies

What the later stages ask of the declarations of a program: which types are
below and above a type, which method a type declares or inherits for a signature,
and whether a handler for one exception type handles another.

Types may have several supertypes, and malformed programs may have cyclic
ones. Of several declarations with one number the last one counts, except that
each of them makes its type a subtype of the supertypes it names.

* `supertypesOf` lists a type and what is above it, nearest first;
* `subtypesOf` lists a type and what is below it, in ascending order;
* `findMethod?` is the method that an object of a type runs for a signature.
-/

namespace Slicing

/-- An instance method, which takes part in virtual dispatch. -/
def CallableDecl.isDispatched (decl : CallableDecl) : Bool :=
  decl.kind == .method && !decl.isStatic

/-- How the parameters are passed. -/
def CallableDecl.passing (decl : CallableDecl) : List Passing := decl.params.map (·.passing)

/-- A parameter is passed by reference. -/
def CallableDecl.isByReference (decl : CallableDecl) (position : Nat) : Bool :=
  decl.passing[position]? == some .byReference

/-- Whether a handler handles an exception. -/
inductive ExceptionMatch where
  /-- Always. -/
  | definite
  /-- It depends on the type of the exception at run time. -/
  | possible
  /-- Never. -/
  | never
  deriving DecidableEq, Repr

/-- The declarations of a program whose types are all declared. -/
structure Hierarchy where
  types : List TypeDecl
  callables : List CallableDecl

namespace Hierarchy

/-! ## Declarations -/

/-- The declaration of a type. -/
def type? (h : Hierarchy) (t : TypeId) : Option TypeDecl :=
  h.types.reverse.find? (·.id == t)

/-- The type with a name. -/
def typeByName? (h : Hierarchy) (name : String) : Option TypeId :=
  (h.types.reverse.find? (·.name == name)).map (·.id)

/-- The declared types, each once. -/
def typeIds (h : Hierarchy) : List TypeId := (h.types.map (·.id)).eraseDups

/-- The declaration of a callable. -/
def callable? (h : Hierarchy) (c : CallableId) : Option CallableDecl :=
  h.callables.reverse.find? (·.id == c)

/-- The declared callables in ascending order. -/
def callableIds (h : Hierarchy) : List CallableId :=
  ascending Ident.rank (h.callables.map (·.id))

/-- The first type that a program refers to, as a supertype or else as the owner
    of a callable, without declaring it. -/
def undeclared? (program : Program) : Option TypeId :=
  (program.types.flatMap (·.supertypes) ++ program.callables.map (·.owner)).find? fun t =>
    !program.types.any (·.id == t)

/-- The hierarchy of a program. -/
def ofProgram (program : Program) : Except ResolutionError Hierarchy :=
  match undeclared? program with
  | some t => .error (.unknownType t)
  | none => .ok ⟨program.types, program.callables⟩

/-! ## Subtypes -/

/-- The supertypes that a type names. -/
def directSupertypes (h : Hierarchy) (t : TypeId) : List TypeId :=
  match h.type? t with
  | some decl => decl.supertypes
  | none => []

/-- The types that name a type as a supertype. -/
def directSubtypes (h : Hierarchy) (t : TypeId) : List TypeId :=
  (h.types.filter (·.supertypes.contains t)).map (·.id)

/-- A type and the types above it, nearest first. -/
def supertypesOf (h : Hierarchy) (t : TypeId) : List TypeId :=
  Digraph.reach ⟨h.typeIds, h.directSupertypes⟩ t

/-- A type and the types below it, in ascending order. -/
def subtypesOf (h : Hierarchy) (t : TypeId) : List TypeId :=
  ascending Ident.rank (Digraph.reach ⟨h.typeIds, h.directSubtypes⟩ t)

/-- A type is another one or below it. -/
def isSubtype (h : Hierarchy) (sub sup : TypeId) : Bool := (h.supertypesOf sub).contains sup

/-! ## Methods -/

/-- The callables that a type declares, in order. -/
def members (h : Hierarchy) (t : TypeId) : List CallableId :=
  (h.callables.filter (·.owner == t)).map (·.id)

/-- A callable is a method with a signature. -/
def isMethodWith (h : Hierarchy) (signature : Signature) (c : CallableId) : Bool :=
  match h.callable? c with
  | some decl => decl.kind == .method && decl.signature == signature
  | none => false

/-- The first method with a signature that a type declares itself. -/
def declaredMethod? (h : Hierarchy) (t : TypeId) (signature : Signature) : Option CallableId :=
  (h.members t).find? (h.isMethodWith signature)

/-- The method with a signature that a type declares or inherits. -/
def findMethod? (h : Hierarchy) (t : TypeId) (signature : Signature) : Option CallableId :=
  (h.supertypesOf t).findSome? (h.declaredMethod? · signature)

/-! ## Exceptions -/

/-- Whether a handler for a type, or for everything, handles an exception of
    another type. Types that the program does not declare may be related to
    any other. -/
def exceptionMatch (h : Hierarchy) (thrown : String) (caught : Option String) : ExceptionMatch :=
  match caught with
  | none => .definite
  | some caught =>
    if thrown = caught then .definite
    else match h.typeByName? thrown, h.typeByName? caught with
      | some t, some c =>
        if h.isSubtype t c then .definite
        else if h.isSubtype c t then .possible
        else .never
      | _, _ => .possible

end Hierarchy

end Slicing
