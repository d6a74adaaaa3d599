import Slicing.Ident
import Slicing.Span

/-!
# Programs

The input of the analysis: a program as a front end resolves it. Types come
with their supertypes, callables with structured bodies, and every construct
with the variables it reads and writes, the calls it evaluates and the
exceptions it may raise.

A call is nested: its arguments evaluate calls themselves. A statement
(`Stmt`) carries its source (`Element`) and is one of the constructs of a
structured language; blocks of statements are lists.
-/

namespace Slicing

/-! ## Declarations -/

/-- A name with parameter types; overriding declarations share a signature. -/
structure Signature where
  name : String
  paramTypes : List String
  deriving DecidableEq, Repr

/-- A signature as messages show it. -/
def Signature.label (signature : Signature) : String :=
  signature.name ++ "(" ++ ", ".intercalate signature.paramTypes ++ ")"

/-- A declared class or interface. -/
structure TypeDecl where
  id : TypeId
  name : String
  supertypes : List TypeId
  deriving DecidableEq, Repr

/-- The kinds of callables. -/
inductive CallableKind where
  | method
  | constructor
  /-- A field or static initializer, whose body is put together by the front end. -/
  | initializer
  deriving DecidableEq, Repr

/-- How an argument is handed over. -/
inductive Passing where
  | byValue
  /-- What the callee writes is visible in the variable of the caller. -/
  | byReference
  deriving DecidableEq, Repr

/-- A parameter. -/
structure Param where
  name : String
  passing : Passing
  deriving DecidableEq, Repr

/-! ## Calls -/

/-- What a call names. -/
inductive CallTarget where
  /-- A declaration of the program; virtual dispatch starts from it. -/
  | declared (callable : CallableId)
  /-- Library code without a declaration. -/
  | external (name : String)
  deriving DecidableEq, Repr

/-- The object that a virtual call is sent to. -/
inductive Receiver where
  /-- None is written: the object of the caller. -/
  | unqualified
  /-- The object of the caller, or of a type around it. -/
  | self (qualifier : Option TypeId)
  /-- An expression of a static type. -/
  | expr (staticType : TypeId)
  deriving DecidableEq, Repr

/-- How the callee of a call is found. -/
inductive Dispatch where
  /-- It is the callable that the call names. -/
  | direct
  /-- It depends on the type of the receiver at run time. -/
  | virtual (receiver : Receiver)
  deriving DecidableEq, Repr

/-- An argument of a call, whose evaluation may take calls itself. -/
structure Argument (Call : Type) where
  text : String
  uses : List String
  calls : List Call
  /-- The variable that the argument is, if it is just one. -/
  var : Option String

/-- A call expression. -/
structure CallSite where
  id : CallSiteId
  text : String
  target : CallTarget
  dispatch : Dispatch
  args : List (Argument CallSite)
  /-- The value of the call flows into the construct around it. -/
  resultUsed : Bool
  throws : List String

/-- The variable that holds the result of a call. -/
def resultVar (id : CallSiteId) : String := "$call" ++ toString id.rank

/-- The variable that a `return` with a value writes. -/
def returnVar : String := "$ret"

/-- The declaration that a call names. -/
def CallSite.declaredTarget? (site : CallSite) : Option CallableId :=
  match site.target with
  | .declared callable => some callable
  | .external _ => none

namespace Argument

variable {Call : Type}

/-- An argument that is a variable. -/
def ofVar (name : String) : Argument Call := ⟨name, [name], [], some name⟩

/-- An argument that is an expression over some variables. -/
def ofExpr (text : String) (uses : List String) : Argument Call := ⟨text, uses, [], none⟩

/-- An argument that is the result of a call. -/
def ofCall (site : CallSite) : Argument CallSite := ⟨site.text, [], [site], none⟩

end Argument

/-! ## Statements -/

/-- What a construct reads, writes, calls and raises itself. -/
structure Effects where
  defs : List String
  uses : List String
  calls : List CallSite
  throws : List String

/-- No effects. -/
def Effects.none : Effects := ⟨[], [], [], []⟩

/-- The source of a statement. -/
structure Element where
  id : ElementId
  text : String
  span : Option Span
  deriving DecidableEq, Repr

/-- A case of a `switch`; the one without a label is the default. -/
structure SwitchCase (Stmt : Type) where
  id : ElementId
  label : Option String
  body : List Stmt

/-- A catch clause; the one without a type catches everything. -/
structure CatchClause (Stmt : Type) where
  id : ElementId
  exceptionType : Option String
  var : String
  body : List Stmt

/-- A statement. -/
inductive Stmt where
  | simple (source : Element) (effects : Effects)
  | branch (source : Element) (cond : Effects) (thenBranch elseBranch : List Stmt)
  | whileLoop (source : Element) (cond : Effects) (body : List Stmt)
  | doWhile (source : Element) (body : List Stmt) (cond : Effects)
  /-- A counting loop; without a condition it goes on forever. -/
  | forLoop (source : Element) (init : List Stmt) (cond : Option Effects)
      (update body : List Stmt)
  | forEach (source : Element) (var : String) (iterable : Effects) (body : List Stmt)
  | select (source : Element) (selector : Effects) (cases : List (SwitchCase Stmt))
  | breakJump (source : Element)
  | continueJump (source : Element)
  | returnJump (source : Element) (value : Option Effects)
  | throwJump (source : Element) (exceptionType : String) (value : Effects)
  | tryBlock (source : Element) (body : List Stmt) (catches : List (CatchClause Stmt))
      (finalizer : Option (List Stmt))
  | block (source : Element) (body : List Stmt)

/-- The source of a statement. -/
def Stmt.source : Stmt → Element
  | .simple source .. | .branch source .. | .whileLoop source .. | .doWhile source ..
  | .forLoop source .. | .forEach source .. | .select source .. | .breakJump source
  | .continueJump source | .returnJump source .. | .throwJump source .. | .tryBlock source ..
  | .block source .. => source

/-! ## Programs -/

/-- A declared method, constructor or initializer. -/
structure CallableDecl where
  id : CallableId
  name : String
  kind : CallableKind
  owner : TypeId
  signature : Signature
  isStatic : Bool
  params : List Param
  returnsValue : Bool
  /-- The statements, absent for abstract and native declarations. -/
  body : Option (List Stmt)
  span : Option Span

/-- A callable has a body. -/
def CallableDecl.hasBody (decl : CallableDecl) : Bool := decl.body.isSome

/-- A whole program. -/
structure Program where
  types : List TypeDecl
  callables : List CallableDecl

namespace Program

/-- The first declaration of a callable. -/
def callable? (program : Program) (id : CallableId) : Option CallableDecl :=
  program.callables.find? (·.id == id)

/-- The first declaration of a type. -/
def type? (program : Program) (id : TypeId) : Option TypeDecl :=
  program.types.find? (·.id == id)

end Program

end Slicing
