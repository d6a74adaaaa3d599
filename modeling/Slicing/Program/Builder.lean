import Slicing.Program.Basic

/-!
# Building programs

A program put together step by step, with the numbers handed out on the way:
types, callables, call sites and source elements each count from zero. Every
statement stands on a line of its own, in the order of construction, starting
with line one.
-/

namespace Slicing

/-- A program under construction. -/
structure Builder where
  program : Program := ⟨[], []⟩
  nextElement : Nat := 0
  nextCall : Nat := 0
  /-- The line of the latest statement. -/
  line : Nat := 0

/-- A step of building a program. -/
abbrev Build := StateM Builder

namespace Builder

/-- The type of the parameters in the signatures of a built program. -/
def paramType : String := "Object"

/-! ## Declarations -/

/-- Declares a type. -/
def addType (name : String) (supertypes : List TypeId) : Build TypeId := do
  let b ← get
  let id : TypeId := ⟨.ofNat b.program.types.length⟩
  set { b with program.types := b.program.types ++ [TypeDecl.mk id name supertypes] }
  return id

/-- Declares a callable without a body, whose parameters are passed by value. -/
def addCallable (owner : TypeId) (name : String) (kind : CallableKind) (isStatic : Bool)
    (params : List String) : Build CallableId := do
  let b ← get
  let id : CallableId := ⟨.ofNat b.program.callables.length⟩
  let decl : CallableDecl := {
    id, name, kind, owner, isStatic
    signature := ⟨name, params.map fun _ => paramType⟩
    params := params.map (⟨·, .byValue⟩)
    returnsValue := false
    body := none
    span := none }
  set { b with program.callables := b.program.callables ++ [decl] }
  return id

/-- Declares an instance method. -/
def addMethod (owner : TypeId) (name : String) (params : List String) : Build CallableId :=
  addCallable owner name .method false params

/-- Declares a static method. -/
def addStaticMethod (owner : TypeId) (name : String) (params : List String) :
    Build CallableId :=
  addCallable owner name .method true params

/-- Declares a constructor. -/
def addConstructor (owner : TypeId) (params : List String) : Build CallableId :=
  addCallable owner "<init>" .constructor false params

/-- Declares a static initializer or one of the fields. -/
def addInitializer (owner : TypeId) (isStatic : Bool) : Build CallableId :=
  addCallable owner (if isStatic then "<clinit>" else "<finit>") .initializer isStatic []

/-- Changes the declaration of a callable. -/
def modifyCallable (id : CallableId) (f : CallableDecl → CallableDecl) : Build Unit :=
  modify fun b => { b with program.callables := b.program.callables.modify id.rank f }

/-- A callable returns a value. -/
def setReturnsValue (id : CallableId) : Build Unit :=
  modifyCallable id fun decl => { decl with returnsValue := true }

/-- A parameter is passed by reference. -/
def setByReference (id : CallableId) (position : Nat) : Build Unit :=
  modifyCallable id fun decl =>
    { decl with params := decl.params.modify position fun p => { p with passing := .byReference } }

/-- Gives a callable a body. -/
def setBody (id : CallableId) (body : List Stmt) : Build Unit :=
  modifyCallable id fun decl => { decl with body := some body }

/-! ## Statements -/

/-- The next source element. -/
def newElement : Build ElementId := do
  let b ← get
  set { b with nextElement := b.nextElement + 1 }
  return ⟨.ofNat b.nextElement⟩

/-- The source of the next statement, on a line of its own. -/
def newSource (text : String) : Build Element := do
  modify fun b => { b with line := b.line + 1 }
  let line := UInt32.ofNat (← get).line
  return ⟨← newElement, text, some ⟨line, 0, line, 0⟩⟩

/-- A statement with a source of its own. -/
def newStmt (text : String) (construct : Element → Stmt) : Build Stmt :=
  construct <$> newSource text

/-- A statement that writes one variable. -/
def newAssignment (text var : String) (uses : List String) : Build Stmt :=
  newStmt text (.simple · ⟨[var], uses, [], []⟩)

/-- A case of a `switch`. -/
def newCase (label : Option String) (body : List Stmt) : Build (SwitchCase Stmt) := do
  return ⟨← newElement, label, body⟩

/-- A catch clause. -/
def newCatch (exceptionType : Option String) (var : String) (body : List Stmt) :
    Build (CatchClause Stmt) := do
  return ⟨← newElement, exceptionType, var, body⟩

/-! ## Calls -/

/-- A call whose result is used. -/
def newCall (text : String) (target : CallTarget) (dispatch : Dispatch)
    (args : List (Argument CallSite)) : Build CallSite := do
  let b ← get
  set { b with nextCall := b.nextCall + 1 }
  return ⟨⟨.ofNat b.nextCall⟩, text, target, dispatch, args, true, []⟩

end Builder

end Slicing
