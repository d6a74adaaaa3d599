import Slicing.Program.Basic
import Slicing.Json.Printer

/-!
# The JSON form of a program

Every field is written, in a fixed order, also one that has its default; what is
absent is `null`. A choice is an object with a tag, written first: `kind` for
targets, dispatch and receivers, `type` for statements.
-/

namespace Slicing

open Json (ofList ofOption)

/-- A list of strings. -/
def Json.strings (items : List String) : Json := ofList .str items

/-- The JSON form of a signature. -/
def Signature.toJson (signature : Signature) : Json :=
  .obj [("name", .str signature.name), ("param_types", .strings signature.paramTypes)]

/-- The JSON form of a type. -/
def TypeDecl.toJson (decl : TypeDecl) : Json :=
  .obj [("id", decl.id.toJson), ("name", .str decl.name),
    ("supertypes", ofList Ident.toJson decl.supertypes)]

/-- The word for a kind of callable. -/
def CallableKind.word : CallableKind → String
  | .method => "method"
  | .constructor => "constructor"
  | .initializer => "initializer"

/-- The word for a way to hand over an argument. -/
def Passing.word : Passing → String
  | .byValue => "by_value"
  | .byReference => "by_reference"

/-- The JSON form of a parameter. -/
def Param.toJson (param : Param) : Json :=
  .obj [("name", .str param.name), ("passing", .str param.passing.word)]

/-! ## Calls -/

/-- The JSON form of a call target. -/
def CallTarget.toJson : CallTarget → Json
  | .declared callable => .obj [("kind", .str "declared"), ("callable", callable.toJson)]
  | .external name => .obj [("kind", .str "external"), ("name", .str name)]

/-- The JSON form of a receiver. -/
def Receiver.toJson : Receiver → Json
  | .unqualified => .obj [("kind", .str "implicit")]
  | .self qualifier =>
    .obj [("kind", .str "this"), ("qualifier", ofOption Ident.toJson qualifier)]
  | .expr staticType => .obj [("kind", .str "expr"), ("static_type", staticType.toJson)]

/-- The JSON form of the way a callee is found. -/
def Dispatch.toJson : Dispatch → Json
  | .direct => .obj [("kind", .str "static")]
  | .virtual receiver => .obj [("kind", .str "virtual"), ("receiver", receiver.toJson)]

mutual

/-- The JSON form of a call. -/
def CallSite.toJson : CallSite → Json
  | ⟨id, text, target, dispatch, args, resultUsed, throws⟩ =>
    .obj [("id", id.toJson), ("text", .str text), ("target", target.toJson),
      ("dispatch", dispatch.toJson), ("args", .arr (CallSite.argsToJson args)),
      ("result_used", .bool resultUsed), ("throws", .strings throws)]

/-- The JSON forms of the arguments of a call. -/
def CallSite.argsToJson : List (Argument CallSite) → List Json
  | [] => []
  | ⟨text, uses, calls, var⟩ :: args =>
    .obj [("text", .str text), ("uses", .strings uses), ("calls", .arr (CallSite.listToJson calls)),
      ("var", ofOption .str var)] :: CallSite.argsToJson args

/-- The JSON forms of some calls. -/
def CallSite.listToJson : List CallSite → List Json
  | [] => []
  | site :: sites => site.toJson :: CallSite.listToJson sites

end

/-- The JSON form of an argument. -/
def Argument.toJson (arg : Argument CallSite) : Json :=
  .obj [("text", .str arg.text), ("uses", .strings arg.uses),
    ("calls", .arr (CallSite.listToJson arg.calls)), ("var", ofOption .str arg.var)]

/-! ## Statements -/

/-- The JSON form of effects. -/
def Effects.toJson (effects : Effects) : Json :=
  .obj [("defs", .strings effects.defs), ("uses", .strings effects.uses),
    ("calls", .arr (CallSite.listToJson effects.calls)), ("throws", .strings effects.throws)]

/-- The JSON form of a statement, given that of its construct. -/
def Element.toJson (source : Element) (construct : List (String × Json)) : Json :=
  .obj [("id", source.id.toJson), ("text", .str source.text),
    ("span", ofOption Span.toJson source.span), ("kind", .obj construct)]

mutual

/-- The JSON form of a statement. -/
def Stmt.toJson : Stmt → Json
  | .simple source effects =>
    source.toJson [("type", .str "simple"), ("effects", effects.toJson)]
  | .branch source cond thenBranch elseBranch =>
    source.toJson [("type", .str "if"), ("cond", cond.toJson),
      ("then_branch", .arr (Stmt.listToJson thenBranch)),
      ("else_branch", .arr (Stmt.listToJson elseBranch))]
  | .whileLoop source cond body =>
    source.toJson [("type", .str "while"), ("cond", cond.toJson),
      ("body", .arr (Stmt.listToJson body))]
  | .doWhile source body cond =>
    source.toJson [("type", .str "do_while"), ("body", .arr (Stmt.listToJson body)),
      ("cond", cond.toJson)]
  | .forLoop source init cond update body =>
    source.toJson [("type", .str "for"), ("init", .arr (Stmt.listToJson init)),
      ("cond", ofOption Effects.toJson cond), ("update", .arr (Stmt.listToJson update)),
      ("body", .arr (Stmt.listToJson body))]
  | .forEach source var iterable body =>
    source.toJson [("type", .str "for_each"), ("var", .str var), ("iterable", iterable.toJson),
      ("body", .arr (Stmt.listToJson body))]
  | .select source selector cases =>
    source.toJson [("type", .str "switch"), ("selector", selector.toJson),
      ("cases", .arr (Stmt.casesToJson cases))]
  | .breakJump source => source.toJson [("type", .str "break")]
  | .continueJump source => source.toJson [("type", .str "continue")]
  | .returnJump source value =>
    source.toJson [("type", .str "return"), ("value", ofOption Effects.toJson value)]
  | .throwJump source exceptionType value =>
    source.toJson [("type", .str "throw"), ("exception_type", .str exceptionType),
      ("value", value.toJson)]
  | .tryBlock source body catches finalizer =>
    source.toJson [("type", .str "try"), ("body", .arr (Stmt.listToJson body)),
      ("catches", .arr (Stmt.catchesToJson catches)), ("finally", Stmt.optionToJson finalizer)]
  | .block source body =>
    source.toJson [("type", .str "block"), ("body", .arr (Stmt.listToJson body))]

/-- The JSON forms of the statements of a block. -/
def Stmt.listToJson : List Stmt → List Json
  | [] => []
  | stmt :: stmts => stmt.toJson :: Stmt.listToJson stmts

/-- The JSON form of a block that may be absent. -/
def Stmt.optionToJson : Option (List Stmt) → Json
  | none => .null
  | some body => .arr (Stmt.listToJson body)

/-- The JSON forms of the cases of a `switch`. -/
def Stmt.casesToJson : List (SwitchCase Stmt) → List Json
  | [] => []
  | ⟨id, label, body⟩ :: cases =>
    .obj [("id", id.toJson), ("label", ofOption .str label),
      ("body", .arr (Stmt.listToJson body))] :: Stmt.casesToJson cases

/-- The JSON forms of catch clauses. -/
def Stmt.catchesToJson : List (CatchClause Stmt) → List Json
  | [] => []
  | ⟨id, exceptionType, var, body⟩ :: catches =>
    .obj [("id", id.toJson), ("exception_type", ofOption .str exceptionType), ("var", .str var),
      ("body", .arr (Stmt.listToJson body))] :: Stmt.catchesToJson catches

end

/-! ## Programs -/

/-- The JSON form of a callable. -/
def CallableDecl.toJson (decl : CallableDecl) : Json :=
  .obj [("id", decl.id.toJson), ("name", .str decl.name), ("kind", .str decl.kind.word),
    ("owner", decl.owner.toJson), ("signature", decl.signature.toJson),
    ("is_static", .bool decl.isStatic), ("params", ofList Param.toJson decl.params),
    ("returns_value", .bool decl.returnsValue), ("body", Stmt.optionToJson decl.body),
    ("span", ofOption Span.toJson decl.span)]

/-- The JSON form of a program. -/
def Program.toJson (program : Program) : Json :=
  .obj [("types", ofList TypeDecl.toJson program.types),
    ("callables", ofList CallableDecl.toJson program.callables)]

/-- The text of a program. -/
def Program.render (program : Program) : String := program.toJson.pretty

end Slicing
