import Slicing.Program.Basic
import Slicing.Json.Decoder

/-!
# Reading programs

A program is read from its JSON form, in which fields with a default may be
left out and unknown fields are ignored. Which fields have a default is written
in the decoder of each structure: lists are empty, flags are off, arguments are
passed by value and calls are not dispatched.

Calls and statements nest. Their decoders descend at most as deep as the value
they are given (`Json.depth`), which is deep enough for all of it. What stands
inside a tagged object may have numbered tags, so a decoder that is used at both
places is given the form of its tags.
-/

namespace Slicing

open Json (Decoder Record TagForm decodeString decodeBool decodeWord decodeList)

/-- Reads a signature. -/
def Signature.decode : Decoder Signature :=
  Record.decode <| Signature.mk <$> .required "name" decodeString
    <*> .listOf "param_types" decodeString

/-- Reads a type. -/
def TypeDecl.decode : Decoder TypeDecl :=
  Record.decode <| TypeDecl.mk <$> .required "id" Ident.decode
    <*> .required "name" decodeString
    <*> .listOf "supertypes" Ident.decode

/-- Reads a kind of callable. -/
def CallableKind.decode : Decoder CallableKind :=
  decodeWord [("method", .method), ("constructor", .constructor), ("initializer", .initializer)]

/-- Reads a way to hand over an argument. -/
def Passing.decode : Decoder Passing :=
  decodeWord [("by_value", .byValue), ("by_reference", .byReference)]

/-- Reads a parameter. -/
def Param.decode : Decoder Param :=
  Record.decode <| Param.mk <$> .required "name" decodeString
    <*> .defaulted "passing" .byValue Passing.decode

/-! ## Calls -/

/-- Reads a call target. -/
def CallTarget.decode (form : TagForm) : Decoder CallTarget :=
  Json.tagged form "kind" [
    ("declared", CallTarget.declared <$> .required "callable" Ident.decode),
    ("external", CallTarget.external <$> .required "name" decodeString)]

/-- Reads a receiver. -/
def Receiver.decode (form : TagForm) : Decoder Receiver :=
  Json.tagged form "kind" [
    ("implicit", pure .unqualified),
    ("this", Receiver.self <$> .optional "qualifier" Ident.decode),
    ("expr", Receiver.expr <$> .required "static_type" Ident.decode)]

/-- Reads the way a callee is found. -/
def Dispatch.decode (form : TagForm) : Decoder Dispatch :=
  Json.tagged form "kind" [
    ("static", pure .direct),
    ("virtual", Dispatch.virtual <$> .required "receiver" (Receiver.decode .numbered))]

/-- Reads an argument, given how to read the calls it evaluates. -/
def Argument.decodeWith {Call : Type} (call : Decoder Call) : Decoder (Argument Call) :=
  Record.decode <| Argument.mk <$> .required "text" decodeString
    <*> .listOf "uses" decodeString
    <*> .listOf "calls" call
    <*> .optional "var" decodeString

/-- Reads a call that nests at most to a depth. -/
def CallSite.decodeWithin (form : TagForm) : Nat → Decoder CallSite
  | 0 => fun value => .error value.unexpected
  | depth + 1 =>
    Record.decode <| CallSite.mk <$> .required "id" Ident.decode
      <*> .required "text" decodeString
      <*> .required "target" (CallTarget.decode form)
      <*> .defaulted "dispatch" .direct (Dispatch.decode form)
      <*> .listOf "args" (Argument.decodeWith (CallSite.decodeWithin form depth))
      <*> .defaulted "result_used" false decodeBool
      <*> .listOf "throws" decodeString

/-- Reads a call. -/
def CallSite.decode (form : TagForm) : Decoder CallSite := fun value =>
  CallSite.decodeWithin form value.depth value

/-! ## Statements -/

/-- Reads effects, which always stand inside a statement. -/
def Effects.decode : Decoder Effects :=
  Record.decode <| Effects.mk <$> .listOf "defs" decodeString
    <*> .listOf "uses" decodeString
    <*> .listOf "calls" (CallSite.decode .numbered)
    <*> .listOf "throws" decodeString

/-- Reads a case of a `switch`. -/
def SwitchCase.decodeWith {Stmt : Type} (stmt : Decoder Stmt) : Decoder (SwitchCase Stmt) :=
  Record.decode <| SwitchCase.mk <$> .required "id" Ident.decode
    <*> .optional "label" decodeString
    <*> .listOf "body" stmt

/-- Reads a catch clause. -/
def CatchClause.decodeWith {Stmt : Type} (stmt : Decoder Stmt) : Decoder (CatchClause Stmt) :=
  Record.decode <| CatchClause.mk <$> .required "id" Ident.decode
    <*> .optional "exception_type" decodeString
    <*> .required "var" decodeString
    <*> .listOf "body" stmt

/-- The constructs by their tags, each with its fields, given how to read the statements inside it. -/
def Stmt.constructs (stmt : Decoder Stmt) : List (String × Record (Element → Stmt)) := [
  ("simple",
    (fun effects source => .simple source effects) <$> .required "effects" Effects.decode),
  ("if",
    (fun cond thenBranch elseBranch source => .branch source cond thenBranch elseBranch)
      <$> .required "cond" Effects.decode
      <*> .required "then_branch" (decodeList stmt)
      <*> .listOf "else_branch" stmt),
  ("while",
    (fun cond body source => .whileLoop source cond body)
      <$> .required "cond" Effects.decode
      <*> .required "body" (decodeList stmt)),
  ("do_while",
    (fun body cond source => .doWhile source body cond)
      <$> .required "body" (decodeList stmt)
      <*> .required "cond" Effects.decode),
  ("for",
    (fun init cond update body source => .forLoop source init cond update body)
      <$> .listOf "init" stmt
      <*> .optional "cond" Effects.decode
      <*> .listOf "update" stmt
      <*> .required "body" (decodeList stmt)),
  ("for_each",
    (fun var iterable body source => .forEach source var iterable body)
      <$> .required "var" decodeString
      <*> .required "iterable" Effects.decode
      <*> .required "body" (decodeList stmt)),
  ("switch",
    (fun selector cases source => .select source selector cases)
      <$> .required "selector" Effects.decode
      <*> .required "cases" (decodeList (SwitchCase.decodeWith stmt))),
  ("break", pure .breakJump),
  ("continue", pure .continueJump),
  ("return",
    (fun value source => .returnJump source value) <$> .optional "value" Effects.decode),
  ("throw",
    (fun exceptionType value source => .throwJump source exceptionType value)
      <$> .required "exception_type" decodeString
      <*> .required "value" Effects.decode),
  ("try",
    (fun body catches finalizer source => .tryBlock source body catches finalizer)
      <$> .required "body" (decodeList stmt)
      <*> .listOf "catches" (CatchClause.decodeWith stmt)
      <*> .optional "finally" (decodeList stmt)),
  ("block",
    (fun body source => .block source body) <$> .required "body" (decodeList stmt))]

/-- Reads a statement that nests at most to a depth. -/
def Stmt.decodeWithin (form : TagForm) : Nat → Decoder Stmt
  | 0 => fun value => .error value.unexpected
  | depth + 1 =>
    Record.decode <|
      (fun id text span (construct : Element → Stmt) => construct ⟨id, text, span⟩)
        <$> .required "id" Ident.decode
        <*> .required "text" decodeString
        <*> .optional "span" Span.decode
        <*> .required "kind"
          (Json.tagged form "type" (Stmt.constructs (Stmt.decodeWithin .numbered depth)))

/-- Reads a statement. -/
def Stmt.decode : Decoder Stmt := fun value => Stmt.decodeWithin .named value.depth value

/-! ## Programs -/

/-- Reads a callable. -/
def CallableDecl.decode : Decoder CallableDecl :=
  Record.decode <| CallableDecl.mk <$> .required "id" Ident.decode
    <*> .required "name" decodeString
    <*> .required "kind" CallableKind.decode
    <*> .required "owner" Ident.decode
    <*> .required "signature" Signature.decode
    <*> .defaulted "is_static" false decodeBool
    <*> .listOf "params" Param.decode
    <*> .defaulted "returns_value" false decodeBool
    <*> .optional "body" (decodeList Stmt.decode)
    <*> .optional "span" Span.decode

/-- Reads a program. -/
def Program.decode : Decoder Program :=
  Record.decode <| Program.mk <$> .listOf "types" TypeDecl.decode
    <*> .listOf "callables" CallableDecl.decode

/-- The program written in a text. -/
def Program.parse (text : String) : Except Json.Fault Program :=
  (Json.read text).decode Program.decode

end Slicing
