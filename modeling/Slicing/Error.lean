import Slicing.Config.Validation
import Slicing.Ident
import Slicing.Json.Decoder

/-!
# Errors

Why an analysis, or a query on its result, is refused. Each error is a cause with
the things it concerns; its text is made in one place (`Error.message`).
-/

namespace Slicing

/-- A call, callable or type that the program does not resolve. -/
inductive ResolutionError where
  /-- No type that a receiver may have declares or inherits the signature. -/
  | noDispatchTarget (site : CallSiteId) (signature : String)
  /-- A call edge names a call site that is not one of its caller. -/
  | callNodeNotFound (site : CallSiteId) (callable : CallableId)
  | unknownCallable (callable : CallableId)
  | unknownType (type : TypeId)
  deriving DecidableEq, Repr

/-- The text of a resolution error. -/
def ResolutionError.message : ResolutionError → String
  | .noDispatchTarget site signature =>
    "call site " ++ site.label ++ " (" ++ signature ++ ") resolves to no dispatch target"
  | .callNodeNotFound site callable =>
    "call site " ++ site.label ++ " not found in callable " ++ callable.label
  | .unknownCallable callable => "unknown callable " ++ callable.label
  | .unknownType type => "unknown type " ++ type.label

/-- A jump out of a loop, or to its next round. -/
inductive LoopJump where
  | breakJump
  | continueJump
  deriving DecidableEq, Repr

/-- What is wrong with the flow graph of a callable. -/
inductive Defect where
  /-- A jump stands outside of what it jumps out of. -/
  | misplacedJump (jump : LoopJump) (node : NodeId)
  | entryHasPredecessors
  | exitUnreachable
  | nodeUnreachable (node : NodeId)
  | exitUnreachableFrom (node : NodeId)
  | noPostDominator (node : NodeId)
  /-- A node controls others but has a single way to go on. -/
  | notABranch (node : NodeId)
  deriving DecidableEq, Repr

/-- The text of a defect. -/
def Defect.message : Defect → String
  | .misplacedJump .breakJump node =>
    "Break at " ++ node.label ++ " has no enclosing loop or switch"
  | .misplacedJump .continueJump node =>
    "Continue at " ++ node.label ++ " has no enclosing loop or switch"
  | .entryHasPredecessors => "entry node has predecessors"
  | .exitUnreachable => "exit not reachable from entry"
  | .nodeUnreachable node => "node " ++ node.label ++ " not reachable from entry"
  | .exitUnreachableFrom node =>
    "node " ++ node.label ++ " cannot reach exit and is not in a flagged loop"
  | .noPostDominator node => "node " ++ node.label ++ " has no post-dominator"
  | .notABranch node => "control dependence source " ++ node.label ++ " is not a branch"

/-- Why a slicing criterion names no point of a program. -/
inductive CriterionError where
  | noNode (node : NodeId)
  | noElement (element : ElementId)
  | emptyLine (line : UInt32)
  | ambiguousLine (line : UInt32) (count : Nat)
  | unrelatedVariable (var : String) (node : NodeId)
  deriving DecidableEq, Repr

/-- The text of a criterion error. -/
def CriterionError.message : CriterionError → String
  | .noNode node => "node " ++ node.label ++ " is not in the SDG"
  | .noElement element => "syntax element " ++ element.label ++ " has no node"
  | .emptyLine line => "no node on line " ++ toString line.toNat
  | .ambiguousLine line count =>
    "line " ++ toString line.toNat ++ " is ambiguous (" ++ toString count ++ " nodes)"
  | .unrelatedVariable var node =>
    "variable " ++ var ++ " is neither read nor written at " ++ node.label

/-- Why an analysis or a query is refused. -/
inductive Error where
  | resolution (cause : ResolutionError)
  /-- The flow graph of a callable is malformed. -/
  | structural (callable : CallableId) (defect : Defect)
  /-- The summaries are still growing after the rounds they are given. -/
  | nontermination (rounds : Nat)
  | criterion (cause : CriterionError)
  | config (cause : ConfigError)
  /-- The text of a program cannot be read. -/
  | input (fault : Json.Fault)
  deriving DecidableEq, Repr

/-- The text of an error. -/
def Error.message : Error → String
  | .resolution cause => "Resolution error: " ++ cause.message
  | .structural callable defect =>
    "Structural invariant violated in callable " ++ callable.label ++ ": " ++ defect.message
  | .nontermination rounds =>
    "Summary-edge fixed point did not converge after " ++ toString rounds ++ " rounds"
  | .criterion cause => "Slicing criterion not found: " ++ cause.message
  | .config cause => "Configuration error: " ++ cause.message
  | .input .malformed => "Input error: malformed text"
  | .input .mismatched => "Input error: unexpected value"

end Slicing
