import OcCompiler.Location

/-!
Diagnostics: what is wrong with a program, about which name, and where. A log keeps them in the order in which
they were found.
-/

namespace OcCompiler

/-- What can be wrong with the text before it is read as tokens. -/
inductive LexicalCause where
  | badCharacter
  | badToken
  | badDirective
deriving DecidableEq, Repr, Inhabited

def LexicalCause.message : LexicalCause → String
  | .badCharacter => "invalid source character"
  | .badToken => "invalid token"
  | .badDirective => "invalid directive"

/-- What can be wrong with a program that has the right form. Types are given as they are shown. -/
inductive SemanticCause where
  | redeclared
  | undeclared
  | incomplete
  | prototypeMismatch
  | declaresVoid (found : String)
  | mismatch (expected found : String)
  | missingReturn (expected : String)
  | valueFromVoid
  | extraArgument (found : String)
  | missingArgument (expected : String)
  | notIndexable (found : String)
  | notSelectable (found : String)
  | unknownField (found : String)
  | notCallable
  | notLvalue (found : String)
deriving DecidableEq, Repr, Inhabited

def SemanticCause.message : SemanticCause → String
  | .redeclared => "identifier previously declared"
  | .undeclared => "reference to undeclared identifier"
  | .incomplete => "reference to incomplete type"
  | .prototypeMismatch => "declared function differs from prototype"
  | .declaresVoid found => "declares identifier of type " ++ found
  | .mismatch expected found => "expects type " ++ expected ++ " but operand is of type " ++ found
  | .missingReturn expected => "expects return type " ++ expected ++ ", but is missing return statement"
  | .valueFromVoid => "returns non-void value from void function"
  | .extraArgument found => "call has extra argument of type " ++ found
  | .missingArgument expected => "call missing argument of type " ++ expected
  | .notIndexable found => "passed non-indexable type " ++ found
  | .notSelectable found => "passed non-selectable type " ++ found
  | .unknownField found => "selects unknown field from " ++ found
  | .notCallable => "is not a function"
  | .notLvalue found => "assigns to non-lvalue of type " ++ found

inductive Cause where
  | lexical (c : LexicalCause)
  | semantic (c : SemanticCause)
  | worded (message : String)
deriving DecidableEq, Repr, Inhabited

def Cause.message : Cause → String
  | .lexical c => c.message
  | .semantic c => c.message
  | .worded message => message

structure Diagnostic where
  cause : Cause
  name : String
  loc : Location
deriving DecidableEq, Repr, Inhabited

def Diagnostic.text (d : Diagnostic) : String :=
  d.cause.message ++ ": " ++ d.name ++ " (" ++ d.loc.text ++ ")"

def SemanticCause.about (c : SemanticCause) (lexeme : Lexeme) : Diagnostic :=
  ⟨.semantic c, lexeme.text, lexeme.loc⟩

/-- The diagnostics found so far, oldest first. -/
abbrev Log := Array Diagnostic

namespace Log

def programName : String := "occ"

def render (context : String) (log : Log) : String :=
  String.join (log.toList.map fun d => context ++ ": " ++ d.text ++ "\n")

end Log

end OcCompiler
