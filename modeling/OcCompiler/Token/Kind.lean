import OcCompiler.Location
import OcCompiler.Operator
import OcCompiler.ValueType

/-!
Tokens of oc: their kinds, the names and codes under which listings show them, the reserved words, and how
strongly a token binds the operand on its left.
-/

namespace OcCompiler

/-- Reserved words other than the names of types. -/
inductive Keyword where
  | ifWord
  | elseWord
  | whileWord
  | returnWord
  | structWord
  | falseWord
  | trueWord
  | nullWord
  | newWord
  | ordWord
  | chrWord
deriving DecidableEq, Repr, Inhabited

inductive TokenKind where
  | scalar (s : Scalar)
  | keyword (k : Keyword)
  | arrayMark
  | comparison (c : Comparison)
  | name
  | literal (l : Literal)
  | punct (c : Char)
  | endOfFile
deriving DecidableEq, Repr, Inhabited

def Scalar.tokenName : Scalar → String
  | .void => "TOK_VOID"
  | .bool => "TOK_BOOL"
  | .char => "TOK_CHAR"
  | .int => "TOK_INT"
  | .string => "TOK_STRING"

def Scalar.tokenCode : Scalar → Nat
  | .void => 258
  | .bool => 259
  | .char => 260
  | .int => 261
  | .string => 262

namespace Keyword

def tokenName : Keyword → String
  | .ifWord => "TOK_IF"
  | .elseWord => "TOK_ELSE"
  | .whileWord => "TOK_WHILE"
  | .returnWord => "TOK_RETURN"
  | .structWord => "TOK_STRUCT"
  | .falseWord => "TOK_FALSE"
  | .trueWord => "TOK_TRUE"
  | .nullWord => "TOK_NULL"
  | .newWord => "TOK_NEW"
  | .ordWord => "TOK_ORD"
  | .chrWord => "TOK_CHR"

def tokenCode : Keyword → Nat
  | .ifWord => 263
  | .elseWord => 264
  | .whileWord => 265
  | .returnWord => 266
  | .structWord => 267
  | .falseWord => 268
  | .trueWord => 269
  | .nullWord => 270
  | .newWord => 271
  | .ordWord => 292
  | .chrWord => 293

end Keyword

def Comparison.tokenCode : Comparison → Nat
  | .eq => 273
  | .ne => 274
  | .lt => 275
  | .le => 276
  | .gt => 277
  | .ge => 278

def Literal.tokenCode : Literal → Nat
  | .int => 280
  | .char => 281
  | .string => 282

/-- Whether equal operators group to the left or to the right. -/
inductive Associativity where
  | left
  | right
deriving DecidableEq, Repr, Inhabited

/-- How strongly an operator binds. A higher level binds more strongly. -/
structure Binding where
  level : Nat
  associativity : Associativity
deriving DecidableEq, Repr, Inhabited

namespace Binding

def unaryLevel : Nat := 5

def suffixLevel : Nat := 6

def operandLevel (b : Binding) : Nat :=
  match b.associativity with
  | .left => b.level + 1
  | .right => b.level

end Binding

/-- Assignment is weakest and the only operator that groups to the right. All comparisons share one level. -/
def BinaryOp.binding : BinaryOp → Binding
  | .assign => ⟨1, .right⟩
  | .compare _ => ⟨2, .left⟩
  | .arith .add | .arith .sub => ⟨3, .left⟩
  | .arith .mul | .arith .div | .arith .rem => ⟨4, .left⟩

/-- How an expression goes on behind an operand. -/
inductive Continuation where
  | call
  | subscript
  | selection
  | operator (op : BinaryOp)
deriving DecidableEq, Repr, Inhabited

def Continuation.binding : Continuation → Binding
  | .call | .subscript | .selection => ⟨Binding.suffixLevel, .left⟩
  | .operator op => op.binding

namespace TokenKind

def label : TokenKind → String
  | .scalar s => s.tokenName
  | .keyword k => k.tokenName
  | .arrayMark => "TOK_ARRAY"
  | .comparison c => "TOK_" ++ c.text
  | .name => "TOK_IDENT"
  | .literal l => "TOK_" ++ l.text
  | .punct c => "'" ++ c.toString ++ "'"
  | .endOfFile => "$end"

/-- The number of a token. A single character has its own code, all others are counted from 258. -/
def code : TokenKind → Nat
  | .scalar s => s.tokenCode
  | .keyword k => k.tokenCode
  | .arrayMark => 272
  | .comparison c => c.tokenCode
  | .name => 279
  | .literal l => l.tokenCode
  | .punct c => c.toNat
  | .endOfFile => 0

def isScalar : TokenKind → Bool
  | .scalar _ => true
  | _ => false

def binaryOp? : TokenKind → Option BinaryOp
  | .comparison c => some (.compare c)
  | .punct '=' => some .assign
  | .punct '+' => some (.arith .add)
  | .punct '-' => some (.arith .sub)
  | .punct '*' => some (.arith .mul)
  | .punct '/' => some (.arith .div)
  | .punct '%' => some (.arith .rem)
  | _ => none

def continuation? : TokenKind → Option Continuation
  | .punct '(' => some .call
  | .punct '[' => some .subscript
  | .punct '.' => some .selection
  | kind => kind.binaryOp?.map .operator

def binding? (kind : TokenKind) : Option Binding := kind.continuation?.map Continuation.binding

def ofReserved? : String → Option TokenKind
  | "void" => some (.scalar .void)
  | "bool" => some (.scalar .bool)
  | "char" => some (.scalar .char)
  | "int" => some (.scalar .int)
  | "string" => some (.scalar .string)
  | "if" => some (.keyword .ifWord)
  | "else" => some (.keyword .elseWord)
  | "while" => some (.keyword .whileWord)
  | "return" => some (.keyword .returnWord)
  | "struct" => some (.keyword .structWord)
  | "false" => some (.keyword .falseWord)
  | "true" => some (.keyword .trueWord)
  | "null" => some (.keyword .nullWord)
  | "new" => some (.keyword .newWord)
  | "ord" => some (.keyword .ordWord)
  | "chr" => some (.keyword .chrWord)
  | _ => none

end TokenKind

structure Token where
  kind : TokenKind
  lexeme : Lexeme
deriving DecidableEq, Repr, Inhabited

namespace Token

def loc (t : Token) : Location := t.lexeme.loc

def text (t : Token) : String := t.lexeme.text

def atEnd (loc : Location) : Token := ⟨.endOfFile, ⟨"", loc⟩⟩

end Token

end OcCompiler
