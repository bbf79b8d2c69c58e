/-!
The operators and constants of oc, as they stand in source text, in the tree and in messages.
-/

namespace OcCompiler

inductive Comparison where
  | eq
  | ne
  | lt
  | le
  | gt
  | ge
deriving DecidableEq, Repr, Inhabited

def Comparison.text : Comparison → String
  | .eq => "EQ"
  | .ne => "NE"
  | .lt => "LT"
  | .le => "LE"
  | .gt => "GT"
  | .ge => "GE"

def Comparison.isEquality : Comparison → Bool
  | .eq | .ne => true
  | _ => false

inductive Arithmetic where
  | add
  | sub
  | mul
  | div
  | rem
deriving DecidableEq, Repr, Inhabited

def Arithmetic.text : Arithmetic → String
  | .add => "'+'"
  | .sub => "'-'"
  | .mul => "'*'"
  | .div => "'/'"
  | .rem => "'%'"

inductive BinaryOp where
  | assign
  | compare (c : Comparison)
  | arith (a : Arithmetic)
deriving DecidableEq, Repr, Inhabited

def BinaryOp.text : BinaryOp → String
  | .assign => "'='"
  | .compare c => c.text
  | .arith a => a.text

inductive UnaryOp where
  | pos
  | neg
  | not
  | ord
  | chr
deriving DecidableEq, Repr, Inhabited

def UnaryOp.text : UnaryOp → String
  | .pos => "POS"
  | .neg => "NEG"
  | .not => "'!'"
  | .ord => "ORD"
  | .chr => "CHR"

/-- Constants that are spelled out. -/
inductive Literal where
  | int
  | char
  | string
deriving DecidableEq, Repr, Inhabited

def Literal.text : Literal → String
  | .int => "INTCON"
  | .char => "CHARCON"
  | .string => "STRINGCON"

inductive Constant where
  | literal (l : Literal)
  | truth (value : Bool)
  | null
deriving DecidableEq, Repr, Inhabited

def Constant.text : Constant → String
  | .literal l => l.text
  | .truth false => "FALSE"
  | .truth true => "TRUE"
  | .null => "NULL"

end OcCompiler
