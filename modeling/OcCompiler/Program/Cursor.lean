import OcCompiler.Token.Kind

/-!
Cursors into a token list, and how reading fails. What is read at a cursor is decided by the kind of the token there. A
list without an end-of-file token is read as if its last token stood there again.
-/

namespace OcCompiler

structure Cursor where
  ahead : List Token
  last : Token
  again : Nat
deriving DecidableEq, Repr, Inhabited

namespace Cursor

def ofTokens (tokens : List Token) : Cursor :=
  ⟨tokens, tokens.getLast?.getD (.atEnd {}), tokens.length + 1⟩

def size (c : Cursor) : Nat := c.ahead.length + c.again

def current (c : Cursor) : Token :=
  match c.ahead, c.again with
  | t :: _, _ => t
  | [], 0 => .atEnd c.last.loc
  | [], _ + 1 => c.last

def kind (c : Cursor) : TokenKind := c.current.kind

def nextKind (c : Cursor) : TokenKind :=
  match c.ahead with
  | _ :: t :: _ => t.kind
  | _ => .endOfFile

abbrev Shorter (c : Cursor) : Type := { r : Cursor // r.size < c.size }

def within {c r : Cursor} (near : r.size < c.size) (rest : r.Shorter) : c.Shorter :=
  ⟨rest.1, Nat.lt_trans rest.2 near⟩

def next? (c : Cursor) : Option (Token × c.Shorter) :=
  match c with
  | ⟨t :: ts, last, again⟩ => some (t, ⟨⟨ts, last, again⟩, by simp only [size, List.length_cons]; omega⟩)
  | ⟨[], last, again + 1⟩ => some (last, ⟨⟨[], last, again⟩, by simp only [size]; omega⟩)
  | ⟨[], _, 0⟩ => none

def accept? (c : Cursor) (kind : TokenKind) : Option (Token × c.Shorter) :=
  c.next?.filter fun found => found.1.kind == kind

/-- Whether a declaration starts here: a type named by a keyword, or a struct name before a name or an array mark. -/
def startsDecl (c : Cursor) : Bool :=
  c.kind.isScalar || (c.kind == .name && (c.nextKind == .name || c.nextKind == .arrayMark))

end Cursor

/-- What the grammar allows where reading stopped. -/
inductive Expectation where
  | token (kind : TokenKind)
  | type
  | expression
  | body
deriving DecidableEq, Repr, Inhabited

def Expectation.text : Expectation → String
  | .token kind => kind.label
  | .type => "type"
  | .expression => "expression"
  | .body => "'\x7b' or ';'"

/-- Why and where reading stopped. -/
structure Failure where
  expected : Expectation
  stop : Cursor
deriving DecidableEq, Repr, Inhabited

/-- The outcome of reading something at a cursor, which passes at least one token. -/
abbrev Parsed (α : Type) (c : Cursor) : Type := Except Failure (α × c.Shorter)

namespace Cursor

def fail (c : Cursor) (expected : Expectation) : Failure := ⟨expected, c⟩

def expect (c : Cursor) (kind : TokenKind) : Parsed Token c :=
  match c.accept? kind with
  | some found => .ok found
  | none => .error (c.fail (.token kind))

end Cursor

namespace Parse

/-- What a token is when it stands where an operand is expected. -/
inductive Lead where
  | name
  | constant (c : Constant)
  | unary (op : UnaryOp)
  | paren
  | new
deriving DecidableEq, Repr, Inhabited

def lead? : TokenKind → Option Lead
  | .name => some .name
  | .literal l => some (.constant (.literal l))
  | .keyword .falseWord => some (.constant (.truth false))
  | .keyword .trueWord => some (.constant (.truth true))
  | .keyword .nullWord => some (.constant .null)
  | .keyword .ordWord => some (.unary .ord)
  | .keyword .chrWord => some (.unary .chr)
  | .keyword .newWord => some .new
  | .punct '+' => some (.unary .pos)
  | .punct '-' => some (.unary .neg)
  | .punct '!' => some (.unary .not)
  | .punct '(' => some .paren
  | _ => none

/-- What a token is when it stands where a statement is expected. -/
inductive StmtLead where
  | block
  | empty
  | whileLoop
  | ifThen
  | returnValue
deriving DecidableEq, Repr, Inhabited

def stmtLead? : TokenKind → Option StmtLead
  | .punct '\x7b' => some .block
  | .punct ';' => some .empty
  | .keyword .whileWord => some .whileLoop
  | .keyword .ifWord => some .ifThen
  | .keyword .returnWord => some .returnValue
  | _ => none

end Parse

end OcCompiler
