import OcCompiler.Program.Cursor
import OcCompiler.Tree.Basic

/-!
Building the tree while reading. Nodes are made detached as soon as their token is passed. They are adopted when their
parent's children are complete, and some get their tag only then. A refused change of the tree ends the reading like a
token that does not fit, and the tree stays as it then is.
-/

namespace OcCompiler

/-- Why no tree could be made from tokens. -/
inductive ParseError where
  | unexpected (expected : Expectation) (found : Token)
  | link (e : LinkError)
deriving DecidableEq, Repr, Inhabited

namespace ParseError

def message : ParseError → String
  | .unexpected expected found =>
    if found.kind = .endOfFile then "syntax error: unexpected end of file, expected " ++ expected.text
    else "syntax error: expected " ++ expected.text ++ ", found " ++ found.text
  | .link e => "internal tree error: " ++ e.message

def loc : ParseError → Location
  | .unexpected _ found => found.loc
  | .link _ => {}

end ParseError

/-- The syntax error that a failure is reported as. -/
def Failure.error (f : Failure) : ParseError := .unexpected f.expected f.stop.current

/-- Work on a tree that may break off. What was done to the tree before is kept. -/
abbrev Building (α : Type) : Type := EStateM ParseError Tree α

/-- Building a node while passing at least one token. -/
abbrev Built (c : Cursor) : Type := Building (NodeId × c.Shorter)

namespace Build

/-- Reading alone leaves the tree as it is. -/
instance : MonadLift (Except Failure) Building where
  monadLift
    | .ok x, t => .ok x t
    | .error f, t => .error f.error t

def push (tag : Tag) (lexeme : Lexeme) : Building NodeId := fun t => .ok (t.push tag lexeme).1 (t.push tag lexeme).2

def edit (change : Tree → Edit) : Building NodeId := fun t =>
  match (change t).outcome with
  | .ok n => .ok n (change t).tree
  | .error e => .error (.link e) (change t).tree

def adopt (parent child : NodeId) : Building NodeId := edit (·.adopt parent child)

def adopt2 (parent left right : NodeId) : Building NodeId := edit (·.adopt2 parent left right)

def adoptAs (parent child : NodeId) (tag : Tag) : Building NodeId := edit (·.adoptAs parent child tag)

def adoptFunction (decl params terminator : NodeId) : Building NodeId := edit (·.adoptFunction decl params terminator)

def retag (n : NodeId) (tag : Tag) : Building NodeId := fun t => .ok n (t.setTag n tag)

/-! ### Expressions -/

def baseTag? : TokenKind → Option Tag
  | .scalar s => some (.scalar s)
  | .name => some .typeName
  | _ => none

def typeName (c : Cursor) : Built c := do
  match c.next?, baseTag? c.kind with
  | some (t, r), some tag => return (← push tag t.lexeme, r)
  | _, _ => throw (c.fail .type).error

/-- The tag of an operator before its operand is known: signs start as binary operators. -/
def openTag : UnaryOp → Tag
  | .pos => .binary (.arith .add)
  | .neg => .binary (.arith .sub)
  | op => .unary op

mutual

def expr (level : Nat) (c : Cursor) : Built c := do
  let ⟨left, r, _⟩ ← operand c
  let ⟨n, rest, _⟩ ← climb level left r
  return (n, ⟨rest, by omega⟩)
termination_by 5 * c.size + 1

def operand (c : Cursor) : Built c := do
  match c.next? with
  | none => throw (c.fail .expression).error
  | some (t, ⟨r, _⟩) =>
    match Parse.lead? t.kind with
    | none => throw (c.fail .expression).error
    | some .name => return (← push .name t.lexeme, ⟨r, by assumption⟩)
    | some (.constant k) => return (← push (.constant k) t.lexeme, ⟨r, by assumption⟩)
    | some (.unary op) =>
      let node ← push (openTag op) t.lexeme
      let ⟨e, rest, _⟩ ← expr Binding.unaryLevel r
      return (← adoptAs node e (.unary op), ⟨rest, by omega⟩)
    | some .paren =>
      let ⟨e, r, _⟩ ← expr 0 r
      let ⟨_, rest, _⟩ ← r.expect (.punct ')')
      return (e, ⟨rest, by omega⟩)
    | some .new =>
      if r.kind = .scalar .string ∧ r.nextKind = .punct '(' then
        let ⟨_, r, _⟩ ← r.expect (.scalar .string)
        let node ← push .newString t.lexeme
        let ⟨_, r, _⟩ ← r.expect (.punct '(')
        let ⟨size, r, _⟩ ← expr 0 r
        let ⟨_, rest, _⟩ ← r.expect (.punct ')')
        return (← adopt node size, ⟨rest, by omega⟩)
      else if r.kind = .name ∧ r.nextKind = .punct '(' then
        let ⟨tag, r, _⟩ ← r.expect .name
        let node ← push .newStruct t.lexeme
        let tag ← push .typeName tag.lexeme
        let ⟨_, r, _⟩ ← r.expect (.punct '(')
        let ⟨_, rest, _⟩ ← r.expect (.punct ')')
        return (← adopt node tag, ⟨rest, by omega⟩)
      else
        let ⟨base, r, _⟩ ← typeName r
        let node ← push .newArray t.lexeme
        let ⟨_, r, _⟩ ← r.expect (.punct '[')
        let ⟨size, r, _⟩ ← expr 0 r
        let ⟨_, rest, _⟩ ← r.expect (.punct ']')
        return (← adopt2 node base size, ⟨rest, by omega⟩)
termination_by 5 * c.size

def climb (level : Nat) (left : NodeId) (c : Cursor) : Building (NodeId × { r : Cursor // r.size ≤ c.size }) := do
  match c.next?, c.kind.continuation? with
  | some (t, ⟨r, _⟩), some next =>
    if next.binding.level < level then return (left, ⟨c, Nat.le_refl _⟩)
    else if next = .call ∧ (← get).tag left ≠ .name then return (left, ⟨c, Nat.le_refl _⟩)
    else
      let ⟨n, r, _⟩ ← extend left t.lexeme next r
      let ⟨n, rest, _⟩ ← climb level n r
      return (n, ⟨rest, by omega⟩)
  | _, _ => return (left, ⟨c, Nat.le_refl _⟩)
termination_by 5 * c.size

/-- One step behind an operand: a call, a subscript, a selection or an operator with its right side. -/
def extend (left : NodeId) (mark : Lexeme) (next : Continuation) (c : Cursor) : Built c := do
  match next with
  | .call =>
    let node ← push .call mark
    let _ ← adopt node left
    callArgs node c
  | .subscript =>
    let node ← push .index mark
    let ⟨subscript, r, _⟩ ← expr 0 c
    let ⟨_, rest, _⟩ ← r.expect (.punct ']')
    return (← adopt2 node left subscript, ⟨rest, by omega⟩)
  | .selection =>
    let node ← push .select mark
    let ⟨field, rest⟩ ← c.expect .name
    let field ← push .field field.lexeme
    return (← adopt2 node left field, rest)
  | .operator op =>
    let node ← push (.binary op) mark
    let ⟨right, rest⟩ ← expr op.binding.operandLevel c
    return (← adopt2 node left right, rest)
termination_by 5 * c.size + 4

def callArgs (node : NodeId) (c : Cursor) : Built c := do
  match c.accept? (.punct ')') with
  | some (_, r) => return (node, r)
  | none => moreArgs node c
termination_by 5 * c.size + 3

def moreArgs (node : NodeId) (c : Cursor) : Built c := do
  let ⟨arg, r, _⟩ ← expr 0 c
  let _ ← adopt node arg
  match r.accept? (.punct ',') with
  | some (_, ⟨r, _⟩) =>
    let ⟨n, rest, _⟩ ← moreArgs node r
    return (n, ⟨rest, by omega⟩)
  | none =>
    let ⟨_, rest, _⟩ ← r.expect (.punct ')')
    return (node, ⟨rest, by omega⟩)
termination_by 5 * c.size + 2

end

/-! ### Declarations and statements -/

def decl (nameTag : Tag) (c : Cursor) : Built c := do
  let ⟨base, r, near⟩ ← typeName c
  match r.accept? .arrayMark with
  | some (mark, ⟨r, nearer⟩) =>
    let ⟨name, rest⟩ ← r.expect .name
    let name ← push nameTag name.lexeme
    let node ← push .array mark.lexeme
    return (← adopt2 node base name, Cursor.within near (Cursor.within nearer rest))
  | none =>
    let ⟨name, rest⟩ ← r.expect .name
    let name ← push nameTag name.lexeme
    return (← adopt base name, Cursor.within near rest)

def varDecl (decl : NodeId) (c : Cursor) : Built c := do
  let ⟨equals, r, near⟩ ← c.expect (.punct '=')
  let node ← push .varDecl equals.lexeme
  let ⟨init, r, nearer⟩ ← expr 0 r
  let ⟨_, rest⟩ ← r.expect (.punct ';')
  return (← adopt2 node decl init, Cursor.within near (Cursor.within nearer rest))

def condition (c : Cursor) : Built c := do
  let ⟨_, r, near⟩ ← c.expect (.punct '(')
  let ⟨e, r, nearer⟩ ← expr 0 r
  let ⟨_, rest⟩ ← r.expect (.punct ')')
  return (e, Cursor.within near (Cursor.within nearer rest))

def returnRest (mark : Lexeme) (c : Cursor) : Built c := do
  let node ← push .returnValue mark
  match c.accept? (.punct ';') with
  | some (_, rest) => return (← retag node .returnVoid, rest)
  | none =>
    let ⟨value, r, near⟩ ← expr 0 c
    let ⟨_, rest⟩ ← r.expect (.punct ';')
    return (← adopt node value, Cursor.within near rest)

def plainStmt (c : Cursor) : Built c := do
  if c.startsDecl then
    let ⟨d, r, near⟩ ← decl .declName c
    let ⟨s, rest⟩ ← varDecl d r
    return (s, Cursor.within near rest)
  else
    let ⟨e, r, near⟩ ← expr 0 c
    let ⟨_, rest⟩ ← r.expect (.punct ';')
    return (e, Cursor.within near rest)

mutual

def stmt (c : Cursor) : Built c := do
  match c.next?, Parse.stmtLead? c.kind with
  | some (t, ⟨r, _⟩), some .block =>
    let node ← push .block t.lexeme
    let ⟨n, rest, _⟩ ← stmts node r
    return (n, ⟨rest, by omega⟩)
  | some (t, r), some .empty => return (← push .semicolon t.lexeme, r)
  | some (t, ⟨r, _⟩), some .whileLoop =>
    let node ← push .whileLoop t.lexeme
    let ⟨cond, r, _⟩ ← condition r
    let ⟨body, rest, _⟩ ← stmt r
    return (← adopt2 node cond body, ⟨rest, by omega⟩)
  | some (t, ⟨r, _⟩), some .ifThen =>
    let node ← push .ifThen t.lexeme
    let ⟨cond, r, _⟩ ← condition r
    let ⟨yes, r, _⟩ ← stmt r
    let _ ← adopt2 node cond yes
    match r.accept? (.keyword .elseWord) with
    | some (_, ⟨r, _⟩) =>
      let ⟨no, rest, _⟩ ← stmt r
      return (← adoptAs node no .ifElse, ⟨rest, by omega⟩)
    | none => return (node, ⟨r, by omega⟩)
  | some (t, ⟨r, _⟩), some .returnValue =>
    let ⟨n, rest, _⟩ ← returnRest t.lexeme r
    return (n, ⟨rest, by omega⟩)
  | _, _ => plainStmt c
termination_by 2 * c.size

def stmts (block : NodeId) (c : Cursor) : Built c := do
  match c.accept? (.punct '\x7d') with
  | some (_, rest) => return (block, rest)
  | none =>
    if c.kind = .endOfFile then throw (c.fail (.token (.punct '\x7d'))).error
    else
      let ⟨s, r, _⟩ ← stmt c
      let _ ← adopt block s
      let ⟨n, rest, _⟩ ← stmts block r
      return (n, ⟨rest, by omega⟩)
termination_by 2 * c.size + 1

end

/-! ### Items -/

def fields (struct : NodeId) (c : Cursor) : Built c := do
  match c.accept? (.punct '\x7d') with
  | some (_, rest) => return (struct, rest)
  | none =>
    let ⟨d, r, _⟩ ← decl .field c
    let ⟨_, r, _⟩ ← r.expect (.punct ';')
    let _ ← adopt struct d
    let ⟨n, rest, _⟩ ← fields struct r
    return (n, ⟨rest, by omega⟩)
termination_by c.size

def struct (mark : Lexeme) (c : Cursor) : Built c := do
  let node ← push .struct mark
  let ⟨tag, r, near⟩ ← c.expect .name
  let tag ← push .typeName tag.lexeme
  let _ ← adopt node tag
  let ⟨_, r, nearer⟩ ← r.expect (.punct '\x7b')
  let ⟨n, r, nearest⟩ ← fields node r
  match r.accept? (.punct ';') with
  | some (_, rest) => return (n, Cursor.within near (Cursor.within nearer (Cursor.within nearest rest)))
  | none => return (n, Cursor.within near (Cursor.within nearer ⟨r, nearest⟩))

def moreParams (list : NodeId) (c : Cursor) : Built c := do
  let ⟨d, r, _⟩ ← decl .declName c
  let _ ← adopt list d
  match r.accept? (.punct ',') with
  | some (_, ⟨r, _⟩) =>
    let ⟨n, rest, _⟩ ← moreParams list r
    return (n, ⟨rest, by omega⟩)
  | none =>
    let ⟨_, rest, _⟩ ← r.expect (.punct ')')
    return (list, ⟨rest, by omega⟩)
termination_by c.size

def params (list : NodeId) (c : Cursor) : Built c :=
  match c.accept? (.punct ')') with
  | some (_, rest) => return (list, rest)
  | none => moreParams list c

/-- The rest of a function or prototype, behind its declaration and the opening parenthesis. -/
def function (decl : NodeId) (paren : Lexeme) (c : Cursor) : Built c := do
  let list ← push .paramList paren
  let ⟨list, r, _⟩ ← params list c
  match r.accept? (.punct ';') with
  | some (semicolon, ⟨rest, _⟩) =>
    let terminator ← push .semicolon semicolon.lexeme
    return (← adoptFunction decl list terminator, ⟨rest, by omega⟩)
  | none =>
    match r.accept? (.punct '\x7b') with
    | some (brace, ⟨r, _⟩) =>
      let block ← push .block brace.lexeme
      let ⟨body, rest, _⟩ ← stmts block r
      return (← adoptFunction decl list body, ⟨rest, by omega⟩)
    | none => throw (r.fail .body).error

def item (c : Cursor) : Built c := do
  match c.accept? (.keyword .structWord) with
  | some (mark, ⟨r, _⟩) =>
    let ⟨n, rest, _⟩ ← struct mark.lexeme r
    return (n, ⟨rest, by omega⟩)
  | none =>
    if c.startsDecl then
      let ⟨d, r, _⟩ ← decl .declName c
      match r.accept? (.punct '(') with
      | some (paren, ⟨r, _⟩) =>
        let ⟨n, rest, _⟩ ← function d paren.lexeme r
        return (n, ⟨rest, by omega⟩)
      | none =>
        let ⟨n, rest, _⟩ ← varDecl d r
        return (n, ⟨rest, by omega⟩)
    else stmt c

/-- Items up to the end of the file, each of which becomes a child of the root. -/
def program (c : Cursor) : Building NodeId := do
  if c.kind = .endOfFile then return .root
  else
    let ⟨i, r, _⟩ ← item c
    let _ ← adopt .root i
    program r
termination_by c.size

end Build

namespace Tree

/-- Reads tokens as a program below the root of the tree. -/
def parse (t : Tree) (tokens : List Token) : Except ParseError NodeId × Tree :=
  match Build.program (.ofTokens tokens) t with
  | .ok n t => (.ok n, t)
  | .error e t => (.error e, t)

end Tree

end OcCompiler
