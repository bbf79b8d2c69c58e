import OcCompiler.Program.ParseExpr

/-!
Reading declarations, statements and whole programs. The first token of a construct decides how it is read. The
first failure ends the reading of a program; the items before it are kept.
-/

namespace OcCompiler.Parse

def decl (c : Cursor) : Parsed Decl c := do
  let ⟨base, r, near⟩ ← typeName c
  match r.accept? .arrayMark with
  | some (mark, ⟨r, nearer⟩) =>
    let ⟨name, rest⟩ ← r.expect .name
    return (⟨base, some mark.lexeme, name.lexeme⟩, Cursor.within near (Cursor.within nearer rest))
  | none =>
    let ⟨name, rest⟩ ← r.expect .name
    return (⟨base, none, name.lexeme⟩, Cursor.within near rest)

def varDecl (d : Decl) (c : Cursor) : Parsed Stmt c := do
  let ⟨equals, r, near⟩ ← c.expect (.punct '=')
  let ⟨init, r, nearer⟩ ← expr 0 r
  let ⟨_, rest⟩ ← r.expect (.punct ';')
  return (.varDecl d equals.lexeme init, Cursor.within near (Cursor.within nearer rest))

def condition (c : Cursor) : Parsed Expr c := do
  let ⟨_, r, near⟩ ← c.expect (.punct '(')
  let ⟨e, r, nearer⟩ ← expr 0 r
  let ⟨_, rest⟩ ← r.expect (.punct ')')
  return (e, Cursor.within near (Cursor.within nearer rest))

def returnRest (mark : Lexeme) (c : Cursor) : Parsed Stmt c := do
  match c.accept? (.punct ';') with
  | some (_, rest) => return (.returnVoid mark, rest)
  | none =>
    let ⟨value, r, near⟩ ← expr 0 c
    let ⟨_, rest⟩ ← r.expect (.punct ';')
    return (.returnValue mark value, Cursor.within near rest)

def plainStmt (c : Cursor) : Parsed Stmt c := do
  if c.startsDecl then
    let ⟨d, r, near⟩ ← decl c
    let ⟨s, rest⟩ ← varDecl d r
    return (s, Cursor.within near rest)
  else
    let ⟨e, r, near⟩ ← expr 0 c
    let ⟨_, rest⟩ ← r.expect (.punct ';')
    return (.expr e, Cursor.within near rest)

mutual

def stmt (c : Cursor) : Parsed Stmt c := do
  match c.next?, stmtLead? c.kind with
  | some (t, ⟨r, _⟩), some .block =>
    let ⟨body, rest, _⟩ ← stmts r
    return (.block t.lexeme body, ⟨rest, by omega⟩)
  | some (t, r), some .empty => return (.empty t.lexeme, r)
  | some (t, ⟨r, _⟩), some .whileLoop =>
    let ⟨cond, r, _⟩ ← condition r
    let ⟨body, rest, _⟩ ← stmt r
    return (.whileLoop t.lexeme cond body, ⟨rest, by omega⟩)
  | some (t, ⟨r, _⟩), some .ifThen =>
    let ⟨cond, r, _⟩ ← condition r
    let ⟨yes, r, _⟩ ← stmt r
    match r.accept? (.keyword .elseWord) with
    | some (_, ⟨r, _⟩) =>
      let ⟨no, rest, _⟩ ← stmt r
      return (.ifElse t.lexeme cond yes no, ⟨rest, by omega⟩)
    | none => return (.ifThen t.lexeme cond yes, ⟨r, by omega⟩)
  | some (t, ⟨r, _⟩), some .returnValue =>
    let ⟨s, rest, _⟩ ← returnRest t.lexeme r
    return (s, ⟨rest, by omega⟩)
  | _, _ => plainStmt c
termination_by 2 * c.size

/-- The statements of a block and the closing brace. -/
def stmts (c : Cursor) : Parsed (List Stmt) c := do
  match c.accept? (.punct '\x7d') with
  | some (_, rest) => return ([], rest)
  | none =>
    if c.kind = .endOfFile then throw (c.fail (.token (.punct '\x7d')))
    else
      let ⟨s, r, _⟩ ← stmt c
      let ⟨body, rest, _⟩ ← stmts r
      return (s :: body, ⟨rest, by omega⟩)
termination_by 2 * c.size + 1

end

/-- The fields of a struct and the closing brace. -/
def fields (c : Cursor) : Parsed (List Decl) c := do
  match c.accept? (.punct '\x7d') with
  | some (_, rest) => return ([], rest)
  | none =>
    let ⟨d, r, _⟩ ← decl c
    let ⟨_, r, _⟩ ← r.expect (.punct ';')
    let ⟨all, rest, _⟩ ← fields r
    return (d :: all, ⟨rest, by omega⟩)
termination_by c.size

def struct (mark : Lexeme) (c : Cursor) : Parsed Item c := do
  let ⟨tag, r, near⟩ ← c.expect .name
  let ⟨_, r, nearer⟩ ← r.expect (.punct '\x7b')
  let ⟨all, r, nearest⟩ ← fields r
  let close := fun rest => (Item.struct mark tag.lexeme all, Cursor.within near (Cursor.within nearer rest))
  match r.accept? (.punct ';') with
  | some (_, rest) => return close (Cursor.within nearest rest)
  | none => return close ⟨r, nearest⟩

def moreParams (c : Cursor) : Parsed (List Decl) c := do
  let ⟨d, r, _⟩ ← decl c
  match r.accept? (.punct ',') with
  | some (_, ⟨r, _⟩) =>
    let ⟨all, rest, _⟩ ← moreParams r
    return (d :: all, ⟨rest, by omega⟩)
  | none =>
    let ⟨_, rest, _⟩ ← r.expect (.punct ')')
    return ([d], ⟨rest, by omega⟩)
termination_by c.size

/-- The parameters of a function, behind the opening parenthesis. -/
def params (c : Cursor) : Parsed (List Decl) c :=
  match c.accept? (.punct ')') with
  | some (_, rest) => .ok ([], rest)
  | none => moreParams c

/-- The rest of a function or prototype, behind its declaration and the opening parenthesis. -/
def function (d : Decl) (paren : Lexeme) (c : Cursor) : Parsed Item c := do
  let ⟨all, r, _⟩ ← params c
  match r.accept? (.punct ';') with
  | some (semicolon, ⟨rest, _⟩) => return (.prototype d paren all semicolon.lexeme, ⟨rest, by omega⟩)
  | none =>
    match r.accept? (.punct '\x7b') with
    | some (brace, ⟨r, _⟩) =>
      let ⟨body, rest, _⟩ ← stmts r
      return (.function d paren all brace.lexeme body, ⟨rest, by omega⟩)
    | none => throw (r.fail .body)

def item (c : Cursor) : Parsed Item c := do
  match c.accept? (.keyword .structWord) with
  | some (mark, ⟨r, _⟩) =>
    let ⟨i, rest, _⟩ ← struct mark.lexeme r
    return (i, ⟨rest, by omega⟩)
  | none =>
    if c.startsDecl then
      let ⟨d, r, _⟩ ← decl c
      match r.accept? (.punct '(') with
      | some (paren, ⟨r, _⟩) =>
        let ⟨i, rest, _⟩ ← function d paren.lexeme r
        return (i, ⟨rest, by omega⟩)
      | none =>
        let ⟨s, rest, _⟩ ← varDecl d r
        return (.stmt s, ⟨rest, by omega⟩)
    else
      let ⟨s, rest⟩ ← stmt c
      return (.stmt s, rest)

end OcCompiler.Parse

namespace OcCompiler

/-- A program as far as it could be read, and why reading stopped before the end. -/
structure Program where
  items : List Item
  failure : Option Failure
deriving Repr, Inhabited

namespace Program

def read (c : Cursor) : Program :=
  if c.kind = .endOfFile then ⟨[], none⟩
  else
    match Parse.item c with
    | .error f => ⟨[], some f⟩
    | .ok (i, ⟨r, _⟩) =>
      let rest := read r
      { rest with items := i :: rest.items }
termination_by c.size

def ofTokens (tokens : List Token) : Program := read (.ofTokens tokens)

end Program

end OcCompiler
