import OcCompiler.Program.Basic
import OcCompiler.Program.Cursor

/-!
Reading expressions. Behind an operand the expression goes on as long as the next token binds at least as strongly as
the given level. Only a bare name can be called.
-/

namespace OcCompiler.Parse

def typeName (c : Cursor) : Parsed TypeName c :=
  match c.next? with
  | some (t, r) =>
    match t.kind with
    | .scalar s => .ok (.scalar s t.lexeme, r)
    | .name => .ok (.struct t.lexeme, r)
    | _ => .error (c.fail .type)
  | none => .error (c.fail .type)

mutual

def expr (level : Nat) (c : Cursor) : Parsed Expr c := do
  let ⟨left, r, _⟩ ← operand c
  let ⟨e, rest, _⟩ ← climb level left r
  return (e, ⟨rest, by omega⟩)
termination_by 4 * c.size + 1

def operand (c : Cursor) : Parsed Expr c := do
  match c.next? with
  | none => throw (c.fail .expression)
  | some (t, ⟨r, _⟩) =>
    match lead? t.kind with
    | none => throw (c.fail .expression)
    | some .name => return (.name t.lexeme, ⟨r, by assumption⟩)
    | some (.constant k) => return (.constant k t.lexeme, ⟨r, by assumption⟩)
    | some (.unary op) =>
      let ⟨e, rest, _⟩ ← expr Binding.unaryLevel r
      return (.unary op t.lexeme e, ⟨rest, by omega⟩)
    | some .paren =>
      let ⟨e, r, _⟩ ← expr 0 r
      let ⟨_, rest, _⟩ ← r.expect (.punct ')')
      return (e, ⟨rest, by omega⟩)
    | some .new =>
      if r.kind = .scalar .string ∧ r.nextKind = .punct '(' then
        let ⟨_, r, _⟩ ← r.expect (.scalar .string)
        let ⟨_, r, _⟩ ← r.expect (.punct '(')
        let ⟨size, r, _⟩ ← expr 0 r
        let ⟨_, rest, _⟩ ← r.expect (.punct ')')
        return (.newString t.lexeme size, ⟨rest, by omega⟩)
      else if r.kind = .name ∧ r.nextKind = .punct '(' then
        let ⟨tag, r, _⟩ ← r.expect .name
        let ⟨_, r, _⟩ ← r.expect (.punct '(')
        let ⟨_, rest, _⟩ ← r.expect (.punct ')')
        return (.newStruct t.lexeme tag.lexeme, ⟨rest, by omega⟩)
      else
        let ⟨element, r, _⟩ ← typeName r
        let ⟨_, r, _⟩ ← r.expect (.punct '[')
        let ⟨size, r, _⟩ ← expr 0 r
        let ⟨_, rest, _⟩ ← r.expect (.punct ']')
        return (.newArray element t.lexeme size, ⟨rest, by omega⟩)
termination_by 4 * c.size

/-- The longest expression that starts with `left` and goes on with operators of at least the given level. -/
def climb (level : Nat) (left : Expr) (c : Cursor) : Except Failure (Expr × { r : Cursor // r.size ≤ c.size }) := do
  match c.next?, c.kind.continuation? with
  | some (t, ⟨r, _⟩), some next =>
    if next.binding.level < level then return (left, ⟨c, Nat.le_refl _⟩)
    else
      match next, left with
      | .call, .name callee =>
        let ⟨args, r, _⟩ ← callArgs r
        let ⟨e, rest, _⟩ ← climb level (.call callee t.lexeme args) r
        return (e, ⟨rest, by omega⟩)
      | .call, left => return (left, ⟨c, Nat.le_refl _⟩)
      | .subscript, left =>
        let ⟨subscript, r, _⟩ ← expr 0 r
        let ⟨_, r, _⟩ ← r.expect (.punct ']')
        let ⟨e, rest, _⟩ ← climb level (.index left t.lexeme subscript) r
        return (e, ⟨rest, by omega⟩)
      | .selection, left =>
        let ⟨field, r, _⟩ ← r.expect .name
        let ⟨e, rest, _⟩ ← climb level (.select left t.lexeme field.lexeme) r
        return (e, ⟨rest, by omega⟩)
      | .operator op, left =>
        let ⟨right, r, _⟩ ← expr op.binding.operandLevel r
        let ⟨e, rest, _⟩ ← climb level (.binary op left t.lexeme right) r
        return (e, ⟨rest, by omega⟩)
  | _, _ => return (left, ⟨c, Nat.le_refl _⟩)
termination_by 4 * c.size

/-- The arguments of a call, behind the opening parenthesis. -/
def callArgs (c : Cursor) : Parsed (List Expr) c := do
  match c.accept? (.punct ')') with
  | some (_, r) => return ([], r)
  | none => moreArgs c
termination_by 4 * c.size + 3

def moreArgs (c : Cursor) : Parsed (List Expr) c := do
  let ⟨arg, r, _⟩ ← expr 0 c
  match r.accept? (.punct ',') with
  | some (_, ⟨r, _⟩) =>
    let ⟨args, rest, _⟩ ← moreArgs r
    return (arg :: args, ⟨rest, by omega⟩)
  | none =>
    let ⟨_, rest, _⟩ ← r.expect (.punct ')')
    return ([arg], ⟨rest, by omega⟩)
termination_by 4 * c.size + 2

end

end OcCompiler.Parse
