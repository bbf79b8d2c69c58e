import OcCompiler.Token.Kind

/-! The grammar of oc, over the kinds of tokens. Its rules are ambiguous: they say which token lists are programs and not
    how a program is to be taken. -/

namespace OcCompiler.Grammar

abbrev Kinds := List TokenKind

def binops : Kinds :=
  [.punct '=', .comparison .eq, .comparison .ne, .comparison .lt, .comparison .le, .comparison .gt, .comparison .ge,
    .punct '+', .punct '-', .punct '*', .punct '/', .punct '%']

def unops : Kinds := [.punct '+', .punct '-', .punct '!', .keyword .ordWord, .keyword .chrWord]

def constants : Kinds :=
  [.literal .int, .literal .char, .literal .string, .keyword .falseWord, .keyword .trueWord, .keyword .nullWord]

inductive Base : TokenKind → Prop where
  | scalar (s : Scalar) : Base (.scalar s)
  | struct : Base .name

/-- A type and a name. -/
inductive Decl : Kinds → Prop where
  | plain {b} (h : Base b) : Decl [b, .name]
  | array {b} (h : Base b) : Decl [b, .arrayMark, .name]

/-- What can be called is a name, possibly inside parentheses. -/
inductive Callee : Kinds → Prop where
  | name : Callee [.name]
  | paren {f} (h : Callee f) : Callee (.punct '(' :: f ++ [.punct ')'])

mutual

inductive Expr : Kinds → Prop where
  | binary {l op r} (hl : Expr l) (hop : op ∈ binops) (hr : Expr r) : Expr (l ++ op :: r)
  | unary {op e} (hop : op ∈ unops) (he : Expr e) : Expr (op :: e)
  | allocator {ks} (h : Allocator ks) : Expr ks
  | call {f args} (hf : Callee f) (hargs : Args args) : Expr (f ++ .punct '(' :: args ++ [.punct ')'])
  | paren {e} (he : Expr e) : Expr (.punct '(' :: e ++ [.punct ')'])
  | name : Expr [.name]
  | index {b s} (hb : Expr b) (hs : Expr s) : Expr (b ++ .punct '[' :: s ++ [.punct ']'])
  | select {e} (he : Expr e) : Expr (e ++ [.punct '.', .name])
  | constant {k} (hk : k ∈ constants) : Expr [k]

inductive Allocator : Kinds → Prop where
  | struct : Allocator [.keyword .newWord, .name, .punct '(', .punct ')']
  | string {e} (he : Expr e) :
      Allocator (.keyword .newWord :: .scalar .string :: .punct '(' :: e ++ [.punct ')'])
  | array {b e} (hb : Base b) (he : Expr e) : Allocator (.keyword .newWord :: b :: .punct '[' :: e ++ [.punct ']'])

inductive Args : Kinds → Prop where
  | none : Args []
  | some {ks} (h : Exprs ks) : Args ks

inductive Exprs : Kinds → Prop where
  | one {e} (he : Expr e) : Exprs e
  | more {e es} (he : Expr e) (hes : Exprs es) : Exprs (e ++ .punct ',' :: es)

end

inductive VarDecl : Kinds → Prop where
  | mk {d e} (hd : Decl d) (he : Expr e) : VarDecl (d ++ .punct '=' :: e ++ [.punct ';'])

/-- An expression in parentheses, as it stands behind `while` and `if`. -/
inductive Condition : Kinds → Prop where
  | mk {e} (he : Expr e) : Condition (.punct '(' :: e ++ [.punct ')'])

mutual

inductive Stmt : Kinds → Prop where
  | block {b} (h : Block b) : Stmt b
  | empty : Stmt [.punct ';']
  | varDecl {v} (h : VarDecl v) : Stmt v
  | whileLoop {c s} (hc : Condition c) (hs : Stmt s) : Stmt (.keyword .whileWord :: c ++ s)
  | ifThen {c s} (hc : Condition c) (hs : Stmt s) : Stmt (.keyword .ifWord :: c ++ s)
  | ifElse {c s s'} (hc : Condition c) (hs : Stmt s) (hs' : Stmt s') :
      Stmt (.keyword .ifWord :: c ++ s ++ .keyword .elseWord :: s')
  | returnVoid : Stmt [.keyword .returnWord, .punct ';']
  | returnValue {e} (he : Expr e) : Stmt (.keyword .returnWord :: e ++ [.punct ';'])
  | expr {e} (he : Expr e) : Stmt (e ++ [.punct ';'])

inductive Block : Kinds → Prop where
  | mk {ss} (h : Stmts ss) : Block (.punct '\x7b' :: ss ++ [.punct '\x7d'])

inductive Stmts : Kinds → Prop where
  | nil : Stmts []
  | cons {s ss} (h : Stmt s) (hs : Stmts ss) : Stmts (s ++ ss)

end

inductive Fields : Kinds → Prop where
  | nil : Fields []
  | cons {d ds} (hd : Decl d) (hds : Fields ds) : Fields (d ++ .punct ';' :: ds)

inductive Struct : Kinds → Prop where
  | bare {fs} (h : Fields fs) :
      Struct (.keyword .structWord :: .name :: .punct '\x7b' :: fs ++ [.punct '\x7d'])
  | closed {fs} (h : Fields fs) :
      Struct (.keyword .structWord :: .name :: .punct '\x7b' :: fs ++ [.punct '\x7d', .punct ';'])

inductive Decls : Kinds → Prop where
  | one {d} (hd : Decl d) : Decls d
  | more {d ds} (hd : Decl d) (hds : Decls ds) : Decls (d ++ .punct ',' :: ds)

inductive Params : Kinds → Prop where
  | none : Params []
  | some {ds} (h : Decls ds) : Params ds

inductive Function : Kinds → Prop where
  | prototype {d ps} (hd : Decl d) (hps : Params ps) :
      Function (d ++ .punct '(' :: ps ++ [.punct ')', .punct ';'])
  | definition {d ps b} (hd : Decl d) (hps : Params ps) (hb : Block b) :
      Function (d ++ .punct '(' :: ps ++ .punct ')' :: b)

inductive Item : Kinds → Prop where
  | struct {ks} (h : Struct ks) : Item ks
  | function {ks} (h : Function ks) : Item ks
  | stmt {ks} (h : Stmt ks) : Item ks

inductive Program : Kinds → Prop where
  | nil : Program []
  | cons {i is} (h : Item i) (his : Program is) : Program (i ++ is)

/-! ### Expressions without ambiguity -/

inductive Primary : Kinds → Prop where
  | name : Primary [.name]
  | constant {k} (hk : k ∈ constants) : Primary [k]
  | paren {e} (he : Expr e) : Primary (.punct '(' :: e ++ [.punct ')'])
  | call {f args} (hf : Callee f) (hargs : Args args) : Primary (f ++ .punct '(' :: args ++ [.punct ')'])
  | allocator {ks} (h : Allocator ks) : Primary ks

inductive Postfix : Kinds → Prop where
  | primary {ks} (h : Primary ks) : Postfix ks
  | index {b s} (hb : Postfix b) (hs : Expr s) : Postfix (b ++ .punct '[' :: s ++ [.punct ']'])
  | select {e} (he : Postfix e) : Postfix (e ++ [.punct '.', .name])

inductive Unary : Kinds → Prop where
  | bare {ks} (h : Postfix ks) : Unary ks
  | op {op e} (hop : op ∈ unops) (he : Unary e) : Unary (op :: e)

/-- Operands with binary operators in between. -/
inductive Sequence : Kinds → Prop where
  | single {u} (hu : Unary u) : Sequence u
  | joined {u op s} (hu : Unary u) (hop : op ∈ binops) (hs : Sequence s) : Sequence (u ++ op :: s)

theorem Primary.expr {ks : Kinds} (h : Primary ks) : Expr ks := by
  cases h with
  | name => exact .name
  | constant hk => exact .constant hk
  | paren he => exact .paren he
  | call hf hargs => exact .call hf hargs
  | allocator h => exact .allocator h

theorem Postfix.expr {ks : Kinds} (h : Postfix ks) : Expr ks := by
  induction h with
  | primary h => exact h.expr
  | index _ hs ih => exact .index ih hs
  | select _ ih => exact .select ih

theorem Unary.expr {ks : Kinds} (h : Unary ks) : Expr ks := by
  induction h with
  | bare h => exact h.expr
  | op hop _ ih => exact .unary hop ih

theorem Sequence.expr {ks : Kinds} (h : Sequence ks) : Expr ks := by
  induction h with
  | single hu => exact hu.expr
  | joined hu hop _ ih => exact .binary hu.expr hop ih

theorem Sequence.binary {l r : Kinds} {op : TokenKind} (hl : Sequence l) (hop : op ∈ binops) (hr : Sequence r) :
    Sequence (l ++ op :: r) := by
  induction hl with
  | single hu => exact .joined hu hop hr
  | joined hu hop' _ ih =>
    rw [List.append_assoc]
    exact .joined hu hop' ih

theorem Sequence.unary {op : TokenKind} {ks : Kinds} (hop : op ∈ unops) (h : Sequence ks) : Sequence (op :: ks) := by
  cases h with
  | single hu => exact .single (.op hop hu)
  | joined hu hop' hs => exact .joined (.op hop hu) hop' hs

theorem Sequence.suffix {ks tail : Kinds} (h : Sequence ks) (htail : ∀ p, Postfix p → Postfix (p ++ tail)) :
    Sequence (ks ++ tail) := by
  have hunary {u : Kinds} (hu : Unary u) : Unary (u ++ tail) := by
    induction hu with
    | bare h => exact .bare (htail _ h)
    | op hop _ ih => exact .op hop ih
  induction h with
  | single hu => exact .single (hunary hu)
  | joined hu hop _ ih =>
    rw [List.append_assoc]
    exact .joined hu hop ih

theorem Expr.sequence : ∀ {ks : Kinds}, Expr ks → Sequence ks
  | _, .binary hl hop hr => hl.sequence.binary hop hr.sequence
  | _, .unary hop he => he.sequence.unary hop
  | _, .allocator h => .single (.bare (.primary (.allocator h)))
  | _, .call hf hargs => .single (.bare (.primary (.call hf hargs)))
  | _, .paren he => .single (.bare (.primary (.paren he)))
  | _, .name => .single (.bare (.primary .name))
  | _, .index hb hs => by
    rw [List.append_assoc]
    exact hb.sequence.suffix fun p hp => by
      rw [← List.append_assoc]
      exact .index hp hs
  | _, .select he => he.sequence.suffix fun p hp => .select hp
  | _, .constant hk => .single (.bare (.primary (.constant hk)))

theorem expr_iff_sequence {ks : Kinds} : Expr ks ↔ Sequence ks := ⟨Expr.sequence, Sequence.expr⟩

end OcCompiler.Grammar
