import OcCompiler.Proofs.Grammar
import OcCompiler.Proofs.Reading

/-! What is read follows the grammar and keeps tokens in their order. Where reading stops, what was read follows the
    grammar, the part that failed begins as its rule says, and the rest can be made up. -/

namespace OcCompiler

def UnaryOp.kind : UnaryOp → TokenKind
  | .pos => .punct '+'
  | .neg => .punct '-'
  | .not => .punct '!'
  | .ord => .keyword .ordWord
  | .chr => .keyword .chrWord

def BinaryOp.kind : BinaryOp → TokenKind
  | .assign => .punct '='
  | .compare c => .comparison c
  | .arith .add => .punct '+'
  | .arith .sub => .punct '-'
  | .arith .mul => .punct '*'
  | .arith .div => .punct '/'
  | .arith .rem => .punct '%'

def Constant.kind : Constant → TokenKind
  | .literal l => .literal l
  | .truth false => .keyword .falseWord
  | .truth true => .keyword .trueWord
  | .null => .keyword .nullWord

def TypeName.token : TypeName → Token
  | .scalar s lexeme => ⟨.scalar s, lexeme⟩
  | .struct tag => ⟨.name, tag⟩

def Decl.tokens (d : Decl) : List Token :=
  d.base.token :: (d.mark.toList.map (Token.mk .arrayMark) ++ [⟨.name, d.name⟩])

namespace Expr

mutual

/-- The tokens that an expression keeps, in the order of the text. -/
@[simp] def tokens : Expr → List Token
  | .name x => [⟨.name, x⟩]
  | .constant q lexeme => [⟨q.kind, lexeme⟩]
  | .unary op mark operand => ⟨op.kind, mark⟩ :: operand.tokens
  | .binary op left mark right => left.tokens ++ ⟨op.kind, mark⟩ :: right.tokens
  | .call callee paren args => ⟨.name, callee⟩ :: ⟨.punct '(', paren⟩ :: tokensAll args
  | .index base bracket subscript => base.tokens ++ ⟨.punct '[', bracket⟩ :: subscript.tokens
  | .select object dot field => object.tokens ++ [⟨.punct '.', dot⟩, ⟨.name, field⟩]
  | .newStruct mark tag => [⟨.keyword .newWord, mark⟩, ⟨.name, tag⟩]
  | .newString mark size => ⟨.keyword .newWord, mark⟩ :: size.tokens
  | .newArray element mark size => ⟨.keyword .newWord, mark⟩ :: element.token :: size.tokens

@[simp] def tokensAll : List Expr → List Token
  | [] => []
  | e :: es => e.tokens ++ tokensAll es

end

end Expr

namespace Stmt

mutual

/-- The tokens that a statement keeps, in the order of the text. -/
def tokens : Stmt → List Token
  | .block brace body => ⟨.punct '\x7b', brace⟩ :: tokensAll body
  | .empty semicolon => [⟨.punct ';', semicolon⟩]
  | .varDecl d equals init => d.tokens ++ ⟨.punct '=', equals⟩ :: init.tokens
  | .whileLoop mark cond body => ⟨.keyword .whileWord, mark⟩ :: (cond.tokens ++ body.tokens)
  | .ifThen mark cond yes => ⟨.keyword .ifWord, mark⟩ :: (cond.tokens ++ yes.tokens)
  | .ifElse mark cond yes no => ⟨.keyword .ifWord, mark⟩ :: (cond.tokens ++ (yes.tokens ++ no.tokens))
  | .returnValue mark value => ⟨.keyword .returnWord, mark⟩ :: value.tokens
  | .returnVoid mark => [⟨.keyword .returnWord, mark⟩]
  | .expr e => e.tokens

def tokensAll : List Stmt → List Token
  | [] => []
  | s :: ss => s.tokens ++ tokensAll ss

end

end Stmt

def Decl.tokensAll (ds : List Decl) : List Token := ds.flatMap Decl.tokens

def Item.tokens : Item → List Token
  | .struct mark tag fields => ⟨.keyword .structWord, mark⟩ :: ⟨.name, tag⟩ :: Decl.tokensAll fields
  | .function d paren params brace body =>
    d.tokens ++ ⟨.punct '(', paren⟩ :: (Decl.tokensAll params ++ ⟨.punct '\x7b', brace⟩ :: Stmt.tokensAll body)
  | .prototype d paren params semicolon =>
    d.tokens ++ ⟨.punct '(', paren⟩ :: (Decl.tokensAll params ++ [⟨.punct ';', semicolon⟩])
  | .stmt s => s.tokens

theorem Decl.grammar (d : Decl) : Grammar.Decl (d.tokens.map Token.kind) := by
  obtain ⟨base, mark, name⟩ := d
  have hbase : Grammar.Base base.token.kind := by
    cases base with
    | scalar => exact .scalar _
    | struct => exact .struct
  cases mark with
  | none => exact .plain hbase
  | some => exact .array hbase

theorem UnaryOp.kind_mem (op : UnaryOp) : op.kind ∈ Grammar.unops := by
  cases op <;> decide

theorem BinaryOp.kind_mem (op : BinaryOp) : op.kind ∈ Grammar.binops := by
  cases op with
  | assign => decide
  | compare c => cases c <;> decide
  | arith a => cases a <;> decide

theorem Constant.kind_mem (q : Constant) : q.kind ∈ Grammar.constants := by
  cases q with
  | literal l => cases l <;> decide
  | truth b => cases b <;> decide
  | null => decide

namespace Parse

variable {k : TokenKind}

/-- The kind of the token that starts an operand in the given way. -/
def Lead.kind : Lead → TokenKind
  | .name => .name
  | .constant q => q.kind
  | .unary op => op.kind
  | .paren => .punct '('
  | .new => .keyword .newWord

theorem kind_of_lead? {lead : Lead} (h : lead? k = some lead) : k = lead.kind := by
  unfold lead? at h
  split at h <;> cases h <;> rfl

def StmtLead.kind : StmtLead → TokenKind
  | .block => .punct '\x7b'
  | .empty => .punct ';'
  | .whileLoop => .keyword .whileWord
  | .ifThen => .keyword .ifWord
  | .returnValue => .keyword .returnWord

theorem kind_of_stmtLead? {lead : StmtLead} (h : stmtLead? k = some lead) : k = lead.kind := by
  unfold stmtLead? at h
  split at h <;> cases h <;> rfl

end Parse

def Continuation.kind : Continuation → TokenKind
  | .call => .punct '('
  | .subscript => .punct '['
  | .selection => .punct '.'
  | .operator op => op.kind

theorem BinaryOp.kind_of_binaryOp? {op : BinaryOp} (h : k.binaryOp? = some op) : k = op.kind := by
  unfold TokenKind.binaryOp? at h
  split at h <;> cases h <;> rfl

theorem Continuation.kind_of_continuation? {next : Continuation} (h : k.continuation? = some next) :
    k = next.kind := by
  unfold TokenKind.continuation? at h
  split at h
  · cases h
    rfl
  · cases h
    rfl
  · cases h
    rfl
  · obtain ⟨op, hop, rfl⟩ := Option.map_eq_some_iff.mp h
    exact BinaryOp.kind_of_binaryOp? hop

theorem Token.mk_lexeme {t : Token} (h : t.kind = k) : Token.mk k t.lexeme = t := by rw [← h]

/-- A token of this kind can be passed: it is not the end of the file. -/
class TokenKind.Inner (k : TokenKind) : Prop where
  ne_end : k ≠ .endOfFile

instance {s : Scalar} : (TokenKind.scalar s).Inner := ⟨nofun⟩

instance {w : Keyword} : (TokenKind.keyword w).Inner := ⟨nofun⟩

instance {c : Char} : (TokenKind.punct c).Inner := ⟨nofun⟩

instance : TokenKind.arrayMark.Inner := ⟨nofun⟩

instance : TokenKind.name.Inner := ⟨nofun⟩

namespace Cursor

variable {c r s : Cursor} {t : Token} {k : TokenKind} {ts us : List Token}

def Closed (c : Cursor) : Prop := ∃ t ∈ c.ahead, t.kind = .endOfFile

/-- The tokens from `c` to `r` are `ts`. -/
structure Spans (c : Cursor) (ts : List Token) (r : Cursor) : Prop where
  ahead : c.ahead = ts ++ r.ahead
  again : r.again = c.again
  closed : r.Closed

theorem Closed.spans (hc : c.Closed) : c.Spans [] c := ⟨rfl, rfl, hc⟩

theorem Spans.trans (h : c.Spans ts r) (h' : r.Spans us s) : c.Spans (ts ++ us) s :=
  ⟨by rw [h.ahead, h'.ahead, List.append_assoc], h'.again.trans h.again, h'.closed⟩

theorem Passes.spans (hc : c.Closed) (h : c.Passes t r) (hkind : t.kind ≠ .endOfFile) : c.Spans [t] r := by
  obtain ⟨near, hnext⟩ := h
  obtain ⟨last, hmem, hlast⟩ := hc
  unfold next? at hnext
  split at hnext
  · cases hnext
    refine ⟨rfl, rfl, last, ?_, hlast⟩
    rcases List.mem_cons.mp hmem with rfl | hmem
    · exact absurd hlast hkind
    · exact hmem
  · cases hmem
  · cases hmem

theorem Takes.spans [hk : k.Inner] (hc : c.Closed) (h : c.Takes k t r) : c.Spans [t] r :=
  h.1.spans hc (h.2 ▸ hk.ne_end)

end Cursor

namespace Grammar

/-- The list can be continued to one that the rule allows. -/
def Begins (rule : Kinds → Prop) (ks : Kinds) : Prop := ∃ rest, rule (ks ++ rest)

/-- A single token. -/
abbrev One (k : TokenKind) (ks : Kinds) : Prop := ks = [k]

inductive Parts : List (Kinds → Prop) → Kinds → Prop where
  | nil : Parts [] []
  | cons {R Rs l r} (hl : R l) (hr : Parts Rs r) : Parts (R :: Rs) (l ++ r)

theorem Parts.closed {R : Kinds → Prop} {k : TokenKind} {ks : Kinds} (h : R ks) : Parts [R, One k] (ks ++ [k]) :=
  .cons h (.cons (R := One k) (l := [k]) rfl .nil)

class Possible (rule : Kinds → Prop) : Prop where
  possible : ∃ ks, rule ks

instance {k : TokenKind} : Possible (One k) := ⟨_, rfl⟩

instance : Possible (Parts []) := ⟨_, .nil⟩

instance {R : Kinds → Prop} {Rs : List (Kinds → Prop)} [hR : Possible R] [hRs : Possible (Parts Rs)] :
    Possible (Parts (R :: Rs)) :=
  let ⟨_, h⟩ := hR.possible
  let ⟨_, hs⟩ := hRs.possible
  ⟨_, .cons h hs⟩

def TypeName (ks : Kinds) : Prop := ∃ b, Base b ∧ ks = [b]

def Tail (ks : Kinds) : Prop := ∀ e, Expr e → Expr (e ++ ks)

instance : Possible TypeName := ⟨_, _, .struct, rfl⟩

instance : Possible Decl := ⟨_, .plain .struct⟩

instance : Possible Expr := ⟨_, .name⟩

instance : Possible Tail := ⟨[], fun e he => by rwa [List.append_nil]⟩

instance : Possible Args := ⟨_, .none⟩

instance : Possible Exprs := ⟨_, .one .name⟩

instance : Possible Condition := ⟨_, .mk .name⟩

instance : Possible VarDecl := ⟨_, .mk (.plain .struct) .name⟩

instance : Possible Stmt := ⟨_, .empty⟩

instance : Possible Stmts := ⟨_, .nil⟩

instance : Possible Fields := ⟨_, .nil⟩

theorem Callee.expr {ks : Kinds} (h : Callee ks) : Expr ks := by
  induction h with
  | name => exact .name
  | paren _ ih => exact .paren ih

end Grammar

open Grammar (Begins One Parts Possible Kinds)

variable {k : TokenKind} {ts : List Token} {ks : Kinds}

section Follows

variable {α β : Type} {P Q : Cursor → Prop} {c r : Cursor} {rule rule' : Kinds → Prop} {Rs : List (Kinds → Prop)}
  {keeps : List Token → α → Prop} {keeps' : List Token → β → Prop}

/-- Reading from `c` passes tokens that follow the rule and makes something of them, or it stops behind tokens that
    begin what follows the rule. -/
def Follows (c : Cursor) (rule : Kinds → Prop) (keeps : List Token → α → Prop) :
    Except Failure (α × { r : Cursor // P r }) → Prop
  | .ok (x, r) => ∃ ts, c.Spans ts r.1 ∧ rule (ts.map Token.kind) ∧ keeps ts x
  | .error f => ∃ ts, c.Spans ts f.stop ∧ Begins rule (ts.map Token.kind)

namespace Follows

variable {p : Except Failure (α × { r : Cursor // P r })}
variable {R : Kinds → Prop} {k : TokenKind} {t : Token}

theorem fail [hrule : Possible rule] {f : Failure} (hc : c.Closed) (hf : f.stop = c) :
    Follows c rule keeps (.error f : Except Failure (α × { r : Cursor // P r })) := by
  obtain ⟨ks, hks⟩ := hrule.possible
  exact ⟨[], hf ▸ hc.spans, ks, hks⟩

theorem done {x : α} {near : P c} (hc : c.Closed) (h : keeps [] x) :
    Follows c (Parts []) keeps (.ok (x, ⟨c, near⟩) : Except Failure (α × { r : Cursor // P r })) :=
  ⟨[], hc.spans, .nil, h⟩

theorem imp {keeps' : List Token → α → Prop} (h : Follows c rule keeps p) (hrule : ∀ ks, rule ks → rule' ks)
    (hkeeps : ∀ ts x, rule (ts.map Token.kind) → keeps ts x → keeps' ts x) : Follows c rule' keeps' p := by
  match p, h with
  | .ok (x, r), ⟨ts, hts, hks, hx⟩ => exact ⟨ts, hts, hrule _ hks, hkeeps ts x hks hx⟩
  | .error f, ⟨ts, hts, rest, hrest⟩ => exact ⟨ts, hts, rest, hrule _ hrest⟩

theorem mono (h : Follows c rule keeps p) (hrule : ∀ ks, rule ks → rule' ks) : Follows c rule' keeps p :=
  h.imp hrule fun _ _ _ hx => hx

theorem behind {ts : List Token} (hts : c.Spans ts r)
    (h : Follows r (fun ks => rule (ts.map Token.kind ++ ks)) (fun us x => keeps (ts ++ us) x) p) :
    Follows c rule keeps p := by
  match p, h with
  | .ok (x, s), ⟨us, hus, hks, hx⟩ => exact ⟨ts ++ us, hts.trans hus, by simpa using hks, hx⟩
  | .error f, ⟨us, hus, rest, hrest⟩ => exact ⟨ts ++ us, hts.trans hus, rest, by simpa using hrest⟩

theorem bind {f : α × { r : Cursor // P r } → Except Failure (β × { r : Cursor // Q r })} (hp : Follows c rule keeps p)
    (hfail : ∀ ks, rule ks → Begins rule' ks)
    (hf : ∀ x r near ts, r.Closed → rule (ts.map Token.kind) → keeps ts x →
      Follows r (fun ks => rule' (ts.map Token.kind ++ ks)) (fun us y => keeps' (ts ++ us) y) (f (x, ⟨r, near⟩))) :
    Follows c rule' keeps' (p >>= f) := by
  match p, hp with
  | .ok (x, r), ⟨ts, hts, hks, hx⟩ => exact behind hts (hf x r.1 r.2 ts hts.closed hks hx)
  | .error f, ⟨ts, hts, rest, hrest⟩ =>
    obtain ⟨rest', hrest'⟩ := hfail _ hrest
    exact ⟨ts, hts, rest ++ rest', by simpa using hrest'⟩

theorem part [hRs : Possible (Parts Rs)]
    {f : α × { r : Cursor // P r } → Except Failure (β × { r : Cursor // Q r })} (hp : Follows c R keeps p)
    (hf : ∀ x r near ts, r.Closed → R (ts.map Token.kind) → keeps ts x →
      Follows r (Parts Rs) (fun us y => keeps' (ts ++ us) y) (f (x, ⟨r, near⟩))) :
    Follows c (Parts (R :: Rs)) keeps' (p >>= f) := by
  obtain ⟨rest, hrest⟩ := hRs.possible
  exact hp.bind (fun ks hks => ⟨rest, .cons hks hrest⟩) fun x r near ts hr hks hx =>
    (hf x r near ts hr hks hx).mono fun _ => .cons hks

theorem first (ht : c.Spans [t] r)
    (h : Follows r (Parts Rs) (fun us x => keeps (t :: us) x) p) : Follows c (Parts (One t.kind :: Rs)) keeps p :=
  behind ht (h.mono fun _ => .cons rfl)

theorem close [k.Inner] {x : α} {r : c.Shorter} (hc : c.Closed) (ht : c.accept? k = some (t, r))
    (hnil : R []) (hx : keeps [t] x) : Follows c (Parts [R, One k]) keeps (.ok (x, r) : Parsed α c) := by
  have ht := Cursor.accept?_eq_some_iff.mp ht
  exact ⟨[t], ht.spans hc, by simpa [ht.2] using Parts.closed hnil, hx⟩

theorem expect [k.Inner] (hc : c.Closed) :
    Follows c (One k) (fun ts t => ts = [t] ∧ t.kind = k) (c.expect k) := by
  unfold Cursor.expect
  split
  · rename_i t hsome
    have ht := Cursor.accept?_eq_some_iff.mp hsome
    exact ⟨[t.1], ht.spans hc, congrArg (fun k => [k]) ht.2, rfl, ht.2⟩
  · exact .fail hc rfl

end Follows

end Follows

/-- The tokens `ts` are kept by the expression `e`. One that is a bare name can be called. -/
structure Reads (ts : List Token) (e : Expr) : Prop where
  kept : e.tokens.Sublist ts
  callee : ∀ x, e = .name x → Grammar.Callee (ts.map Token.kind)

theorem Reads.of_kept {e : Expr} (hname : ∀ x, e ≠ .name x) (h : e.tokens.Sublist ts) : Reads ts e :=
  ⟨h, fun x hx => absurd hx (hname x)⟩

def Grammar.After : OcCompiler.Expr → Kinds → Prop
  | .name _ => fun ks => ∀ f, Callee f → Expr (f ++ ks)
  | _ => Tail

theorem Grammar.Tail.after (h : Tail ks) (left : OcCompiler.Expr) : After left ks := by
  cases left with
  | name x => exact fun f hf => h f hf.expr
  | _ => exact h

theorem Grammar.After.expr {left : OcCompiler.Expr} (h : After left ks)
    (hexpr : Expr (ts.map Token.kind)) (hleft : Reads ts left) : Expr (ts.map Token.kind ++ ks) := by
  cases left with
  | name x => exact h _ (hleft.callee x rfl)
  | _ => exact h _ hexpr

namespace Parse

open Cursor

variable {c r : Cursor} {mark : Token} {d : Decl}

theorem follows_typeName (hc : c.Closed) : Follows c Grammar.TypeName (fun ts b => ts = [b.token]) (typeName c) := by
  unfold typeName
  split
  · rename_i t r hnext
    have ht (hk : t.kind ≠ .endOfFile) : c.Spans [t] r.1 := Passes.spans hc ⟨r.2, hnext⟩ hk
    split
    · rename_i s hkind
      exact ⟨[t], ht (by simp [hkind]), ⟨_, .scalar s, congrArg (fun k => [k]) hkind⟩, by simp [TypeName.token, ← hkind]⟩
    · rename_i hkind
      exact ⟨[t], ht (by simp [hkind]), ⟨_, .struct, congrArg (fun k => [k]) hkind⟩, by simp [TypeName.token, ← hkind]⟩
    · exact .fail hc rfl
  · exact .fail hc rfl

mutual

theorem follows_expr {level : Nat} {c : Cursor} (hc : c.Closed) : Follows c Grammar.Expr Reads (expr level c) := by
  rw [expr]
  refine (follows_operand hc).bind (fun ks hks => ⟨[], by rwa [List.append_nil]⟩) fun left r _ ts hr hexpr hleft => ?_
  refine .mono ((follows_climb level left hr).part fun e s _ us hs _ he => .done hs ?_) ?_
  · rw [List.append_nil]
    exact he ts hleft
  · rintro _ (_ | ⟨hks, ⟨⟩⟩)
    simpa using hks.expr hexpr hleft
termination_by 4 * c.size + 1

theorem follows_operand {c : Cursor} (hc : c.Closed) : Follows c Grammar.Expr Reads (operand c) := by
  rw [operand]
  split
  · exact .fail hc rfl
  rename_i t r near hnext
  have hspans {lead : Lead} (hlead : lead? t.kind = some lead) : c.Spans [t] r :=
    Passes.spans hc ⟨near, hnext⟩ (by rintro hk; rw [hk] at hlead; cases hlead)
  split
  · exact .fail hc rfl
  · rename_i hlead
    have ht : t.kind = .name := kind_of_lead? hlead
    refine ⟨[t], hspans hlead, by simpa [ht] using Grammar.Expr.name, by simp [Token.mk_lexeme ht], fun x _ => ?_⟩
    simpa [ht] using Grammar.Callee.name
  · rename_i q hlead
    have ht : t.kind = q.kind := kind_of_lead? hlead
    exact ⟨[t], hspans hlead, by simpa [ht] using Grammar.Expr.constant q.kind_mem,
      .of_kept nofun (by simp [Token.mk_lexeme ht])⟩
  · rename_i op hlead
    have ht : t.kind = op.kind := kind_of_lead? hlead
    refine .mono (.first (hspans hlead) ((follows_expr (hspans hlead).closed).part fun e s _ ts hs _ he => .done hs ?_)) ?_
    · exact .of_kept nofun (by simpa [Token.mk_lexeme ht] using he.kept)
    · rintro _ (_ | ⟨rfl, _ | ⟨he, ⟨⟩⟩⟩)
      simpa [ht] using Grammar.Expr.unary op.kind_mem he
  · rename_i hlead
    have ht : t.kind = .punct '(' := kind_of_lead? hlead
    refine .mono (.first (hspans hlead) ((follows_expr (hspans hlead).closed).part fun e s _ ts hs _ he =>
      (Follows.expect hs).part fun close s' _ us hs' _ hclose => .done hs' ?_)) ?_
    · obtain ⟨rfl, hclose⟩ := hclose
      refine ⟨.cons _ (he.kept.trans (List.sublist_append_left ts _)), fun x hx => ?_⟩
      simpa [ht, hclose] using Grammar.Callee.paren (he.callee x hx)
    · rintro _ (_ | ⟨rfl, _ | ⟨he, _ | ⟨rfl, ⟨⟩⟩⟩⟩)
      simpa [ht] using Grammar.Expr.paren he
  · rename_i hlead
    have ht : t.kind = .keyword .newWord := kind_of_lead? hlead
    dsimp only
    split
    · refine .mono (.first (hspans hlead) ((Follows.expect (hspans hlead).closed).part fun word r₁ _ ws hr₁ _ hword =>
        (Follows.expect hr₁).part fun paren r₂ _ ps hr₂ _ hparen =>
        (follows_expr hr₂).part fun size r₃ _ ts hr₃ _ hsize =>
        (Follows.expect hr₃).part fun close r₄ _ us hr₄ _ hclose => .done hr₄ ?_)) ?_
      · obtain ⟨rfl, -⟩ := hword
        obtain ⟨rfl, -⟩ := hparen
        refine .of_kept nofun ?_
        simp only [Expr.tokens, Token.mk_lexeme ht]
        exact .cons_cons _ (.cons _ (.cons _ (hsize.kept.trans (List.sublist_append_left ts _))))
      · rintro _ (_ | ⟨rfl, _ | ⟨rfl, _ | ⟨rfl, _ | ⟨he, _ | ⟨rfl, ⟨⟩⟩⟩⟩⟩⟩)
        simpa [ht] using Grammar.Expr.allocator (.string he)
    · split
      · refine .mono (.first (hspans hlead) ((Follows.expect (hspans hlead).closed).part fun tag r₁ _ ts hr₁ _ htag =>
          (Follows.expect hr₁).part fun paren r₂ _ ps hr₂ _ hparen =>
          (Follows.expect hr₂).part fun close r₃ _ us hr₃ _ hclose => .done hr₃ ?_)) ?_
        · obtain ⟨rfl, htag⟩ := htag
          exact .of_kept nofun (by simp [Token.mk_lexeme ht, Token.mk_lexeme htag])
        · rintro _ (_ | ⟨rfl, _ | ⟨rfl, _ | ⟨rfl, _ | ⟨rfl, ⟨⟩⟩⟩⟩⟩)
          simpa [ht] using Grammar.Expr.allocator .struct
      · refine .mono (.first (hspans hlead) ((follows_typeName (hspans hlead).closed).part fun element r₁ _ bs hr₁ _ helement =>
          (Follows.expect hr₁).part fun bracket r₂ _ ps hr₂ _ hbracket =>
          (follows_expr hr₂).part fun size r₃ _ ts hr₃ _ hsize =>
          (Follows.expect hr₃).part fun close r₄ _ us hr₄ _ hclose => .done hr₄ ?_)) ?_
        · subst helement
          obtain ⟨rfl, -⟩ := hbracket
          refine .of_kept nofun ?_
          simp only [Expr.tokens, Token.mk_lexeme ht]
          exact .cons_cons _ (.cons_cons _ (.cons _ (hsize.kept.trans (List.sublist_append_left ts _))))
        · rintro _ (_ | ⟨rfl, _ | ⟨⟨b, hb, rfl⟩, _ | ⟨rfl, _ | ⟨he, _ | ⟨rfl, ⟨⟩⟩⟩⟩⟩⟩)
          simpa [ht] using Grammar.Expr.allocator (.array hb he)
termination_by 4 * c.size

theorem follows_climb (level : Nat) (left : Expr) {c : Cursor} (hc : c.Closed) :
    Follows c (Grammar.After left) (fun ts e => ∀ ls, Reads ls left → Reads (ls ++ ts) e) (climb level left c) := by
  have hstop {P : Cursor → Prop} {near : P c} : Follows c (Grammar.After left)
      (fun ts e => ∀ ls, Reads ls left → Reads (ls ++ ts) e)
      (.ok (left, ⟨c, near⟩) : Except Failure (Expr × { r : Cursor // P r })) :=
    ⟨[], hc.spans, Grammar.Tail.after (fun e he => by simpa using he) left, fun ls hls => by rwa [List.append_nil]⟩
  rw [climb]
  split
  · rename_i t r near next hnext hkind
    have hpass : c.Passes t r := ⟨near, hnext⟩
    have hspans := hpass.spans hc (by rintro hk; rw [hpass.kind, hk] at hkind; cases hkind)
    have hr := hspans.closed
    have ht := Continuation.kind_of_continuation? (hpass.kind ▸ hkind)
    split
    · exact hstop
    · split
      · rename_i callee _
        have ht : t.kind = .punct '(' := ht
        refine .mono (.first hspans ((follows_callArgs hr).part fun args r₁ _ us hr₁ _ hargs =>
          Follows.part (R := Grammar.Tail) (follows_climb level _ hr₁) fun e r₂ _ ts hr₂ _ he =>
          .done hr₂ fun ls hls => ?_)) ?_
        · have hcall : Reads (ls ++ t :: us) (.call callee t.lexeme args) := .of_kept nofun <| by
            simp only [Expr.tokens, Token.mk_lexeme ht]
            exact hls.kept.append (hargs.cons_cons t)
          simpa using he _ hcall
        · rintro _ (_ | ⟨rfl, _ | ⟨(_ | ⟨hargs, _ | ⟨rfl, ⟨⟩⟩⟩), _ | ⟨htail, ⟨⟩⟩⟩⟩) f hf
          simpa [ht] using htail _ (.call hf hargs)
      · exact hstop
      · have ht : t.kind = .punct '[' := ht
        refine .mono (.first hspans ((follows_expr hr).part fun subscript r₁ _ us hr₁ _ hsubscript =>
          (Follows.expect hr₁).part fun close r₂ _ cs hr₂ _ hclose =>
          Follows.part (R := Grammar.Tail) (follows_climb level _ hr₂) fun e r₃ _ ts hr₃ _ he =>
          .done hr₃ fun ls hls => ?_)) ?_
        · have hindex : Reads (ls ++ (t :: us ++ cs)) (.index left t.lexeme subscript) := .of_kept nofun <| by
            simp only [Expr.tokens, Token.mk_lexeme ht]
            exact hls.kept.append ((hsubscript.kept.trans (List.sublist_append_left us _)).cons_cons t)
          simpa using he _ hindex
        · rintro _ (_ | ⟨rfl, _ | ⟨hs, _ | ⟨rfl, _ | ⟨htail, ⟨⟩⟩⟩⟩⟩)
          refine Grammar.Tail.after (fun b hb => ?_) left
          simpa [ht] using htail _ (.index hb hs)
      · have ht : t.kind = .punct '.' := ht
        refine .mono (.first hspans ((Follows.expect hr).part fun field r₁ _ us hr₁ _ hfield =>
          Follows.part (R := Grammar.Tail) (follows_climb level _ hr₁) fun e r₂ _ ts hr₂ _ he =>
          .done hr₂ fun ls hls => ?_)) ?_
        · obtain ⟨rfl, hfield⟩ := hfield
          have hselect : Reads (ls ++ [t, field]) (.select left t.lexeme field.lexeme) := .of_kept nofun <| by
            simp only [Expr.tokens, Token.mk_lexeme ht, Token.mk_lexeme hfield]
            exact hls.kept.append (.refl _)
          simpa using he _ hselect
        · rintro _ (_ | ⟨rfl, _ | ⟨rfl, _ | ⟨htail, ⟨⟩⟩⟩⟩)
          refine Grammar.Tail.after (fun o ho => ?_) left
          simpa [ht] using htail _ (.select ho)
      · rename_i op _
        have ht : t.kind = op.kind := ht
        refine .mono (.first hspans ((follows_expr hr).part fun right r₁ _ us hr₁ _ hright =>
          Follows.part (R := Grammar.Tail) (follows_climb level _ hr₁) fun e r₂ _ ts hr₂ _ he =>
          .done hr₂ fun ls hls => ?_)) ?_
        · have hbinary : Reads (ls ++ t :: us) (.binary op left t.lexeme right) := .of_kept nofun <| by
            simp only [Expr.tokens, Token.mk_lexeme ht]
            exact hls.kept.append (hright.kept.cons_cons t)
          simpa using he _ hbinary
        · rintro _ (_ | ⟨rfl, _ | ⟨hr, _ | ⟨htail, ⟨⟩⟩⟩⟩)
          refine Grammar.Tail.after (fun l hl => ?_) left
          simpa [ht] using htail _ (.binary hl op.kind_mem hr)
  · exact hstop
termination_by 4 * c.size

theorem follows_callArgs {c : Cursor} (hc : c.Closed) :
    Follows c (Parts [Grammar.Args, One (.punct ')')]) (fun ts args => (Expr.tokensAll args).Sublist ts) (callArgs c) := by
  rw [callArgs]
  split
  · rename_i hclose
    exact .close hc hclose .none (List.nil_sublist _)
  · refine (follows_moreArgs hc).mono ?_
    rintro _ (_ | ⟨hargs, hclose⟩)
    exact .cons (.some hargs) hclose
termination_by 4 * c.size + 3

theorem follows_moreArgs {c : Cursor} (hc : c.Closed) :
    Follows c (Parts [Grammar.Exprs, One (.punct ')')]) (fun ts args => (Expr.tokensAll args).Sublist ts)
      (moreArgs c) := by
  rw [moreArgs]
  refine (follows_expr hc).bind ?_ fun arg r _ ts hr hexpr harg => ?_
  · exact fun ks hks => ⟨_, .closed (.one hks)⟩
  dsimp only
  split
  · rename_i comma r₁ near hcomma
    have hcomma := accept?_eq_some_iff.mp hcomma
    have hspans := hcomma.spans hr
    refine .mono (.first hspans ((follows_moreArgs hspans.closed).part fun args s _ us hs _ hargs => .done hs ?_)) ?_
    · simpa [Expr.tokensAll] using harg.kept.append (hargs.cons comma)
    · rintro _ (_ | ⟨rfl, _ | ⟨(_ | ⟨hargs, _ | ⟨rfl, ⟨⟩⟩⟩), ⟨⟩⟩⟩)
      simpa [hcomma.2] using Parts.closed (Grammar.Exprs.more hexpr hargs)
  · refine .mono ((Follows.expect hr).part fun close s _ us hs _ hclose => .done hs ?_) ?_
    · simpa [Expr.tokensAll] using harg.kept.trans (List.sublist_append_left ts _)
    · rintro _ (_ | ⟨rfl, ⟨⟩⟩)
      exact .closed (.one hexpr)
termination_by 4 * c.size + 2

end

theorem follows_decl (hc : c.Closed) : Follows c Grammar.Decl (fun ts d => ts = d.tokens) (decl c) := by
  refine (follows_typeName hc).bind ?_ fun base r _ ts hr hbase hts => ?_
  · rintro _ ⟨b, hb, rfl⟩
    exact ⟨[.name], .plain hb⟩
  obtain ⟨b, hb, hkind⟩ := hbase
  subst hts
  dsimp only
  split
  · rename_i mark r₁ _ hmark
    have hmark := accept?_eq_some_iff.mp hmark
    have hspans := hmark.spans hr
    refine .mono (.first hspans ((Follows.expect hspans.closed).part fun name s _ us hs _ hname => .done hs ?_)) ?_
    · obtain ⟨rfl, hname⟩ := hname
      simp [Decl.tokens, Token.mk_lexeme hmark.2, Token.mk_lexeme hname]
    · rintro _ (_ | ⟨rfl, _ | ⟨rfl, ⟨⟩⟩⟩)
      simpa [hkind, hmark.2] using Grammar.Decl.array hb
  · refine .mono ((Follows.expect hr).part fun name s _ us hs _ hname => .done hs ?_) ?_
    · obtain ⟨rfl, hname⟩ := hname
      simp [Decl.tokens, Token.mk_lexeme hname]
    · rintro _ (_ | ⟨rfl, ⟨⟩⟩)
      simpa [hkind] using Grammar.Decl.plain hb

theorem follows_varDecl (hc : c.Closed) :
    Follows c (Parts [One (.punct '='), Grammar.Expr, One (.punct ';')])
      (fun ts s => s.tokens.Sublist (d.tokens ++ ts)) (varDecl d c) := by
  refine (Follows.expect hc).part fun equals r₁ _ es hr₁ _ hequals =>
    (follows_expr hr₁).part fun init r₂ _ ts hr₂ _ hinit =>
    (Follows.expect hr₂).part fun semicolon r₃ _ us hr₃ _ _ => .done hr₃ ?_
  obtain ⟨rfl, hequals⟩ := hequals
  simp only [Stmt.tokens, Token.mk_lexeme hequals]
  exact .append (.refl _) ((hinit.kept.trans (List.sublist_append_left ts _)).cons_cons equals)

theorem follows_condition (hc : c.Closed) :
    Follows c Grammar.Condition (fun ts e => e.tokens.Sublist ts) (condition c) := by
  refine .mono ((Follows.expect hc).part fun paren r₁ _ ps hr₁ _ hparen =>
    (follows_expr hr₁).part fun e r₂ _ ts hr₂ _ he =>
    (Follows.expect hr₂).part fun close r₃ _ us hr₃ _ _ => .done hr₃ ?_) ?_
  · exact (he.kept.trans (List.sublist_append_left ts _)).trans (List.sublist_append_right ps _)
  · rintro _ (_ | ⟨rfl, _ | ⟨he, _ | ⟨rfl, ⟨⟩⟩⟩⟩)
    simpa using Grammar.Condition.mk he

theorem follows_plainStmt (hc : c.Closed) :
    Follows c Grammar.Stmt (fun ts s => s.tokens.Sublist ts) (plainStmt c) := by
  unfold plainStmt
  split
  · refine .mono ((follows_decl hc).part fun d r _ ds hr _ hd =>
      (follows_varDecl hr).part fun s r₁ _ ts hr₁ _ hs => .done hr₁ ?_) ?_
    · subst hd
      simpa using hs
    · rintro _ (_ | ⟨hd, _ | ⟨(_ | ⟨rfl, _ | ⟨he, _ | ⟨rfl, ⟨⟩⟩⟩⟩), ⟨⟩⟩⟩)
      simpa using Grammar.Stmt.varDecl (.mk hd he)
  · refine .mono ((follows_expr hc).part fun e r _ ts hr _ he =>
      (Follows.expect hr).part fun semicolon r₁ _ us hr₁ _ _ => .done hr₁ ?_) ?_
    · exact he.kept.trans (List.sublist_append_left ts _)
    · rintro _ (_ | ⟨he, _ | ⟨rfl, ⟨⟩⟩⟩)
      simpa using Grammar.Stmt.expr he

theorem follows_returnRest (hc : c.Closed) (hmark : mark.kind = .keyword .returnWord) :
    Follows c (fun ks => Grammar.Stmt (.keyword .returnWord :: ks)) (fun ts s => s.tokens.Sublist (mark :: ts))
      (returnRest mark.lexeme c) := by
  unfold returnRest
  split
  · rename_i semicolon r hsemicolon
    have hsemicolon := accept?_eq_some_iff.mp hsemicolon
    refine ⟨[semicolon], hsemicolon.spans hc, by simpa [hsemicolon.2] using Grammar.Stmt.returnVoid, ?_⟩
    simp [Stmt.tokens, Token.mk_lexeme hmark]
  · refine .mono ((follows_expr hc).part fun value r _ ts hr _ hvalue =>
      (Follows.expect hr).part fun semicolon r₁ _ us hr₁ _ _ => .done hr₁ ?_) ?_
    · simp only [Stmt.tokens, Token.mk_lexeme hmark]
      exact (hvalue.kept.trans (List.sublist_append_left ts _)).cons_cons mark
    · rintro _ (_ | ⟨he, _ | ⟨rfl, ⟨⟩⟩⟩)
      simpa using Grammar.Stmt.returnValue he

mutual

theorem follows_stmt {c : Cursor} (hc : c.Closed) :
    Follows c Grammar.Stmt (fun ts s => s.tokens.Sublist ts) (stmt c) := by
  have hfirst {t : Token} {r : Cursor} {near : r.size < c.size} {lead : StmtLead} (hnext : c.next? = some (t, ⟨r, near⟩))
      (hlead : stmtLead? c.kind = some lead) : c.Spans [t] r ∧ t.kind = lead.kind := by
    have hpass : c.Passes t r := ⟨near, hnext⟩
    have hkind := kind_of_stmtLead? (hpass.kind ▸ hlead)
    exact ⟨hpass.spans hc (by rw [hkind]; cases lead <;> nofun), hkind⟩
  rw [stmt]
  split
  · rename_i hnext hlead
    obtain ⟨hspans, ht⟩ := hfirst hnext hlead
    rw [StmtLead.kind] at ht
    refine .mono (.first hspans ((follows_stmts hspans.closed).part fun body r₁ _ ts hr₁ _ hbody => .done hr₁ ?_)) ?_
    · simp only [Stmt.tokens, Token.mk_lexeme ht, List.append_nil]
      exact hbody.cons_cons _
    · rintro _ (_ | ⟨rfl, _ | ⟨(_ | ⟨hbody, _ | ⟨rfl, ⟨⟩⟩⟩), ⟨⟩⟩⟩)
      simpa [ht] using Grammar.Stmt.block (.mk hbody)
  · rename_i hnext hlead
    obtain ⟨hspans, ht⟩ := hfirst hnext hlead
    rw [StmtLead.kind] at ht
    exact ⟨_, hspans, by simpa [ht] using Grammar.Stmt.empty, by simp [Stmt.tokens, Token.mk_lexeme ht]⟩
  · rename_i hnext hlead
    obtain ⟨hspans, ht⟩ := hfirst hnext hlead
    rw [StmtLead.kind] at ht
    refine .mono (.first hspans ((follows_condition hspans.closed).part fun cond r₁ _ cs hr₁ _ hcond =>
      (follows_stmt hr₁).part fun body r₂ _ bs hr₂ _ hbody => .done hr₂ ?_)) ?_
    · simp only [Stmt.tokens, Token.mk_lexeme ht, List.append_nil]
      exact (hcond.append hbody).cons_cons _
    · rintro _ (_ | ⟨rfl, _ | ⟨hcond, _ | ⟨hbody, ⟨⟩⟩⟩⟩)
      simpa [ht] using Grammar.Stmt.whileLoop hcond hbody
  · rename_i hnext hlead
    obtain ⟨hspans, ht⟩ := hfirst hnext hlead
    rw [StmtLead.kind] at ht
    refine .behind hspans ?_
    refine (follows_condition hspans.closed).bind ?_ fun cond r₁ _ cs hr₁ hcondition hcond => ?_
    · exact fun ks hks => ⟨_, by simpa [ht] using Grammar.Stmt.ifThen hks .empty⟩
    refine (follows_stmt hr₁).bind ?_ fun yes r₂ _ ys hr₂ hstmt hyes => ?_
    · exact fun ks hks => ⟨[], by simpa [ht] using Grammar.Stmt.ifThen hcondition hks⟩
    dsimp only
    split
    · rename_i word r₃ _ hword
      have hword := accept?_eq_some_iff.mp hword
      have hspans' := hword.spans hr₂
      refine .mono (.first hspans' ((follows_stmt hspans'.closed).part fun no r₄ _ ns hr₄ _ hno => .done hr₄ ?_)) ?_
      · simp only [Stmt.tokens, Token.mk_lexeme ht, List.append_nil]
        exact (hcond.append (hyes.append (hno.cons word))).cons_cons _
      · rintro _ (_ | ⟨rfl, _ | ⟨hno, ⟨⟩⟩⟩)
        simpa [ht, hword.2] using Grammar.Stmt.ifElse hcondition hstmt hno
    · refine .mono (.done hr₂ ?_) ?_
      · simp only [Stmt.tokens, Token.mk_lexeme ht, List.append_nil]
        exact (hcond.append hyes).cons_cons _
      · rintro _ ⟨⟩
        simpa [ht] using Grammar.Stmt.ifThen hcondition hstmt
  · rename_i hnext hlead
    obtain ⟨hspans, ht⟩ := hfirst hnext hlead
    refine .behind hspans (.mono ((follows_returnRest hspans.closed ht).part fun s r₁ _ ts hr₁ _ hs => .done hr₁ ?_) ?_)
    · simpa using hs
    · rintro _ (_ | ⟨hks, ⟨⟩⟩)
      simpa [ht, StmtLead.kind] using hks
  · exact follows_plainStmt hc
termination_by 2 * c.size

theorem follows_stmts {c : Cursor} (hc : c.Closed) :
    Follows c (Parts [Grammar.Stmts, One (.punct '\x7d')]) (fun ts body => (Stmt.tokensAll body).Sublist ts)
      (stmts c) := by
  rw [stmts]
  split
  · rename_i hclose
    exact .close hc hclose .nil (List.nil_sublist _)
  dsimp only
  split
  · exact .fail hc rfl
  · refine .mono ((follows_stmt hc).part fun first r _ ts hr _ hfirst =>
      (follows_stmts hr).part fun body r₁ _ us hr₁ _ hbody => .done hr₁ ?_) ?_
    · simpa [Stmt.tokensAll] using hfirst.append hbody
    · rintro _ (_ | ⟨hfirst, _ | ⟨(_ | ⟨hrest, _ | ⟨rfl, ⟨⟩⟩⟩), ⟨⟩⟩⟩)
      simpa using Parts.closed (Grammar.Stmts.cons hfirst hrest)
termination_by 2 * c.size + 1

end

theorem follows_fields {c : Cursor} (hc : c.Closed) :
    Follows c (Parts [Grammar.Fields, One (.punct '\x7d')]) (fun ts all => (Decl.tokensAll all).Sublist ts)
      (fields c) := by
  rw [fields]
  split
  · rename_i hclose
    exact .close hc hclose .nil (List.nil_sublist _)
  · refine .mono ((follows_decl hc).part fun d r₁ _ ds hr₁ _ hd =>
      (Follows.expect hr₁).part fun semicolon r₂ _ ss hr₂ _ _ =>
      (follows_fields hr₂).part fun all r₃ _ us hr₃ _ hall => .done hr₃ ?_) ?_
    · subst hd
      simpa [Decl.tokensAll] using hall.trans (List.sublist_append_right ss us)
    · rintro _ (_ | ⟨hd, _ | ⟨rfl, _ | ⟨(_ | ⟨hfields, _ | ⟨rfl, ⟨⟩⟩⟩), ⟨⟩⟩⟩⟩)
      simpa using Parts.closed (Grammar.Fields.cons hd hfields)
termination_by c.size

theorem follows_struct (hc : c.Closed) (hmark : mark.kind = .keyword .structWord) :
    Follows c (fun ks => Grammar.Struct (.keyword .structWord :: ks)) (fun ts i => i.tokens.Sublist (mark :: ts))
      (struct mark.lexeme c) := by
  refine (Follows.expect hc).bind ?_ fun tag r₁ _ ts hr₁ _ htag => ?_
  · rintro _ rfl
    exact ⟨_, .bare .nil⟩
  obtain ⟨rfl, htag⟩ := htag
  refine (Follows.expect hr₁).bind ?_ fun brace r₂ _ bs hr₂ _ hbrace => ?_
  · rintro _ rfl
    exact ⟨_, by simpa [htag] using Grammar.Struct.bare .nil⟩
  obtain ⟨rfl, hbrace⟩ := hbrace
  refine (follows_fields hr₂).bind ?_ fun all r₃ _ fs hr₃ hks hall => ?_
  · rintro _ (_ | ⟨hfields, _ | ⟨rfl, ⟨⟩⟩⟩)
    exact ⟨[], by simpa [htag, hbrace] using Grammar.Struct.bare hfields⟩
  have hstruct : (Item.struct mark.lexeme tag.lexeme all).tokens.Sublist (mark :: tag :: brace :: fs) := by
    simp only [Item.tokens, Token.mk_lexeme hmark, Token.mk_lexeme htag]
    exact .cons_cons _ (.cons_cons _ (.cons _ hall))
  generalize fs.map Token.kind = ks at hks
  obtain (_ | ⟨hfields, _ | ⟨rfl, ⟨⟩⟩⟩) := hks
  dsimp only
  split
  · rename_i semicolon r₄ hsemicolon
    have hsemicolon := accept?_eq_some_iff.mp hsemicolon
    refine ⟨[semicolon], hsemicolon.spans hr₃, ?_, ?_⟩
    · simpa [htag, hbrace, hsemicolon.2] using Grammar.Struct.closed hfields
    · simpa using hstruct.trans (List.sublist_append_left _ [semicolon])
  · exact ⟨[], hr₃.spans, by simpa [htag, hbrace] using Grammar.Struct.bare hfields, by simpa using hstruct⟩

theorem follows_moreParams {c : Cursor} (hc : c.Closed) :
    Follows c (Parts [Grammar.Decls, One (.punct ')')]) (fun ts all => (Decl.tokensAll all).Sublist ts)
      (moreParams c) := by
  rw [moreParams]
  refine (follows_decl hc).bind ?_ fun d r _ ds hr hdecl hd => ?_
  · exact fun ks hks => ⟨_, .closed (.one hks)⟩
  subst hd
  dsimp only
  split
  · rename_i comma r₁ near hcomma
    have hcomma := accept?_eq_some_iff.mp hcomma
    have hspans := hcomma.spans hr
    refine .mono (.first hspans ((follows_moreParams hspans.closed).part fun all s _ us hs _ hall => .done hs ?_)) ?_
    · simpa [Decl.tokensAll] using hall.cons comma
    · rintro _ (_ | ⟨rfl, _ | ⟨(_ | ⟨hall, _ | ⟨rfl, ⟨⟩⟩⟩), ⟨⟩⟩⟩)
      simpa [hcomma.2] using Parts.closed (Grammar.Decls.more hdecl hall)
  · refine .mono ((Follows.expect hr).part fun close s _ us hs _ hclose => .done hs ?_) ?_
    · simp [Decl.tokensAll]
    · rintro _ (_ | ⟨rfl, ⟨⟩⟩)
      exact .closed (.one hdecl)
termination_by c.size

theorem follows_params (hc : c.Closed) :
    Follows c (Parts [Grammar.Params, One (.punct ')')]) (fun ts all => (Decl.tokensAll all).Sublist ts) (params c) := by
  unfold params
  split
  · rename_i hclose
    exact .close hc hclose .none (List.nil_sublist _)
  · refine (follows_moreParams hc).mono ?_
    rintro _ (_ | ⟨hall, hclose⟩)
    exact .cons (.some hall) hclose

theorem follows_function {paren : Token} (hc : c.Closed) (hparen : paren.kind = .punct '(') :
    Follows c (fun ks => Grammar.Function (d.tokens.map Token.kind ++ .punct '(' :: ks))
      (fun ts i => i.tokens.Sublist (d.tokens ++ paren :: ts)) (function d paren.lexeme c) := by
  have hd := d.grammar
  refine (follows_params hc).bind ?_ fun all r _ ps hr hks hall => ?_
  · rintro _ (_ | ⟨hparams, _ | ⟨rfl, ⟨⟩⟩⟩)
    exact ⟨[.punct ';'], by simpa using Grammar.Function.prototype hd hparams⟩
  generalize ps.map Token.kind = ks at hks
  obtain (_ | ⟨hparams, _ | ⟨rfl, ⟨⟩⟩⟩) := hks
  dsimp only
  split
  · rename_i semicolon r₁ _ hsemicolon
    have hsemicolon := accept?_eq_some_iff.mp hsemicolon
    refine ⟨[semicolon], hsemicolon.spans hr, by simpa [hsemicolon.2] using Grammar.Function.prototype hd hparams, ?_⟩
    simp only [Item.tokens, Token.mk_lexeme hparen, Token.mk_lexeme hsemicolon.2]
    exact .append (.refl _) (.cons_cons _ (hall.append (.refl _)))
  split
  · rename_i brace r₁ _ hbrace
    have hbrace := accept?_eq_some_iff.mp hbrace
    have hspans := hbrace.spans hr
    refine .mono (.first hspans ((follows_stmts hspans.closed).part fun body s _ bs hs _ hbody => .done hs ?_)) ?_
    · simp only [Item.tokens, Token.mk_lexeme hparen, Token.mk_lexeme hbrace.2, List.append_nil]
      exact .append (.refl _) (.cons_cons _ (hall.append (hbody.cons_cons brace)))
    · rintro _ (_ | ⟨rfl, _ | ⟨(_ | ⟨hbody, _ | ⟨rfl, ⟨⟩⟩⟩), ⟨⟩⟩⟩)
      simpa [hbrace.2] using Grammar.Function.definition hd hparams (.mk hbody)
  · exact ⟨[], hr.spans, [.punct ';'], by simpa using Grammar.Function.prototype hd hparams⟩

theorem follows_item (hc : c.Closed) : Follows c Grammar.Item (fun ts i => i.tokens.Sublist ts) (item c) := by
  unfold item
  split
  · rename_i mark r _ hmark
    have hmark := accept?_eq_some_iff.mp hmark
    have hspans := hmark.spans hc
    refine .behind hspans (.mono ((follows_struct hspans.closed hmark.2).part fun i s _ ts hs _ hi => .done hs ?_) ?_)
    · simpa using hi
    · rintro _ (_ | ⟨hks, ⟨⟩⟩)
      simpa [hmark.2] using Grammar.Item.struct hks
  dsimp only
  split
  · refine (follows_decl hc).bind ?_ fun d r _ ds hr hdecl hd => ?_
    · exact fun ks hks => ⟨[.punct '=', .name, .punct ';'], by simpa using Grammar.Item.stmt (.varDecl (.mk hks .name))⟩
    subst hd
    dsimp only
    split
    · rename_i paren r₁ _ hparen
      have hparen := accept?_eq_some_iff.mp hparen
      have hspans := hparen.spans hr
      refine .behind hspans (.mono ((follows_function hspans.closed hparen.2).part fun i s _ ts hs _ hi => .done hs ?_) ?_)
      · simpa using hi
      · rintro _ (_ | ⟨hks, ⟨⟩⟩)
        simpa [hparen.2] using Grammar.Item.function hks
    · refine .mono ((follows_varDecl hr).part fun s r₁ _ ts hr₁ _ hs => .done hr₁ ?_) ?_
      · simpa [Item.tokens] using hs
      · rintro _ (_ | ⟨(_ | ⟨rfl, _ | ⟨he, _ | ⟨rfl, ⟨⟩⟩⟩⟩), ⟨⟩⟩)
        simpa using Grammar.Item.stmt (.varDecl (.mk hdecl he))
  · refine .mono ((follows_stmt hc).part fun s r _ ts hr _ hs => .done hr ?_) ?_
    · simpa [Item.tokens] using hs
    · rintro _ (_ | ⟨hks, ⟨⟩⟩)
      simpa using Grammar.Item.stmt hks

end Parse

namespace Program

theorem spans_read {c : Cursor} (hc : c.Closed) (h : (Program.read c).failure = none) :
    ∃ ts r, c.Spans ts r ∧ r.kind = .endOfFile ∧ Grammar.Program (ts.map Token.kind) ∧
      ((Program.read c).items.flatMap Item.tokens).Sublist ts := by
  fun_induction Program.read c with
  | case1 c hend => exact ⟨[], c, hc.spans, hend, .nil, .slnil⟩
  | case2 => cases h
  | case3 c hend i r near hitem rest ih =>
    obtain ⟨ts, hts, hgrammar, hkept⟩ := hitem ▸ Parse.follows_item hc
    obtain ⟨us, s, hus, hs, hprogram, hkept'⟩ := ih hts.closed h
    refine ⟨ts ++ us, s, hts.trans hus, hs, ?_, ?_⟩
    · simpa using Grammar.Program.cons hgrammar hprogram
    · simpa using hkept.append hkept'

theorem halts_read {c : Cursor} {f : Failure} (hc : c.Closed) (h : (Program.read c).failure = some f) :
    ∃ ts, c.Spans ts f.stop ∧ Begins Grammar.Program (ts.map Token.kind) := by
  fun_induction Program.read c with
  | case1 => cases h
  | case2 c hend f hitem =>
    cases h
    obtain ⟨ts, hts, rest, hrest⟩ := hitem ▸ Parse.follows_item hc
    exact ⟨ts, hts, rest, by simpa using Grammar.Program.cons hrest .nil⟩
  | case3 c hend i r near hitem rest ih =>
    obtain ⟨ts, hts, hgrammar, -⟩ := hitem ▸ Parse.follows_item hc
    obtain ⟨us, hus, more, hmore⟩ := ih hts.closed h
    exact ⟨ts ++ us, hts.trans hus, more, by simpa using Grammar.Program.cons hgrammar hmore⟩

end Program

end OcCompiler
