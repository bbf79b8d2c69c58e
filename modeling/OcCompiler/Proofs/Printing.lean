import OcCompiler.Proofs.GrammarComplete

/-! Expressions as tokens, printed with as few parentheses as the operators allow. Main statement: what is printed is
    read back, up to the token behind it. -/

namespace OcCompiler

def BinaryOp.rank : BinaryOp → Nat
  | .assign => 1
  | .compare _ => 2
  | .arith .add | .arith .sub => 3
  | .arith .mul | .arith .div | .arith .rem => 4

/-- The least level of a left operand that needs no parentheses. -/
def BinaryOp.leftDemand : BinaryOp → Nat
  | .assign => 2
  | op => op.rank

/-- The least level of a right operand that needs no parentheses. -/
def BinaryOp.rightDemand : BinaryOp → Nat
  | .assign => 1
  | op => op.rank + 1

namespace Expr

def level : Expr → Nat
  | .binary op .. => op.rank
  | .unary .. => 5
  | _ => 6

section Print

-- The lexemes of the tokens that an expression does not keep.
variable (filler : TokenKind → Lexeme)

def mark (kind : TokenKind) : Token := ⟨kind, filler kind⟩

/-- The tokens of a part of the given level, at a place with the given demand. -/
def enclose (demand level : Nat) (ts : List Token) : List Token :=
  if level < demand then mark filler (.punct '(') :: ts ++ [mark filler (.punct ')')] else ts

mutual

/-- The tokens of an expression, with parentheses around the parts that need them. -/
def print : Expr → List Token
  | .name x => [⟨.name, x⟩]
  | .constant q lexeme => [⟨q.kind, lexeme⟩]
  | .unary op sign operand => ⟨op.kind, sign⟩ :: enclose filler 5 operand.level operand.print
  | .binary op left sign right =>
    enclose filler op.leftDemand left.level left.print ++
      ⟨op.kind, sign⟩ :: enclose filler op.rightDemand right.level right.print
  | .call callee paren args =>
    ⟨.name, callee⟩ :: ⟨.punct '(', paren⟩ :: printArgs args ++ [mark filler (.punct ')')]
  | .index base bracket subscript =>
    enclose filler 6 base.level base.print ++
      ⟨.punct '[', bracket⟩ :: enclose filler 1 subscript.level subscript.print ++ [mark filler (.punct ']')]
  | .select object dot field =>
    enclose filler 6 object.level object.print ++ [⟨.punct '.', dot⟩, ⟨.name, field⟩]
  | .newStruct word tag =>
    [⟨.keyword .newWord, word⟩, ⟨.name, tag⟩, mark filler (.punct '('), mark filler (.punct ')')]
  | .newString word size =>
    ⟨.keyword .newWord, word⟩ :: mark filler (.scalar .string) :: mark filler (.punct '(') ::
      enclose filler 1 size.level size.print ++ [mark filler (.punct ')')]
  | .newArray element word size =>
    ⟨.keyword .newWord, word⟩ :: element.token :: mark filler (.punct '[') ::
      enclose filler 1 size.level size.print ++ [mark filler (.punct ']')]

def printArgs : List Expr → List Token
  | [] => []
  | [e] => enclose filler 1 e.level e.print
  | e :: es => enclose filler 1 e.level e.print ++ mark filler (.punct ',') :: printArgs es

end

end Print

attribute [local simp] print printArgs

def reach : Expr → Nat
  | .binary op .. => op.binding.operandLevel
  | .unary .. => Binding.unaryLevel
  | _ => Binding.suffixLevel + 1

def Precedes (e : Expr) (k : TokenKind) : Prop :=
  ∀ next, k.continuation? = some next → next.binding.level < e.reach ∧ (next = .call → ∀ x, e ≠ .name x)

end Expr

theorem BinaryOp.binding_level (op : BinaryOp) : op.binding.level = op.rank := by
  rcases op with _ | c | a
  · rfl
  · rfl
  · cases a <;> rfl

theorem BinaryOp.operandLevel_eq (op : BinaryOp) : op.binding.operandLevel = op.rightDemand := by
  rcases op with _ | c | a
  · rfl
  · rfl
  · cases a <;> rfl

theorem BinaryOp.rank_le (op : BinaryOp) :
    op.rank ≤ op.leftDemand ∧ op.rank ≤ op.rightDemand ∧ op.leftDemand ≤ 4 ∧ op.rightDemand ≤ 5 := by
  rcases op with _ | c | a
  · decide
  · simp only [rank, leftDemand, rightDemand]
    decide
  · cases a <;> decide

namespace Expr

variable {e : Expr} {k : TokenKind} {op : BinaryOp}

theorem level_le_reach (e : Expr) : e.level ≤ e.reach := by
  cases e with
  | binary op =>
    simp only [level, reach, op.operandLevel_eq]
    exact op.rank_le.2.1
  | _ => simp [level, reach, Binding.unaryLevel, Binding.suffixLevel]

theorem rank_lt_reach (h : op.leftDemand ≤ e.level) : op.rank < e.reach := by
  have hop := op.rank_le
  cases e with
  | binary op' =>
    simp only [level, reach, op'.operandLevel_eq] at h ⊢
    rcases op' with _ | c | a
    · -- An assignment is never a left operand without parentheses.
      rcases op with _ | c | a
      · exact absurd h (by decide)
      · exact absurd h (show ¬2 ≤ 1 by decide)
      · cases a <;> exact absurd h (by decide)
    · exact Nat.lt_succ_of_le (Nat.le_trans hop.1 h)
    · exact Nat.lt_succ_of_le (Nat.le_trans hop.1 h)
  | _ =>
    simp only [reach, Binding.unaryLevel, Binding.suffixLevel]
    omega

theorem precedes_of_continuation? {demand : Nat} (hlevel : demand ≤ e.level) (hdemand : demand ≤ 5)
    (h : ∀ next, k.continuation? = some next → next.binding.level < demand) : e.Precedes k := by
  intro next hnext
  have hlt := h next hnext
  refine ⟨Nat.lt_of_lt_of_le hlt (Nat.le_trans hlevel e.level_le_reach), ?_⟩
  rintro rfl
  simp only [Continuation.binding, Binding.suffixLevel] at hlt
  omega

theorem precedes_of_ends (h : Parse.Ends k) : e.Precedes k := by
  intro next hnext
  rw [h] at hnext
  cases hnext

theorem precedes_operator (h : op.leftDemand ≤ e.level) : e.Precedes op.kind := by
  intro next hnext
  obtain rfl : next = .operator op := by
    rcases op with _ | c | a
    · cases hnext
      rfl
    · cases hnext
      rfl
    · cases a <;> cases hnext <;> rfl
  refine ⟨?_, nofun⟩
  simp only [Continuation.binding, op.binding_level]
  exact rank_lt_reach h

theorem precedes_suffix {next : Continuation} (h : 6 ≤ e.level) (hk : k.continuation? = some next)
    (hcall : next ≠ .call) : e.Precedes k := by
  intro next' hnext
  rw [hk] at hnext
  cases hnext
  refine ⟨?_, fun h => absurd h hcall⟩
  have hreach : e.reach = 7 := by
    cases e with
    | binary op =>
      simp only [level] at h
      have := op.rank_le
      omega
    | unary => simp [level] at h
    | _ => rfl
  rw [hreach]
  cases next with
  | operator op =>
    have := op.rank_le
    simp only [Continuation.binding, op.binding_level]
    omega
  | _ => decide

end Expr

namespace Cursor

variable {c : Cursor} {t u : Token} {ts : List Token}

theorem exists_passes_of_ahead (h : c.ahead = t :: ts) : ∃ r, c.Passes t r ∧ r.ahead = ts := by
  obtain ⟨ahead, last, again⟩ := c
  cases h
  refine ⟨⟨ts, last, again⟩, ⟨?_, ?_⟩, rfl⟩
  · simp only [size, List.length_cons]
    omega
  · rfl

theorem kind_of_ahead (h : c.ahead = t :: ts) : c.kind = t.kind := by
  simp only [kind, current, h]

theorem nextKind_of_ahead (h : c.ahead = t :: u :: ts) : c.nextKind = u.kind := by
  simp only [nextKind, h]

end Cursor

namespace Parse

open Cursor

variable {filler : TokenKind → Lexeme} {c r : Cursor} {e : Expr} {t : Token} {rest : List Token} {level : Nat}

def Restores (level : Nat) (c : Cursor) (e : Expr) (ts : List Token) : Prop :=
  ∃ r, r.ahead = ts ∧ ∀ e' r', Yields (climb level e r) e' r' → Yields (expr level c) e' r'

theorem Restores.of_operand {ts : List Token} (h : Yields (operand c) e r) (hr : r.ahead = ts) : Restores level c e ts :=
  ⟨r, hr, fun _ _ hclimb => yields_expr.mpr ⟨e, r, h, hclimb⟩⟩

theorem Restores.yields (h : Restores level c e (t :: rest))
    (ht : ∀ next, t.kind.continuation? = some next → next.binding.level < level) :
    ∃ r, Yields (expr level c) e r ∧ r.ahead = t :: rest := by
  obtain ⟨r, hr, hread⟩ := h
  refine ⟨r, hread e r (yields_climb (.stop ?_)), hr⟩
  intro next hnext
  rw [kind_of_ahead hr] at hnext
  exact .inl (ht next hnext)

theorem Restores.yields_of_ends (h : Restores level c e (t :: rest)) (ht : Ends t.kind) :
    ∃ r, Yields (expr level c) e r ∧ r.ahead = t :: rest :=
  h.yields fun next hnext => by rw [ht] at hnext; cases hnext

theorem lead?_kind_of_yields (h : Yields (expr level c) e r) : lead? c.kind ≠ none := by
  obtain ⟨left, r₁, hleft, -⟩ := yields_expr.mp h
  exact lead?_kind_of_operand hleft

/-- The printed form of `e` is read back as `e`, whatever follows that does not belong to a part of it. -/
def PrintsBack (filler : TokenKind → Lexeme) (e : Expr) : Prop :=
  ∀ {level : Nat} {c : Cursor} {t : Token} {rest : List Token}, level ≤ e.level →
    c.ahead = e.print filler ++ t :: rest → e.Precedes t.kind → Restores level c e (t :: rest)

theorem PrintsBack.enclose {demand : Nat} (he : PrintsBack filler e) (hlevel : level ≤ demand)
    (hc : c.ahead = Expr.enclose filler demand e.level (e.print filler) ++ t :: rest)
    (ht : demand ≤ e.level → e.Precedes t.kind) : Restores level c e (t :: rest) := by
  unfold Expr.enclose at hc
  split at hc
  · simp only [List.cons_append, List.append_assoc, List.nil_append] at hc
    obtain ⟨r₁, hopen, hr₁⟩ := exists_passes_of_ahead hc
    obtain ⟨r₂, hread, hr₂⟩ := (he (Nat.zero_le _) hr₁ (Expr.precedes_of_ends rfl)).yields_of_ends rfl
    obtain ⟨r₃, hclose, hr₃⟩ := exists_passes_of_ahead hr₂
    exact .of_operand (yields_operand hopen (.paren rfl hread ⟨hclose, rfl⟩)) hr₃
  · rename_i hhigh
    have hhigh := Nat.le_of_not_lt hhigh
    exact he (Nat.le_trans hlevel hhigh) hc (ht hhigh)

theorem PrintsBack.bracketed (he : PrintsBack filler e)
    (hc : c.ahead = Expr.enclose filler 1 e.level (e.print filler) ++ t :: rest) (ht : Ends t.kind) :
    ∃ r, Yields (expr 0 c) e r ∧ r.ahead = t :: rest :=
  (he.enclose (Nat.zero_le _) hc fun _ => Expr.precedes_of_ends ht).yields_of_ends ht

theorem printsBack_name (x : Lexeme) : PrintsBack filler (.name x) := by
  intro level c t rest _ hc _
  obtain ⟨r, hpass, hr⟩ := exists_passes_of_ahead hc
  exact .of_operand (yields_operand hpass (.name rfl)) hr

theorem printsBack_constant (q : Constant) (lexeme : Lexeme) : PrintsBack filler (.constant q lexeme) := by
  intro level c t rest _ hc _
  have hlead : lead? q.kind = some (.constant q) := by
    rcases q with l | b | _
    · rfl
    · cases b <;> rfl
    · rfl
  obtain ⟨r, hpass, hr⟩ := exists_passes_of_ahead hc
  exact .of_operand (yields_operand hpass (.constant hlead)) hr

theorem printsBack_unary (op : UnaryOp) (sign : Lexeme) (he : PrintsBack filler e) :
    PrintsBack filler (.unary op sign e) := by
  intro level c t rest _ hc ht
  have hlead : lead? op.kind = some (.unary op) := by cases op <;> rfl
  have hweak : ∀ next, t.kind.continuation? = some next → next.binding.level < 5 := fun next hnext => (ht next hnext).1
  rw [Expr.print, List.cons_append] at hc
  obtain ⟨r₁, hpass, hr₁⟩ := exists_passes_of_ahead hc
  have hoperand : Restores Binding.unaryLevel r₁ e (t :: rest) := he.enclose (Nat.le_refl _) hr₁ fun hhigh =>
    Expr.precedes_of_continuation? hhigh (Nat.le_refl _) hweak
  obtain ⟨r, hread, hr⟩ := hoperand.yields hweak
  exact .of_operand (yields_operand hpass (.unary hlead hread)) hr

theorem printsBack_binary {e' : Expr} (op : BinaryOp) (sign : Lexeme) (he : PrintsBack filler e)
    (he' : PrintsBack filler e') : PrintsBack filler (.binary op e sign e') := by
  intro level c t rest hlevel hc ht
  have hop := op.rank_le
  have hkind : op.kind.continuation? = some (.operator op) := by
    rcases op with _ | c | a
    · rfl
    · rfl
    · cases a <;> rfl
  have hweak : ∀ next, t.kind.continuation? = some next → next.binding.level < op.rightDemand := fun next hnext =>
    op.operandLevel_eq ▸ (ht next hnext).1
  simp only [Expr.level] at hlevel
  rw [Expr.print, List.append_assoc, List.cons_append] at hc
  -- the left operand is read up to the operator, which is strong enough to go on
  obtain ⟨r₁, hr₁, hleft⟩ := he.enclose (Nat.le_trans hlevel hop.1) hc Expr.precedes_operator
  obtain ⟨r₂, hpass, hr₂⟩ := exists_passes_of_ahead hr₁
  -- the right operand ends where the whole expression does
  have hright : Restores op.rightDemand r₂ e' (t :: rest) := he'.enclose (Nat.le_refl _) hr₂ fun hhigh =>
    Expr.precedes_of_continuation? hhigh (by omega) hweak
  obtain ⟨r₃, hread, hr₃⟩ := hright.yields hweak
  refine ⟨r₃, hr₃, fun e'' r' hclimb => hleft e'' r' (yields_climb ?_)⟩
  exact .operator hpass hkind (op.binding_level ▸ hlevel) (op.operandLevel_eq ▸ hread) hclimb

theorem printsBack_index {e' : Expr} (bracket : Lexeme) (he : PrintsBack filler e) (he' : PrintsBack filler e') :
    PrintsBack filler (.index e bracket e') := by
  intro level c t rest hlevel hc _
  rw [Expr.print, List.append_assoc, List.append_assoc, List.cons_append] at hc
  obtain ⟨r₁, hr₁, hbase⟩ := he.enclose hlevel hc fun hhigh => Expr.precedes_suffix hhigh rfl nofun
  obtain ⟨r₂, hopen, hr₂⟩ := exists_passes_of_ahead hr₁
  obtain ⟨r₃, hread, hr₃⟩ := he'.bracketed hr₂ rfl
  obtain ⟨r₄, hclose, hr₄⟩ := exists_passes_of_ahead hr₃
  refine ⟨r₄, hr₄, fun e'' r' hclimb => hbase e'' r' (yields_climb ?_)⟩
  exact .subscript hopen rfl hlevel hread ⟨hclose, rfl⟩ hclimb

theorem printsBack_select (dot field : Lexeme) (he : PrintsBack filler e) : PrintsBack filler (.select e dot field) := by
  intro level c t rest hlevel hc _
  rw [Expr.print, List.append_assoc, List.cons_append, List.cons_append, List.nil_append] at hc
  obtain ⟨r₁, hr₁, hobject⟩ := he.enclose hlevel hc fun hhigh => Expr.precedes_suffix hhigh rfl nofun
  obtain ⟨r₂, hdot, hr₂⟩ := exists_passes_of_ahead hr₁
  obtain ⟨r₃, hfield, hr₃⟩ := exists_passes_of_ahead hr₂
  refine ⟨r₃, hr₃, fun e' r' hclimb => hobject e' r' (yields_climb ?_)⟩
  exact .selection hdot rfl hlevel ⟨hfield, rfl⟩ hclimb

theorem printsBack_newStruct (word tag : Lexeme) : PrintsBack filler (.newStruct word tag) := by
  intro level c t rest _ hc _
  simp only [Expr.print, List.cons_append, List.nil_append] at hc
  obtain ⟨r₁, hword, hr₁⟩ := exists_passes_of_ahead hc
  obtain ⟨r₂, htag, hr₂⟩ := exists_passes_of_ahead hr₁
  obtain ⟨r₃, hopen, hr₃⟩ := exists_passes_of_ahead hr₂
  obtain ⟨r₄, hclose, hr₄⟩ := exists_passes_of_ahead hr₃
  have hrest := OperandRest.newStruct (t := ⟨.keyword .newWord, word⟩) rfl ⟨htag, rfl⟩ ⟨hopen, rfl⟩ (nextKind_of_ahead hr₁)
    ⟨hclose, rfl⟩
  exact .of_operand (yields_operand hword hrest) hr₄

theorem printsBack_newString (word : Lexeme) (he : PrintsBack filler e) : PrintsBack filler (.newString word e) := by
  intro level c t rest _ hc _
  simp only [Expr.print, List.cons_append, List.append_assoc, List.nil_append] at hc
  obtain ⟨r₁, hword, hr₁⟩ := exists_passes_of_ahead hc
  obtain ⟨r₂, hstring, hr₂⟩ := exists_passes_of_ahead hr₁
  obtain ⟨r₃, hopen, hr₃⟩ := exists_passes_of_ahead hr₂
  obtain ⟨r₄, hread, hr₄⟩ := he.bracketed hr₃ rfl
  obtain ⟨r₅, hclose, hr₅⟩ := exists_passes_of_ahead hr₄
  have hrest := OperandRest.newString (t := ⟨.keyword .newWord, word⟩) rfl ⟨hstring, rfl⟩ ⟨hopen, rfl⟩
    (nextKind_of_ahead hr₁) hread ⟨hclose, rfl⟩
  exact .of_operand (yields_operand hword hrest) hr₅

theorem printsBack_newArray (element : TypeName) (word : Lexeme) (he : PrintsBack filler e) :
    PrintsBack filler (.newArray element word e) := by
  intro level c t rest _ hc _
  simp only [Expr.print, List.cons_append, List.append_assoc, List.nil_append] at hc
  obtain ⟨r₁, hword, hr₁⟩ := exists_passes_of_ahead hc
  have hnext : ¬r₁.nextKind = .punct '(' := by
    rw [nextKind_of_ahead hr₁]
    nofun
  obtain ⟨r₂, helement, hr₂⟩ := exists_passes_of_ahead hr₁
  have htype : Yields (typeName r₁) element r₂ := by
    cases element with
    | scalar s lexeme => exact yields_typeName.mpr ⟨_, helement, .inl ⟨s, rfl, rfl⟩⟩
    | struct tag => exact yields_typeName.mpr ⟨_, helement, .inr ⟨rfl, rfl⟩⟩
  obtain ⟨r₃, hopen, hr₃⟩ := exists_passes_of_ahead hr₂
  obtain ⟨r₄, hread, hr₄⟩ := he.bracketed hr₃ rfl
  obtain ⟨r₅, hclose, hr₅⟩ := exists_passes_of_ahead hr₄
  have hrest := OperandRest.newArray (t := ⟨.keyword .newWord, word⟩) rfl (fun h => hnext h.2) (fun h => hnext h.2) htype
    ⟨hopen, rfl⟩ hread ⟨hclose, rfl⟩
  exact .of_operand (yields_operand hword hrest) hr₅

def ArgsPrintBack (filler : TokenKind → Lexeme) (es : List Expr) : Prop :=
  ∀ {c : Cursor} {close : Token} {rest : List Token}, es ≠ [] → close.kind = .punct ')' →
    c.ahead = Expr.printArgs filler es ++ close :: rest → ∃ r, Yields (moreArgs c) es r ∧ r.ahead = rest

theorem argsPrintBack_cons {es : List Expr} (he : PrintsBack filler e) (hes : ArgsPrintBack filler es) :
    ArgsPrintBack filler (e :: es) := by
  intro c close rest _ hclose hc
  cases es with
  | nil =>
    obtain ⟨r₁, hread, hr₁⟩ := he.bracketed (by rw [hc, Expr.printArgs]) (by rw [hclose]; rfl)
    obtain ⟨r, hpass, hr⟩ := exists_passes_of_ahead hr₁
    have hcomma : r₁.kind ≠ .punct ',' := by
      rw [kind_of_ahead hr₁, hclose]
      nofun
    exact ⟨r, yields_moreArgs.mpr ⟨e, r₁, hread, .inr ⟨hcomma, rfl, close, hpass, hclose⟩⟩, hr⟩
  | cons e' es =>
    rw [Expr.printArgs, List.append_assoc, List.cons_append] at hc
    · obtain ⟨r₁, hread, hr₁⟩ := he.bracketed hc rfl
      obtain ⟨r₂, hcomma, hr₂⟩ := exists_passes_of_ahead hr₁
      obtain ⟨r, hmore, hr⟩ := hes nofun hclose hr₂
      exact ⟨r, yields_moreArgs.mpr ⟨e, r₁, hread, .inl ⟨_, r₂, _, ⟨hcomma, rfl⟩, rfl, hmore⟩⟩, hr⟩
    · nofun

theorem printsBack_call (callee paren : Lexeme) {args : List Expr} (hargs : ArgsPrintBack filler args) :
    PrintsBack filler (.call callee paren args) := by
  intro level c t rest hlevel hc _
  simp only [Expr.print, List.cons_append, List.append_assoc, List.nil_append] at hc
  obtain ⟨r₁, hname, hr₁⟩ := exists_passes_of_ahead hc
  obtain ⟨r₂, hopen, hr₂⟩ := exists_passes_of_ahead hr₁
  have hread : ∃ r, Yields (callArgs r₂) args r ∧ r.ahead = t :: rest := by
    cases args with
    | nil =>
      obtain ⟨r, hclose, hr⟩ := exists_passes_of_ahead hr₂
      exact ⟨r, yields_callArgs.mpr (.inl ⟨rfl, _, hclose, rfl⟩), hr⟩
    | cons e es =>
      obtain ⟨r, hmore, hr⟩ := hargs nofun rfl hr₂
      refine ⟨r, yields_callArgs.mpr (.inr ⟨fun hkind => ?_, hmore⟩), hr⟩
      obtain ⟨arg, r', hfirst, -⟩ := yields_moreArgs.mp hmore
      exact lead?_kind_of_yields hfirst (by rw [hkind]; rfl)
  obtain ⟨r, hread, hr⟩ := hread
  refine ⟨r, hr, fun e r' hclimb => yields_expr.mpr ⟨_, r₁, yields_operand hname (.name rfl), ?_⟩⟩
  exact yields_climb (.call rfl hopen rfl hlevel hread hclimb)

mutual

theorem printsBack (filler : TokenKind → Lexeme) : ∀ e : Expr, PrintsBack filler e
  | .name x => printsBack_name x
  | .constant q lexeme => printsBack_constant q lexeme
  | .unary op sign operand => printsBack_unary op sign (printsBack filler operand)
  | .binary op left sign right => printsBack_binary op sign (printsBack filler left) (printsBack filler right)
  | .call callee paren args => printsBack_call callee paren (argsPrintBack filler args)
  | .index base bracket subscript => printsBack_index bracket (printsBack filler base) (printsBack filler subscript)
  | .select object dot field => printsBack_select dot field (printsBack filler object)
  | .newStruct word tag => printsBack_newStruct word tag
  | .newString word size => printsBack_newString word (printsBack filler size)
  | .newArray element word size => printsBack_newArray element word (printsBack filler size)

theorem argsPrintBack (filler : TokenKind → Lexeme) : ∀ es : List Expr, ArgsPrintBack filler es
  | [] => fun h => absurd rfl h
  | e :: es => argsPrintBack_cons (printsBack filler e) (argsPrintBack filler es)

end

theorem ends_of_not_mem {k : TokenKind} (h : k ∉ Grammar.binops ++ [.punct '(', .punct '[', .punct '.']) : Ends k := by
  unfold Ends
  cases hnext : k.continuation? with
  | none => rfl
  | some next =>
    refine absurd ?_ h
    rw [Continuation.kind_of_continuation? hnext]
    cases next with
    | operator op => exact List.mem_append_left _ op.kind_mem
    | _ => exact List.mem_append_right _ (by decide)

/-- A printed expression is read back as it is, and reading stops at the token behind it, if this token is neither a
    binary operator nor an opening bracket nor a dot. Any tree gets exactly the nodes of the expression. -/
theorem expr_print (filler : TokenKind → Lexeme) (e : Expr) (t : Token) (rest : List Token)
    (ht : t.kind ∉ Grammar.binops ++ [.punct '(', .punct '[', .punct '.']) :
    ∃ r near, r.ahead = t :: rest ∧ expr 0 (.ofTokens (e.print filler ++ t :: rest)) = .ok (e, ⟨r, near⟩) ∧
      ∀ tree : Tree, ∃ n grown, Build.expr 0 (.ofTokens (e.print filler ++ t :: rest)) tree = .ok (n, ⟨r, near⟩) grown ∧
        tree.Grows e.sapling n grown := by
  have hends := ends_of_not_mem ht
  have hback : Restores 0 (.ofTokens (e.print filler ++ t :: rest)) e (t :: rest) :=
    printsBack filler e (Nat.zero_le _) rfl (Expr.precedes_of_ends hends)
  obtain ⟨r, ⟨near, hread⟩, hr⟩ := hback.yields_of_ends hends
  refine ⟨r, near, hr, hread, fun tree => ?_⟩
  have halong := Build.along_expr 0 (.ofTokens (e.print filler ++ t :: rest)) tree
  rw [hread] at halong
  obtain ⟨n, grown, hbuilt, hgrows⟩ := halong.of_ok
  exact ⟨n, grown, hbuilt, hgrows⟩

/-- The tokens of `(a = b)[i] = -(c - (d - 2)) * new int[n].x < f(y = z, !w)` before a semicolon. -/
theorem expr_print_nested :
    let x (text : String) : Lexeme := ⟨text, {}⟩
    let filler (kind : TokenKind) : Lexeme := x kind.label
    let name (text : String) : Expr := .name (x text)
    let target : Expr := .index (.binary .assign (name "a") (x "=") (name "b")) (x "[") (name "i")
    let inner : Expr := .binary (.arith .sub) (name "d") (x "-") (.constant (.literal .int) (x "2"))
    let factor : Expr := .unary .neg (x "-") (.binary (.arith .sub) (name "c") (x "-") inner)
    let element : Expr := .select (.newArray (.scalar .int (x "int")) (x "new") (name "n")) (x ".") (x "x")
    let args : List Expr := [.binary .assign (name "y") (x "=") (name "z"), .unary .not (x "!") (name "w")]
    let product : Expr := .binary (.arith .mul) factor (x "*") element
    let e : Expr := .binary .assign target (x "=") (.binary (.compare .lt) product (x "<") (.call (x "f") (x "(") args))
    let semicolon : Token := ⟨.punct ';', x ";"⟩
    (e.print filler).map Token.text =
        ["'('", "a", "=", "b", "')'", "[", "i", "']'", "=", "-", "'('", "c", "-", "'('", "d", "-", "2", "')'", "')'",
          "*", "new", "int", "'['", "n", "']'", ".", "x", "<", "f", "(", "y", "=", "z", "','", "!", "w", "')'"] ∧
      ∃ r near, r.ahead = [semicolon] ∧ expr 0 (.ofTokens (e.print filler ++ [semicolon])) = .ok (e, ⟨r, near⟩) ∧
        ∀ tree : Tree, ∃ n grown, Build.expr 0 (.ofTokens (e.print filler ++ [semicolon])) tree = .ok (n, ⟨r, near⟩) grown ∧
          tree.Grows e.sapling n grown := by
  intro x filler name target inner factor element args product e semicolon
  exact ⟨by decide +kernel, expr_print filler e semicolon [] (by decide)⟩

end Parse

end OcCompiler
