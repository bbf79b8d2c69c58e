import OcCompiler.Proofs.Building
import OcCompiler.Proofs.GrammarSound

/-! Whatever follows the grammar is read. The rules are ambiguous, so each part is first brought into the form in which
    it is taken: operands with operators in between, and statements by whether an `else` may follow. -/

namespace OcCompiler

variable {ks : Grammar.Kinds} {c : Cursor}

namespace Cursor

variable {c r : Cursor} {t : Token} {k : TokenKind} {ks : Grammar.Kinds}

def kinds (c : Cursor) : Grammar.Kinds := c.ahead.map Token.kind

theorem kind_of_kinds (h : c.kinds = k :: ks) : c.kind = k := by
  obtain ⟨ahead, last, again⟩ := c
  cases ahead with
  | nil => cases h
  | cons t ts =>
    simp only [kinds, List.map_cons, List.cons.injEq] at h
    exact h.1

theorem nextKind_of_kinds (h : c.kinds = k :: ks) : c.nextKind = ks.headD .endOfFile := by
  obtain ⟨ahead, last, again⟩ := c
  cases ahead with
  | nil => cases h
  | cons t ts =>
    simp only [kinds, List.map_cons, List.cons.injEq] at h
    rw [← h.2]
    cases ts with
    | nil => rfl
    | cons u us => rfl

theorem exists_takes (h : c.kinds = k :: ks) : ∃ t r, c.Takes k t r ∧ r.kinds = ks := by
  obtain ⟨ahead, last, again⟩ := c
  cases ahead with
  | nil => cases h
  | cons t ts =>
    simp only [kinds, List.map_cons, List.cons.injEq] at h
    obtain ⟨rfl, rfl⟩ := h
    refine ⟨t, ⟨ts, last, again⟩, ⟨⟨?_, ?_⟩, rfl⟩, rfl⟩
    · simp only [size, List.length_cons]
      omega
    · rfl

end Cursor

section Accepts

variable {α β : Type} {P Q : Cursor → Prop} {ks ks' : Grammar.Kinds} {p : Except Failure (α × { r : Cursor // P r })}

def Accepts (ks : Grammar.Kinds) : Except Failure (α × { r : Cursor // P r }) → Prop
  | .ok (_, r) => r.1.kinds = ks
  | .error _ => False

theorem Yields.accepts {x : α} {r : Cursor} (h : Yields p x r) (hr : r.kinds = ks) : Accepts ks p := by
  obtain ⟨near, rfl⟩ := h
  exact hr

theorem Accepts.bind {f : α × { r : Cursor // P r } → Except Failure (β × { r : Cursor // Q r })} (hp : Accepts ks p)
    (hf : ∀ x r near, r.kinds = ks → Accepts ks' (f (x, ⟨r, near⟩))) :
    Accepts ks' (p >>= f) := by
  cases p with
  | error f => exact hp.elim
  | ok q => exact hf q.1 q.2.1 q.2.2 hp

theorem Cursor.accepts_expect {c : Cursor} {k : TokenKind} (h : c.kinds = k :: ks) : Accepts ks (c.expect k) := by
  obtain ⟨t, r, ht, hr⟩ := exists_takes h
  rw [Cursor.expect, ht.accept?]
  exact hr

end Accepts

namespace Grammar

open Parse

variable {k : TokenKind} {ks tail : Kinds}

def Starts : Kinds → Prop
  | [] => False
  | [k] => lead? k ≠ none
  | k :: k' :: _ => lead? k ≠ none ∧ (k = .name → k' ≠ .name ∧ k' ≠ .arrayMark)

theorem Starts.append (h : Starts ks) (hname : k ≠ .name) (hmark : k ≠ .arrayMark) : Starts (ks ++ k :: tail) := by
  match ks, h with
  | [_], h => exact ⟨h, fun _ => ⟨hname, hmark⟩⟩
  | _ :: _ :: _, h => exact h

theorem Starts.lead (h : Starts ks) : ∃ k ks', ks = k :: ks' ∧ lead? k ≠ none := by
  match ks, h with
  | [k], h => exact ⟨k, [], rfl, h⟩
  | k :: k' :: ks', h => exact ⟨k, k' :: ks', rfl, h.1⟩

theorem starts_cons (hlead : lead? k ≠ none) (hname : k ≠ .name) : Starts (k :: ks) := by
  cases ks with
  | nil => exact hlead
  | cons k' ks' => exact ⟨hlead, fun h => absurd h hname⟩

theorem Callee.starts (h : Callee ks) : Starts ks := by
  cases h with
  | name => exact nofun
  | paren => exact starts_cons nofun nofun

theorem kind_ne_of_mem_binops {op : TokenKind} (h : op ∈ binops) : op ≠ .name ∧ op ≠ .arrayMark := by
  constructor <;> rintro rfl <;> revert h <;> decide

theorem Expr.starts : ∀ {ks : Kinds}, Expr ks → Starts ks
  | _, .binary hl hop _ => hl.starts.append (kind_ne_of_mem_binops hop).1 (kind_ne_of_mem_binops hop).2
  | _, .unary hop _ => by
    simp only [unops, List.mem_cons, List.not_mem_nil, or_false] at hop
    rcases hop with rfl | rfl | rfl | rfl | rfl <;> exact starts_cons nofun nofun
  | _, .allocator h => by
    cases h with
    | struct => exact starts_cons nofun nofun
    | string => exact starts_cons nofun nofun
    | array => exact starts_cons nofun nofun
  | _, .call hf _ => by
    rw [List.append_assoc]
    exact hf.starts.append nofun nofun
  | _, .paren _ => starts_cons nofun nofun
  | _, .name => nofun
  | _, .index hb _ => by
    rw [List.append_assoc]
    exact hb.starts.append nofun nofun
  | _, .select he => he.starts.append nofun nofun
  | _, .constant hk => by
    simp only [constants, List.mem_cons, List.not_mem_nil, or_false] at hk
    rcases hk with rfl | rfl | rfl | rfl | rfl | rfl <;> exact nofun

theorem stmtLead?_of_lead? (h : lead? k ≠ none) : stmtLead? k = none := by
  obtain ⟨lead, hlead⟩ := Option.ne_none_iff_exists'.mp h
  rw [kind_of_lead? hlead]
  cases lead with
  | name => rfl
  | constant q => cases q <;> first | rfl | (rename_i b; cases b <;> rfl)
  | unary op => cases op <;> rfl
  | paren => rfl
  | new => rfl

theorem Starts.startsDecl {c : Cursor} (h : Starts c.kinds) : c.startsDecl = false := by
  obtain ⟨k, ks', hkinds, hlead⟩ := h.lead
  have hscalar : k.isScalar = false := by
    cases k with
    | scalar s => exact absurd rfl hlead
    | _ => rfl
  simp only [Cursor.startsDecl, Cursor.kind_of_kinds hkinds, hscalar, Bool.false_or, Bool.and_eq_false_imp, beq_iff_eq]
  rintro rfl
  rw [Cursor.nextKind_of_kinds hkinds]
  rw [hkinds] at h
  cases ks' with
  | nil => rfl
  | cons k' ks' => simp [h.2 rfl]

end Grammar

namespace Parse

open Cursor Grammar

variable {c r : Cursor} {k : TokenKind} {kr : Kinds} {level n : Nat} {left : OcCompiler.Expr}
variable {ks p tail : Kinds}

theorem stops_of_continuation? (hc : c.kinds = k :: kr)
    (hk : ∀ next, k.continuation? = some next → next.binding.level < level) : Stops level left c := by
  intro next hnext
  rw [kind_of_kinds hc] at hnext
  exact .inl (hk next hnext)

def Ends (k : TokenKind) : Prop := k.continuation? = none

theorem stops_of_ends (hc : c.kinds = k :: kr) (hk : Ends k) : Stops level left c :=
  stops_of_continuation? hc fun next h => by rw [hk] at h; cases h

def ReadsShorter (n : Nat) : Prop :=
  ∀ ks, ks.length < n → Grammar.Expr ks → ∀ c k kr, c.kinds = ks ++ k :: kr → Ends k →
    ∃ e r, Yields (expr 0 c) e r ∧ r.kinds = k :: kr

/-- From `c` on, an operand is read up to `kr`, and what follows decides the rest. -/
def Reaches (level : Nat) (c : Cursor) (kr : Kinds) : Prop :=
  ∃ left r, r.kinds = kr ∧ ∀ e r', Yields (climb level left r) e r' → Yields (expr level c) e r'

theorem Reaches.of_operand (h : Yields (operand c) left r) (hr : r.kinds = kr) : Reaches level c kr :=
  ⟨left, r, hr, fun _ _ hclimb => yields_expr.mpr ⟨left, r, h, hclimb⟩⟩

theorem typeName_of_base {b : TokenKind} (h : Base b) (hc : c.kinds = b :: ks) :
    ∃ t r, Yields (typeName c) t r ∧ r.kinds = ks := by
  cases h with
  | scalar s =>
    obtain ⟨t, r, ht, hr⟩ := exists_takes hc
    exact ⟨_, r, yields_typeName.mpr ⟨t, ht.1, .inl ⟨s, ht.2, rfl⟩⟩, hr⟩
  | struct =>
    obtain ⟨t, r, ht, hr⟩ := exists_takes hc
    exact ⟨_, r, yields_typeName.mpr ⟨t, ht.1, .inr ⟨ht.2, rfl⟩⟩, hr⟩

theorem operand_of_callee {f : Kinds} (h : Callee f) {c : Cursor} {kr : Kinds} (hc : c.kinds = f ++ kr) :
    ∃ x r, Yields (operand c) (.name x) r ∧ r.kinds = kr := by
  induction h generalizing c kr with
  | name =>
    obtain ⟨t, r, ht, hr⟩ := exists_takes hc
    exact ⟨t.lexeme, r, yields_operand ht.1 (.name (by rw [ht.2]; rfl)), hr⟩
  | paren _ ih =>
    simp only [List.cons_append, List.append_assoc, List.nil_append] at hc
    obtain ⟨t, r, ht, hr⟩ := exists_takes hc
    obtain ⟨x, r₁, hx, hr₁⟩ := ih hr
    obtain ⟨close, r₂, hclose, hr₂⟩ := exists_takes hr₁
    have hexpr : Yields (expr 0 r) (.name x) r₁ :=
      yields_expr.mpr ⟨_, r₁, hx, yields_climb (.stop (stops_of_ends hr₁ rfl))⟩
    exact ⟨x, r₂, yields_operand ht.1 (.paren (by rw [ht.2]; rfl) hexpr hclose), hr₂⟩

theorem moreArgs_of_exprs (hn : ReadsShorter n) :
    ∀ {es : Kinds}, Grammar.Exprs es → es.length < n → ∀ {c : Cursor},
      c.kinds = es ++ .punct ')' :: kr → ∃ args r, Yields (moreArgs c) args r ∧ r.kinds = kr
  | _, .one he, hlen, c, hc => by
    obtain ⟨e, r₁, hread, hr₁⟩ := hn _ hlen he c _ _ hc rfl
    obtain ⟨close, r, hclose, hr⟩ := exists_takes hr₁
    exact ⟨_, r, yields_moreArgs.mpr ⟨e, r₁, hread, .inr ⟨by rw [kind_of_kinds hr₁]; nofun, rfl, close, hclose⟩⟩, hr⟩
  | _, @Exprs.more e es he hes, hlen, c, hc => by
    simp only [List.length_append, List.length_cons] at hlen
    rw [List.append_assoc] at hc
    obtain ⟨arg, r₁, hread, hr₁⟩ := hn _ (by omega) he c _ _ hc rfl
    obtain ⟨comma, r₂, hcomma, hr₂⟩ := exists_takes hr₁
    obtain ⟨args, r, hmore, hr⟩ := moreArgs_of_exprs hn hes (by omega) hr₂
    exact ⟨_, r, yields_moreArgs.mpr ⟨arg, r₁, hread, .inl ⟨comma, r₂, args, hcomma, rfl, hmore⟩⟩, hr⟩

theorem Exprs.starts {es : Kinds} (h : Grammar.Exprs es) : Starts es := by
  cases h with
  | one he => exact he.starts
  | more he _ => exact he.starts.append nofun nofun

theorem callArgs_of_args {args : Kinds} (hn : ReadsShorter n) (h : Grammar.Args args)
    (hlen : args.length < n) (hc : c.kinds = args ++ .punct ')' :: kr) :
    ∃ es r, Yields (callArgs c) es r ∧ r.kinds = kr := by
  cases h with
  | none =>
    obtain ⟨close, r, hclose, hr⟩ := exists_takes hc
    exact ⟨[], r, yields_callArgs.mpr (.inl ⟨rfl, close, hclose⟩), hr⟩
  | some hes =>
    obtain ⟨k, ks, rfl, hlead⟩ := (Exprs.starts hes).lead
    obtain ⟨es, r, hmore, hr⟩ := moreArgs_of_exprs hn hes hlen hc
    refine ⟨es, r, yields_callArgs.mpr (.inr ⟨?_, hmore⟩), hr⟩
    rw [kind_of_kinds hc]
    rintro rfl
    exact hlead rfl

theorem operand_of_allocator (hn : ReadsShorter n) (h : Allocator ks) (hlen : ks.length ≤ n)
    (hc : c.kinds = ks ++ kr) : ∃ e r, Yields (operand c) e r ∧ r.kinds = kr := by
  cases h with
  | struct =>
    obtain ⟨t, r₁, ht, hr₁⟩ := exists_takes hc
    obtain ⟨tag, r₂, htag, hr₂⟩ := exists_takes hr₁
    obtain ⟨paren, r₃, hparen, hr₃⟩ := exists_takes hr₂
    obtain ⟨close, r, hclose, hr⟩ := exists_takes hr₃
    have hrest := OperandRest.newStruct (by rw [ht.2]; rfl) htag hparen (nextKind_of_kinds hr₁) hclose
    exact ⟨_, r, yields_operand ht.1 hrest, hr⟩
  | string he =>
    simp only [List.cons_append, List.append_assoc, List.nil_append, List.length_cons, List.length_append,
      List.length_nil] at hc hlen
    obtain ⟨t, r₁, ht, hr₁⟩ := exists_takes hc
    obtain ⟨word, r₂, hword, hr₂⟩ := exists_takes hr₁
    obtain ⟨paren, r₃, hparen, hr₃⟩ := exists_takes hr₂
    obtain ⟨e, r₄, hsize, hr₄⟩ := hn _ (by omega) he r₃ _ _ hr₃ rfl
    obtain ⟨close, r, hclose, hr⟩ := exists_takes hr₄
    have hrest := OperandRest.newString (by rw [ht.2]; rfl) hword hparen (nextKind_of_kinds hr₁) hsize hclose
    exact ⟨_, r, yields_operand ht.1 hrest, hr⟩
  | @array b e hb he =>
    simp only [List.cons_append, List.append_assoc, List.nil_append, List.length_cons, List.length_append,
      List.length_nil] at hc hlen
    obtain ⟨t, r₁, ht, hr₁⟩ := exists_takes hc
    have hbracket : ¬r₁.nextKind = .punct '(' := by
      rw [nextKind_of_kinds hr₁]
      nofun
    obtain ⟨element, r₂, helement, hr₂⟩ := typeName_of_base hb hr₁
    obtain ⟨bracket, r₃, hbracket', hr₃⟩ := exists_takes hr₂
    obtain ⟨e, r₄, hsize, hr₄⟩ := hn _ (by omega) he r₃ _ _ hr₃ rfl
    obtain ⟨close, r, hclose, hr⟩ := exists_takes hr₄
    have hrest := OperandRest.newArray (by rw [ht.2]; rfl) (fun h => hbracket h.2) (fun h => hbracket h.2) helement
      hbracket' hsize hclose
    exact ⟨_, r, yields_operand ht.1 hrest, hr⟩

theorem reaches_of_primary (hn : ReadsShorter n) (h : Primary p) (hlen : p.length ≤ n)
    (hc : c.kinds = p ++ kr) (hlevel : level ≤ Binding.suffixLevel) : Reaches level c kr := by
  cases h with
  | name =>
    obtain ⟨x, r, hx, hr⟩ := operand_of_callee .name hc
    exact .of_operand hx hr
  | @constant k hk =>
    obtain ⟨q, hq⟩ : ∃ q, lead? k = some (.constant q) := by
      simp only [constants, List.mem_cons, List.not_mem_nil, or_false] at hk
      rcases hk with rfl | rfl | rfl | rfl | rfl | rfl <;> exact ⟨_, rfl⟩
    obtain ⟨t, r, ht, hr⟩ := exists_takes hc
    exact .of_operand (yields_operand ht.1 (.constant (by rw [ht.2, hq]))) hr
  | paren he =>
    simp only [List.cons_append, List.append_assoc, List.nil_append, List.length_cons, List.length_append,
      List.length_nil] at hc hlen
    obtain ⟨t, r₁, ht, hr₁⟩ := exists_takes hc
    obtain ⟨e, r₂, hread, hr₂⟩ := hn _ (by omega) he r₁ _ _ hr₁ rfl
    obtain ⟨close, r, hclose, hr⟩ := exists_takes hr₂
    exact .of_operand (yields_operand ht.1 (.paren (by rw [ht.2]; rfl) hread hclose)) hr
  | call hf hargs =>
    simp only [List.cons_append, List.append_assoc, List.nil_append, List.length_cons, List.length_append,
      List.length_nil] at hc hlen
    obtain ⟨x, r₁, hx, hr₁⟩ := operand_of_callee hf hc
    obtain ⟨t, r₂, ht, hr₂⟩ := exists_takes hr₁
    obtain ⟨es, r, hes, hr⟩ := callArgs_of_args hn hargs (by omega) hr₂
    refine ⟨.call x t.lexeme es, r, hr, ?_⟩
    intro e r' hclimb
    refine yields_expr.mpr ⟨_, r₁, hx, ?_⟩
    exact yields_climb (.call rfl ht.1 (by rw [ht.2]; rfl) hlevel hes hclimb)
  | allocator h =>
    obtain ⟨e, r, he, hr⟩ := operand_of_allocator hn h hlen hc
    exact .of_operand he hr

theorem reaches_of_postfix (hn : ReadsShorter n) (h : Postfix p) (hlen : p.length ≤ n) {kr : Kinds}
    (hc : c.kinds = p ++ kr) (hlevel : level ≤ Binding.suffixLevel) : Reaches level c kr := by
  induction h generalizing kr with
  | primary h => exact reaches_of_primary hn h hlen hc hlevel
  | index _ hs ih =>
    simp only [List.cons_append, List.append_assoc, List.nil_append, List.length_cons, List.length_append,
      List.length_nil] at hc hlen
    obtain ⟨left, r₁, hr₁, hleft⟩ := ih (by omega) hc
    obtain ⟨t, r₂, ht, hr₂⟩ := exists_takes hr₁
    obtain ⟨e, r₃, hread, hr₃⟩ := hn _ (by omega) hs r₂ _ _ hr₂ rfl
    obtain ⟨close, r, hclose, hr⟩ := exists_takes hr₃
    refine ⟨.index left t.lexeme e, r, hr, ?_⟩
    intro e' r' hclimb
    refine hleft e' r' ?_
    exact yields_climb (.subscript ht.1 (by rw [ht.2]; rfl) hlevel hread hclose hclimb)
  | select _ ih =>
    simp only [List.cons_append, List.append_assoc, List.nil_append, List.length_cons, List.length_append,
      List.length_nil] at hc hlen
    obtain ⟨left, r₁, hr₁, hleft⟩ := ih (by omega) hc
    obtain ⟨t, r₂, ht, hr₂⟩ := exists_takes hr₁
    obtain ⟨field, r, hfield, hr⟩ := exists_takes hr₂
    refine ⟨.select left t.lexeme field.lexeme, r, hr, ?_⟩
    intro e r' hclimb
    refine hleft e r' ?_
    exact yields_climb (.selection ht.1 (by rw [ht.2]; rfl) hlevel hfield hclimb)

theorem reaches_of_unary {u : Kinds} (hn : ReadsShorter n) (h : Unary u) (hlen : u.length ≤ n)
    (hk : ∀ next, k.continuation? = some next → next.binding.level < Binding.unaryLevel) {c : Cursor} {level : Nat}
    (hc : c.kinds = u ++ k :: kr) (hlevel : level ≤ Binding.suffixLevel) : Reaches level c (k :: kr) := by
  induction h generalizing c level with
  | bare h => exact reaches_of_postfix hn h hlen hc hlevel
  | @op op e hop _ ih =>
    obtain ⟨o, ho⟩ : ∃ o, lead? op = some (.unary o) := by
      simp only [unops, List.mem_cons, List.not_mem_nil, or_false] at hop
      rcases hop with rfl | rfl | rfl | rfl | rfl <;> exact ⟨_, rfl⟩
    simp only [List.length_cons] at hlen
    obtain ⟨t, r₁, ht, hr₁⟩ := exists_takes hc
    obtain ⟨left, r, hr, hleft⟩ := ih (by omega) hr₁ (show Binding.unaryLevel ≤ Binding.suffixLevel by decide)
    have hread := hleft _ _ (yields_climb (.stop (stops_of_continuation? hr hk)))
    exact .of_operand (yields_operand ht.1 (.unary (by rw [ht.2, ho]) hread)) hr

inductive Tail : Kinds → Prop where
  | nil : Tail []
  | cons {op s} (hop : op ∈ binops) (hs : Sequence s) : Tail (op :: s)

theorem exists_unary_tail {s : Kinds} (h : Sequence s) : ∃ u tail, s = u ++ tail ∧ Unary u ∧ Tail tail := by
  cases h with
  | single hu => exact ⟨s, [], by simp, hu, .nil⟩
  | joined hu hop hs => exact ⟨_, _, rfl, hu, .cons hop hs⟩

theorem exists_binaryOp {op : TokenKind} (h : op ∈ binops) :
    ∃ o, op.continuation? = some (.operator o) := by
  simp only [binops, List.mem_cons, List.not_mem_nil, or_false] at h
  rcases h with rfl | rfl | rfl | rfl | rfl | rfl | rfl | rfl | rfl | rfl | rfl | rfl <;> exact ⟨_, rfl⟩

theorem operandLevel_le (op : BinaryOp) : op.binding.operandLevel ≤ Binding.suffixLevel := by
  cases op with
  | assign => decide
  | compare c => cases c <;> decide
  | arith a => cases a <;> decide

theorem level_lt_unaryLevel (op : BinaryOp) : op.binding.level < Binding.unaryLevel := by
  cases op with
  | assign => decide
  | compare c => cases c <;> decide
  | arith a => cases a <;> decide

theorem weak_of_tail (kr : Kinds) (h : Tail tail) (hk : Ends k) :
    ∃ k' kr', tail ++ k :: kr = k' :: kr' ∧
      ∀ next, k'.continuation? = some next → next.binding.level < Binding.unaryLevel := by
  cases h with
  | nil =>
    refine ⟨k, kr, rfl, ?_⟩
    intro next hnext
    rw [hk] at hnext
    cases hnext
  | cons hop =>
    obtain ⟨o, ho⟩ := exists_binaryOp hop
    refine ⟨_, _, rfl, ?_⟩
    intro next hnext
    rw [ho] at hnext
    cases hnext
    exact level_lt_unaryLevel o

theorem climb_of_tail (hn : ReadsShorter n) (hk : Ends k) (level : Nat) (left : OcCompiler.Expr)
    (h : Tail tail) (hlen : tail.length ≤ n) {c : Cursor} (hc : c.kinds = tail ++ k :: kr) :
    ∃ e r rest, Yields (climb level left c) e r ∧ r.kinds = rest ++ k :: kr ∧ Tail rest ∧ rest.length ≤ tail.length ∧
      (level = 0 → rest = []) := by
  induction hm : tail.length using Nat.strongRecOn generalizing level left tail c with
  | ind m ih =>
    subst hm
    cases h with
    | nil => exact ⟨left, c, [], yields_climb (.stop (stops_of_ends hc hk)), hc, .nil, Nat.le_refl _, fun _ => rfl⟩
    | @cons op s hop hs =>
      obtain ⟨o, ho⟩ := exists_binaryOp hop
      by_cases hlevel : level ≤ o.binding.level
      · obtain ⟨u, tail, rfl, hu, htail⟩ := exists_unary_tail hs
        simp only [List.length_cons, List.length_append] at hlen ih
        rw [List.cons_append, List.append_assoc] at hc
        obtain ⟨t, r₁, ht, hr₁⟩ := exists_takes hc
        -- the right operand takes the operators that bind more strongly
        obtain ⟨k', kr', heq, hweak⟩ := weak_of_tail kr htail hk
        rw [heq] at hr₁
        obtain ⟨right, r₂, hr₂, hright⟩ := reaches_of_unary hn hu (by omega) hweak hr₁ (operandLevel_le o)
        rw [← heq] at hr₂
        obtain ⟨e, r₃, rest, hclimb, hr₃, hrest, hshort, -⟩ :=
          ih tail.length (by omega) o.binding.operandLevel right htail (by omega) hr₂ rfl
        -- and the rest of the sequence follows
        obtain ⟨e', r, rest', hclimb', hr, hrest', hshort', hall⟩ :=
          ih rest.length (by omega) level (.binary o left t.lexeme e) hrest (by omega) hr₃ rfl
        refine ⟨e', r, rest', ?_, hr, hrest', ?_, hall⟩
        · exact yields_climb (.operator ht.1 (by rw [ht.2, ho]) hlevel (hright _ _ hclimb) hclimb')
        · simp only [List.length_cons, List.length_append]
          omega
      · refine ⟨left, c, op :: s, yields_climb (.stop (stops_of_continuation? hc ?_)), hc, .cons hop hs, Nat.le_refl _, ?_⟩
        · intro next hnext
          rw [ho] at hnext
          cases hnext
          exact Nat.lt_of_not_le hlevel
        · rintro rfl
          exact absurd (Nat.zero_le _) hlevel

theorem readsShorter (n : Nat) : ReadsShorter n := by
  induction n with
  | zero =>
    intro ks hlen
    cases hlen
  | succ n ih =>
    intro ks hlen h c k kr hc hk
    obtain ⟨u, tail, rfl, hu, htail⟩ := exists_unary_tail h.sequence
    simp only [List.length_append] at hlen
    rw [List.append_assoc] at hc
    obtain ⟨k', kr', heq, hweak⟩ := weak_of_tail kr htail hk
    rw [heq] at hc
    obtain ⟨left, r₁, hr₁, hleft⟩ := reaches_of_unary ih hu (by omega) hweak hc (Nat.zero_le _)
    rw [← heq] at hr₁
    obtain ⟨e, r, rest, hclimb, hr, -, -, hall⟩ := climb_of_tail ih hk 0 left htail (by omega) hr₁
    rw [hall rfl] at hr
    exact ⟨e, r, hleft _ _ hclimb, hr⟩

theorem accepts_expr (h : Grammar.Expr ks) (hc : c.kinds = ks ++ k :: kr) (hk : Ends k) :
    Accepts (k :: kr) (expr 0 c) := by
  obtain ⟨e, r, hread, hr⟩ := readsShorter (ks.length + 1) ks (Nat.lt_succ_self _) h c k kr hc hk
  exact hread.accepts hr

end Parse

namespace Grammar

open Parse

variable {k : TokenKind} {ks : Kinds}

structure Opens (k : TokenKind) : Prop where
  elseWord : k ≠ .keyword .elseWord
  brace : k ≠ .punct '\x7d'
  endOfFile : k ≠ .endOfFile
  structWord : k ≠ .keyword .structWord

theorem opens_of_lead? (h : lead? k ≠ none) : Opens k := by
  constructor <;> rintro rfl <;> exact h rfl

theorem Base.opens (h : Base k) : Opens k := by
  cases h <;> constructor <;> rintro ⟨⟩

theorem Decl.opens (h : Decl ks) : ∃ k ks', ks = k :: ks' ∧ Opens k ∧ k ≠ .punct ';' := by
  cases h with
  | plain hb | array hb => exact ⟨_, _, rfl, hb.opens, by cases hb <;> nofun⟩

theorem Stmt.opens (h : Stmt ks) : ∃ k ks', ks = k :: ks' ∧ Opens k ∧ (k = .punct ';' → ks' = []) := by
  cases h with
  | block h =>
    obtain ⟨h⟩ := h
    exact ⟨_, _, rfl, ⟨nofun, nofun, nofun, nofun⟩, nofun⟩
  | empty => exact ⟨_, _, rfl, ⟨nofun, nofun, nofun, nofun⟩, fun _ => rfl⟩
  | varDecl h =>
    obtain ⟨hd, -⟩ := h
    obtain ⟨k, ks', rfl, hopens, hne⟩ := hd.opens
    exact ⟨k, _, rfl, hopens, fun h => absurd h hne⟩
  | whileLoop | ifThen | ifElse | returnVoid | returnValue => exact ⟨_, _, rfl, ⟨nofun, nofun, nofun, nofun⟩, nofun⟩
  | expr he =>
    obtain ⟨k, ks', rfl, hlead⟩ := he.starts.lead
    refine ⟨k, _, rfl, opens_of_lead? hlead, ?_⟩
    rintro rfl
    exact absurd rfl hlead

inductive Plain : Kinds → Prop where
  | block {b} (h : Block b) : Plain b
  | empty : Plain [.punct ';']
  | varDecl {v} (h : VarDecl v) : Plain v
  | returnVoid : Plain [.keyword .returnWord, .punct ';']
  | returnValue {e} (he : Expr e) : Plain (.keyword .returnWord :: e ++ [.punct ';'])
  | expr {e} (he : Expr e) : Plain (e ++ [.punct ';'])

/-- Statements in which every `else` belongs to the last `if` before it that has none. The flag says whether an `else`
    behind the statement would still belong to it. -/
inductive Paired : Bool → Kinds → Prop where
  | plain {s} (h : Plain s) : Paired false s
  | whileLoop {c s o} (hc : Condition c) (hs : Paired o s) : Paired o (.keyword .whileWord :: c ++ s)
  | ifThen {c s o} (hc : Condition c) (hs : Paired o s) : Paired true (.keyword .ifWord :: c ++ s)
  | ifElse {c s s' o} (hc : Condition c) (hs : Paired false s) (hs' : Paired o s') :
      Paired o (.keyword .ifWord :: c ++ s ++ .keyword .elseWord :: s')

theorem Paired.attach {s s' : Kinds} {o o' : Bool} (h : Paired o s) (ho : o = true) (h' : Paired o' s') :
    ∃ o'', Paired o'' (s ++ .keyword .elseWord :: s') := by
  induction h with
  | plain => cases ho
  | whileLoop hc _ ih =>
    obtain ⟨o'', h⟩ := ih ho
    exact ⟨o'', by simpa using Paired.whileLoop hc h⟩
  | @ifThen c s o hc hs ih =>
    cases o with
    | false => exact ⟨o', .ifElse hc hs h'⟩
    | true =>
      obtain ⟨o'', h⟩ := ih rfl
      exact ⟨true, by simpa using Paired.ifThen hc h⟩
  | ifElse hc hs _ _ ih =>
    obtain ⟨o'', h⟩ := ih ho
    exact ⟨o'', by simpa using Paired.ifElse hc hs h⟩

theorem Stmt.paired : ∀ {ks : Kinds}, Stmt ks → ∃ o, Paired o ks
  | _, .block h => ⟨false, .plain (.block h)⟩
  | _, .empty => ⟨false, .plain .empty⟩
  | _, .varDecl h => ⟨false, .plain (.varDecl h)⟩
  | _, .whileLoop hc hs => by
    obtain ⟨o, h⟩ := hs.paired
    exact ⟨o, .whileLoop hc h⟩
  | _, .ifThen hc hs => by
    obtain ⟨o, h⟩ := hs.paired
    exact ⟨true, .ifThen hc h⟩
  | _, .ifElse hc hs hs' => by
    obtain ⟨o, h⟩ := hs.paired
    obtain ⟨o', h'⟩ := hs'.paired
    cases o with
    | false => exact ⟨o', .ifElse hc h h'⟩
    | true =>
      obtain ⟨o'', h⟩ := h.attach rfl h'
      exact ⟨true, by simpa using Paired.ifThen hc h⟩
  | _, .returnVoid => ⟨false, .plain .returnVoid⟩
  | _, .returnValue he => ⟨false, .plain (.returnValue he)⟩
  | _, .expr he => ⟨false, .plain (.expr he)⟩

end Grammar

namespace Parse

open Cursor Grammar

variable {c r : Cursor} {k : TokenKind} {kr : Kinds} {n : Nat} {d e fs ks s : Kinds}

theorem Decl.startsDecl (h : Grammar.Decl d) (hc : c.kinds = d ++ kr) : c.startsDecl = true := by
  cases h with
  | plain hb | array hb =>
    simp only [Cursor.startsDecl, kind_of_kinds hc, nextKind_of_kinds hc]
    cases hb <;> rfl

theorem accepts_decl (h : Grammar.Decl d) (hc : c.kinds = d ++ kr) : Accepts kr (decl c) := by
  cases h with
  | plain hb =>
    obtain ⟨base, r₁, hbase, hr₁⟩ := typeName_of_base hb hc
    refine (hbase.accepts hr₁).bind fun base r _ hr => ?_
    simp only [accept?_eq_none (k := .arrayMark) (by rw [kind_of_kinds hr]; decide)]
    exact (accepts_expect hr).bind fun _ _ _ h => h
  | array hb =>
    obtain ⟨base, r₁, hbase, hr₁⟩ := typeName_of_base hb hc
    refine (hbase.accepts hr₁).bind fun base r _ hr => ?_
    obtain ⟨mark, r₂, hmark, hr₂⟩ := exists_takes hr
    simp only [hmark.accept?]
    exact (accepts_expect hr₂).bind fun _ _ _ h => h

theorem accepts_varDecl {d : OcCompiler.Decl} (he : Grammar.Expr e)
    (hc : c.kinds = .punct '=' :: (e ++ .punct ';' :: kr)) : Accepts kr (varDecl d c) := by
  refine (accepts_expect hc).bind fun _ r _ hr => ?_
  exact (accepts_expr he hr rfl).bind fun _ _ _ h => (accepts_expect h).bind fun _ _ _ h => h

theorem accepts_condition (h : Condition ks) (hc : c.kinds = ks ++ kr) : Accepts kr (condition c) := by
  obtain ⟨he⟩ := h
  simp only [List.cons_append, List.append_assoc, List.nil_append] at hc
  refine (accepts_expect hc).bind fun _ r _ hr => ?_
  exact (accepts_expr he hr rfl).bind fun _ _ _ h => (accepts_expect h).bind fun _ _ _ h => h

theorem accepts_stmt_of_plainStmt (hlead : stmtLead? c.kind = none) (h : Accepts ks (plainStmt c)) :
    Accepts ks (stmt c) := by
  rw [stmt]
  simpa [hlead] using h

theorem accepts_stmt_of_decl (hd : Grammar.Decl d) (he : Grammar.Expr e)
    (hc : c.kinds = d ++ .punct '=' :: (e ++ .punct ';' :: kr)) : Accepts kr (stmt c) := by
  refine accepts_stmt_of_plainStmt ?_ ?_
  · cases hd with
    | plain hb | array hb =>
      rw [kind_of_kinds hc]
      cases hb <;> rfl
  · rw [plainStmt, if_pos (Decl.startsDecl hd hc)]
    exact (accepts_decl hd hc).bind fun _ _ _ hr => (accepts_varDecl he hr).bind fun _ _ _ h => h

theorem accepts_stmt_of_expr (he : Grammar.Expr e) (hc : c.kinds = e ++ .punct ';' :: kr) :
    Accepts kr (stmt c) := by
  have hstarts : c.startsDecl = false := Starts.startsDecl (by rw [hc]; exact he.starts.append (by simp) (by simp))
  refine accepts_stmt_of_plainStmt ?_ ?_
  · obtain ⟨k, ks, rfl, hlead⟩ := he.starts.lead
    rw [kind_of_kinds hc]
    exact stmtLead?_of_lead? hlead
  · rw [plainStmt, hstarts]
    exact (accepts_expr he hc rfl).bind fun _ _ _ hr => (accepts_expect hr).bind fun _ _ _ h => h

theorem accepts_returnRest {mark : Lexeme} (he : Grammar.Expr e) (hc : c.kinds = e ++ .punct ';' :: kr) :
    Accepts kr (returnRest mark c) := by
  have hkind : c.kind ≠ .punct ';' := by
    obtain ⟨k, ks, rfl, hlead⟩ := he.starts.lead
    rw [kind_of_kinds hc]
    rintro rfl
    exact hlead rfl
  rw [returnRest]
  simp only [accept?_eq_none hkind]
  exact (accepts_expr he hc rfl).bind fun _ _ _ hr => (accepts_expect hr).bind fun _ _ _ h => h

def StmtsShorter (n : Nat) : Prop :=
  ∀ ks, ks.length < n → Grammar.Stmt ks → ∀ c k kr, c.kinds = ks ++ k :: kr → k ≠ .keyword .elseWord →
    Accepts (k :: kr) (stmt c)

theorem accepts_stmts (hn : StmtsShorter n) :
    ∀ {ss : Kinds}, Grammar.Stmts ss → ss.length < n → ∀ {c : Cursor},
      c.kinds = ss ++ .punct '\x7d' :: kr → Accepts kr (stmts c)
  | _, .nil, _, c, hc => by
    obtain ⟨close, r, hclose, hr⟩ := exists_takes hc
    rw [stmts, hclose.accept?]
    exact hr
  | _, @Stmts.cons s ss h hs, hlen, c, hc => by
    simp only [List.length_append] at hlen
    rw [List.append_assoc] at hc
    have hnext : ∃ k kr', ss ++ .punct '\x7d' :: kr = k :: kr' ∧ k ≠ .keyword .elseWord := by
      cases hs with
      | nil => exact ⟨_, _, rfl, nofun⟩
      | cons h' _ =>
        obtain ⟨k, ks', rfl, hopens, -⟩ := h'.opens
        exact ⟨k, _, rfl, hopens.elseWord⟩
    obtain ⟨k, kr', heq, helse⟩ := hnext
    have hopens : Opens c.kind := by
      obtain ⟨k, ks', rfl, hopens, -⟩ := h.opens
      rwa [kind_of_kinds hc]
    rw [stmts]
    simp only [accept?_eq_none hopens.brace, hopens.endOfFile, if_false]
    refine (hn s (by omega) h c k kr' (heq ▸ hc) helse).bind fun s' r _ hr => ?_
    rw [← heq] at hr
    exact (accepts_stmts hn hs (by omega) hr).bind fun _ _ _ h => h

theorem accepts_stmt_of_plain (hn : StmtsShorter n) (h : Plain s) (hlen : s.length ≤ n)
    (hc : c.kinds = s ++ kr) : Accepts kr (stmt c) := by
  cases h with
  | block h =>
    obtain ⟨hs⟩ := h
    simp only [List.cons_append, List.append_assoc, List.nil_append, List.length_cons, List.length_append,
      List.length_nil] at hc hlen
    obtain ⟨t, r, ⟨⟨near, hnext⟩, -⟩, hr⟩ := exists_takes hc
    rw [stmt, hnext, kind_of_kinds hc]
    exact (accepts_stmts hn hs (by omega) hr).bind fun _ _ _ h => h
  | empty =>
    obtain ⟨t, r, ⟨⟨near, hnext⟩, -⟩, hr⟩ := exists_takes hc
    rw [stmt, hnext, kind_of_kinds hc]
    exact hr
  | varDecl h =>
    obtain ⟨hd, he⟩ := h
    exact accepts_stmt_of_decl hd he (by simpa using hc)
  | returnVoid =>
    obtain ⟨t, r, ⟨⟨near, hnext⟩, -⟩, hr⟩ := exists_takes hc
    obtain ⟨semicolon, r', hsemicolon, hr'⟩ := exists_takes hr
    have hrest : Accepts kr (returnRest t.lexeme r) := by
      rw [returnRest, hsemicolon.accept?]
      exact hr'
    rw [stmt, hnext, kind_of_kinds hc]
    exact hrest.bind fun _ _ _ h => h
  | returnValue he =>
    simp only [List.cons_append, List.append_assoc, List.nil_append] at hc
    obtain ⟨t, r, ⟨⟨near, hnext⟩, -⟩, hr⟩ := exists_takes hc
    rw [stmt, hnext, kind_of_kinds hc]
    exact (accepts_returnRest he hr).bind fun _ _ _ h => h
  | expr he => exact accepts_stmt_of_expr he (by simpa using hc)

theorem accepts_stmt_of_paired (hn : StmtsShorter n) {o : Bool} (h : Paired o s) (hlen : s.length ≤ n)
    {c : Cursor} {k : TokenKind} {kr : Kinds} (hc : c.kinds = s ++ k :: kr) (hk : o = true → k ≠ .keyword .elseWord) :
    Accepts (k :: kr) (stmt c) := by
  induction h generalizing c k kr with
  | plain h => exact accepts_stmt_of_plain hn h hlen hc
  | whileLoop hcond _ ih =>
    simp only [List.cons_append, List.append_assoc] at hc
    simp only [List.cons_append, List.length_cons, List.length_append] at hlen
    obtain ⟨t, r, ⟨⟨near, hnext⟩, -⟩, hr⟩ := exists_takes hc
    rw [stmt, hnext, kind_of_kinds hc]
    refine (accepts_condition hcond hr).bind fun _ _ _ hr => ?_
    exact (ih (by omega) hr hk).bind fun _ _ _ h => h
  | ifThen hcond _ ih =>
    simp only [List.cons_append, List.append_assoc] at hc
    simp only [List.cons_append, List.length_cons, List.length_append] at hlen
    obtain ⟨t, r, ⟨⟨near, hnext⟩, -⟩, hr⟩ := exists_takes hc
    rw [stmt, hnext, kind_of_kinds hc]
    refine (accepts_condition hcond hr).bind fun _ _ _ hr => ?_
    refine (ih (by omega) hr fun _ => hk rfl).bind fun _ r _ hr => ?_
    simp only [accept?_eq_none (k := .keyword .elseWord) (by rw [kind_of_kinds hr]; exact hk rfl)]
    exact hr
  | ifElse hcond _ _ ih ih' =>
    simp only [List.cons_append, List.append_assoc] at hc
    simp only [List.cons_append, List.append_assoc, List.length_cons, List.length_append] at hlen
    obtain ⟨t, r, ⟨⟨near, hnext⟩, -⟩, hr⟩ := exists_takes hc
    rw [stmt, hnext, kind_of_kinds hc]
    refine (accepts_condition hcond hr).bind fun _ _ _ hr => ?_
    refine (ih (by omega) hr nofun).bind fun _ r _ hr => ?_
    obtain ⟨word, r', hword, hr'⟩ := exists_takes hr
    simp only [hword.accept?]
    exact (ih' (by omega) hr' hk).bind fun _ _ _ h => h

theorem stmtsShorter (n : Nat) : StmtsShorter n := by
  induction n with
  | zero =>
    intro ks hlen
    cases hlen
  | succ n ih =>
    intro ks hlen h c k kr hc hk
    obtain ⟨o, hpaired⟩ := h.paired
    exact accepts_stmt_of_paired ih hpaired (by omega) hc fun _ => hk

theorem accepts_stmt (h : Grammar.Stmt ks) (hc : c.kinds = ks ++ k :: kr) (hk : k ≠ .keyword .elseWord) :
    Accepts (k :: kr) (stmt c) :=
  stmtsShorter (ks.length + 1) ks (Nat.lt_succ_self _) h c k kr hc hk

theorem accepts_fields (h : Fields fs) {c : Cursor} (hc : c.kinds = fs ++ .punct '\x7d' :: kr) :
    Accepts kr (fields c) := by
  rw [fields]
  induction h generalizing c with
  | nil =>
    obtain ⟨close, r, hclose, hr⟩ := exists_takes hc
    rw [hclose.accept?]
    exact hr
  | cons hd _ ih =>
    have hkind : c.kind ≠ .punct '\x7d' := by
      obtain ⟨k, ks, rfl, hopens, -⟩ := hd.opens
      rw [kind_of_kinds hc]
      exact hopens.brace
    simp only [List.append_assoc, List.cons_append] at hc
    simp only [accept?_eq_none hkind]
    refine (accepts_decl hd hc).bind fun d _ _ hr => (accepts_expect hr).bind fun _ _ _ hr => ?_
    rw [fields]
    exact (ih hr).bind fun _ _ _ h => h

theorem accepts_struct (mark : Lexeme) (h : Fields fs)
    (hc : c.kinds = .name :: .punct '\x7b' :: (fs ++ .punct '\x7d' :: k :: kr)) :
    Accepts (if k = .punct ';' then kr else k :: kr) (struct mark c) := by
  refine (accepts_expect hc).bind fun tag _ _ hr => ?_
  refine (accepts_expect hr).bind fun _ _ _ hr => ?_
  refine (accepts_fields h hr).bind fun all r _ hr => ?_
  by_cases hk : k = .punct ';'
  · subst hk
    obtain ⟨semicolon, r', hsemicolon, hr'⟩ := exists_takes hr
    simp only [hsemicolon.accept?]
    exact hr'
  · simp only [accept?_eq_none (k := .punct ';') (by rw [kind_of_kinds hr]; exact hk), if_neg hk]
    exact hr

theorem accepts_moreParams {ds : Kinds} (h : Decls ds) {c : Cursor} (hc : c.kinds = ds ++ .punct ')' :: kr) :
    Accepts kr (moreParams c) := by
  rw [moreParams]
  induction h generalizing c with
  | one hd =>
    refine (accepts_decl hd hc).bind fun d r _ hr => ?_
    simp only [accept?_eq_none (k := .punct ',') (by rw [kind_of_kinds hr]; decide)]
    exact (accepts_expect hr).bind fun _ _ _ h => h
  | more hd _ ih =>
    simp only [List.append_assoc, List.cons_append] at hc
    refine (accepts_decl hd hc).bind fun d r _ hr => ?_
    obtain ⟨comma, r', hcomma, hr'⟩ := exists_takes hr
    simp only [hcomma.accept?]
    rw [moreParams]
    exact (ih hr').bind fun _ _ _ h => h

theorem accepts_params {ps : Kinds} (h : Params ps) (hc : c.kinds = ps ++ .punct ')' :: kr) :
    Accepts kr (params c) := by
  rw [params]
  cases h with
  | none =>
    obtain ⟨close, r, hclose, hr⟩ := exists_takes hc
    rw [hclose.accept?]
    exact hr
  | some hds =>
    have hkind : c.kind ≠ .punct ')' := by
      cases hds with
      | one hd | more hd _ =>
        cases hd with
        | plain hb | array hb =>
          simp only [List.append_assoc, List.cons_append] at hc
          rw [kind_of_kinds hc]
          cases hb <;> rintro ⟨⟩
    rw [accept?_eq_none hkind]
    exact accepts_moreParams hds hc

theorem accepts_item_of_decl (hd : Grammar.Decl d) (hc : c.kinds = d ++ k :: kr)
    (hfunction : k = .punct '(' → ∀ (d : OcCompiler.Decl) (paren : Lexeme) (r : Cursor), r.kinds = kr →
      Accepts ks (function d paren r))
    (hvar : k ≠ .punct '(' → ∀ (d : OcCompiler.Decl) (r : Cursor), r.kinds = k :: kr → Accepts ks (varDecl d r)) :
    Accepts ks (item c) := by
  have hstruct : c.kind ≠ .keyword .structWord := by
    obtain ⟨k, ks, rfl, hopens, -⟩ := hd.opens
    rw [kind_of_kinds hc]
    exact hopens.structWord
  rw [item]
  simp only [accept?_eq_none hstruct, Decl.startsDecl hd hc, if_true]
  refine (accepts_decl hd hc).bind fun d r _ hr => ?_
  by_cases hk : k = .punct '('
  · subst hk
    obtain ⟨paren, r', hparen, hr'⟩ := exists_takes hr
    simp only [hparen.accept?]
    exact (hfunction rfl d paren.lexeme r' hr').bind fun _ _ _ h => h
  · simp only [accept?_eq_none (k := .punct '(') (by rw [kind_of_kinds hr]; exact hk)]
    exact (hvar hk d r hr).bind fun _ _ _ h => h

theorem accepts_item_of_function (h : Function ks) (hc : c.kinds = ks ++ kr) : Accepts kr (item c) := by
  cases h with
  | prototype hd hps =>
    simp only [List.cons_append, List.append_assoc, List.nil_append] at hc
    refine accepts_item_of_decl hd hc (fun _ d paren r hr => ?_) (fun hne => absurd rfl hne)
    refine (accepts_params hps hr).bind fun all r _ hr => ?_
    obtain ⟨semicolon, r', hsemicolon, hr'⟩ := exists_takes hr
    simp only [hsemicolon.accept?]
    exact hr'
  | definition hd hps hb =>
    obtain ⟨hss⟩ := hb
    simp only [List.cons_append, List.append_assoc, List.nil_append] at hc
    refine accepts_item_of_decl hd hc (fun _ d paren r hr => ?_) (fun hne => absurd rfl hne)
    refine (accepts_params hps hr).bind fun all r _ hr => ?_
    obtain ⟨brace, r', hbrace, hr'⟩ := exists_takes hr
    simp only [accept?_eq_none (k := .punct ';') (by rw [kind_of_kinds hr]; decide), hbrace.accept?]
    exact (accepts_stmts (stmtsShorter _) hss (Nat.lt_succ_self _) hr').bind fun _ _ _ h => h

theorem accepts_item_of_stmt (h : Grammar.Stmt ks) (hc : c.kinds = ks ++ k :: kr)
    (hk : k ≠ .keyword .elseWord) : Accepts (k :: kr) (item c) := by
  have hstmt (hstarts : c.startsDecl = false) : Accepts (k :: kr) (item c) := by
    have hstruct : c.kind ≠ .keyword .structWord := by
      obtain ⟨k', ks', rfl, hopens, -⟩ := h.opens
      rw [kind_of_kinds hc]
      exact hopens.structWord
    rw [item]
    simp only [accept?_eq_none hstruct, hstarts, Bool.false_eq_true, if_false]
    exact (accepts_stmt h hc hk).bind fun _ _ _ h => h
  cases h with
  | varDecl h =>
    obtain ⟨hd, he⟩ := h
    simp only [List.cons_append, List.append_assoc, List.nil_append] at hc
    exact accepts_item_of_decl hd hc (fun heq => by simp at heq) fun _ d r hr => accepts_varDecl he hr
  | expr he =>
    rw [List.append_assoc] at hc
    exact hstmt (Starts.startsDecl (by rw [hc]; exact he.starts.append (by simp) (by simp)))
  | block h =>
    obtain ⟨-⟩ := h
    exact hstmt (by simp only [startsDecl, kind_of_kinds hc]; rfl)
  | empty | whileLoop | ifThen | ifElse | returnVoid | returnValue =>
    exact hstmt (by simp only [startsDecl, kind_of_kinds hc]; rfl)

theorem accepts_item (h : Grammar.Item ks) (hc : c.kinds = ks ++ k :: kr) (hk : k ≠ .keyword .elseWord) :
    Accepts (k :: kr) (item c) ∨ k = .punct ';' ∧ Accepts kr (item c) := by
  cases h with
  | struct h =>
    have hitem {fs ks : Kinds} {k : TokenKind} (hfs : Fields fs) (hc : c.kinds =
        .keyword .structWord :: .name :: .punct '\x7b' :: (fs ++ .punct '\x7d' :: k :: ks)) :
        Accepts (if k = .punct ';' then ks else k :: ks) (item c) := by
      obtain ⟨mark, r, hmark, hr⟩ := exists_takes hc
      rw [item]
      simp only [hmark.accept?]
      exact (accepts_struct mark.lexeme hfs hr).bind fun _ _ _ h => h
    cases h with
    | bare hfs =>
      have h := hitem hfs (by simpa using hc)
      split at h
      · rename_i hk
        exact .inr ⟨hk, h⟩
      · exact .inl h
    | closed hfs =>
      simp only [List.cons_append, List.append_assoc, List.nil_append] at hc
      exact .inl (hitem hfs hc)
  | function h => exact .inl (accepts_item_of_function h hc)
  | stmt h => exact .inl (accepts_item_of_stmt h hc hk)

end Parse

namespace Grammar

variable {ks : Kinds}

theorem Item.opens (h : Item ks) :
    ∃ k ks', ks = k :: ks' ∧ k ≠ .keyword .elseWord ∧ k ≠ .endOfFile ∧ (k = .punct ';' → ks' = []) := by
  cases h with
  | struct h => cases h <;> exact ⟨_, _, rfl, nofun, nofun, nofun⟩
  | function h =>
    cases h with
    | prototype hd | definition hd =>
      obtain ⟨k, ks', rfl, hopens, hne⟩ := hd.opens
      exact ⟨k, _, rfl, hopens.elseWord, hopens.endOfFile, fun h => absurd h hne⟩
  | stmt h =>
    obtain ⟨k, ks', rfl, hopens, hone⟩ := h.opens
    exact ⟨k, ks', rfl, hopens.elseWord, hopens.endOfFile, hone⟩

theorem Program.of_semicolon (h : Program (.punct ';' :: ks)) : Program ks := by
  generalize heq : .punct ';' :: ks = ks' at h
  cases h with
  | nil => cases heq
  | cons hi his =>
    obtain ⟨k, rest, rfl, -, -, hone⟩ := hi.opens
    cases heq
    rw [hone rfl]
    exact his

theorem Program.opens (h : Program ks) (kr : Kinds) :
    ∃ k kr', ks ++ .endOfFile :: kr = k :: kr' ∧ k ≠ .keyword .elseWord := by
  cases h with
  | nil => exact ⟨_, _, rfl, nofun⟩
  | cons hi _ =>
    obtain ⟨k, rest, rfl, helse, -⟩ := hi.opens
    exact ⟨k, _, rfl, helse⟩

end Grammar

theorem Program.failure_read_of_accepts (hend : c.kind ≠ .endOfFile)
    (hitem : Accepts ks (Parse.item c)) (hrest : ∀ r : Cursor, r.kinds = ks → (Program.read r).failure = none) :
    (Program.read c).failure = none := by
  rw [Program.read, if_neg hend]
  cases h : Parse.item c with
  | error f =>
    rw [h] at hitem
    exact hitem.elim
  | ok p =>
    rw [h] at hitem
    exact hrest p.2.1 hitem

theorem Program.failure_read_of_grammar (h : Grammar.Program ks) (kr : Grammar.Kinds)
    (hc : c.kinds = ks ++ .endOfFile :: kr) : (Program.read c).failure = none := by
  induction hm : ks.length using Nat.strongRecOn generalizing ks c with
  | ind m ih =>
    subst hm
    cases h with
    | nil => rw [Program.read, if_pos (Cursor.kind_of_kinds hc)]
    | @cons i is hi his =>
      rw [List.append_assoc] at hc
      obtain ⟨k, kr', heq, helse⟩ := his.opens kr
      have hread := Parse.accepts_item hi (heq ▸ hc) helse
      obtain ⟨k', rest, rfl, -, hend, -⟩ := hi.opens
      rw [← Cursor.kind_of_kinds hc] at hend
      simp only [List.cons_append, List.length_cons, List.length_append] at ih
      rcases hread with hread | ⟨rfl, hread⟩
      · exact failure_read_of_accepts hend hread fun r hr => ih is.length (by omega) his (hr.trans heq.symm) rfl
      · -- the item is a struct, and the next item is the semicolon that was taken with it
        cases is with
        | nil => cases heq
        | cons k'' is' =>
          cases heq
          exact failure_read_of_accepts hend hread fun r hr =>
            ih is'.length (by simp only [List.length_cons]; omega) his.of_semicolon hr rfl

theorem Cursor.Spans.eq_of_ofTokens {tokens ts : List Token} {last : Token} {r : Cursor}
    (h : (Cursor.ofTokens (tokens ++ [last])).Spans ts r) (htokens : ∀ t ∈ tokens, t.kind ≠ .endOfFile)
    (hend : r.kind = .endOfFile) : ts = tokens := by
  obtain ⟨t, us, hr, ht⟩ : ∃ t us, r.ahead = t :: us ∧ t.kind = .endOfFile := by
    obtain ⟨ahead, last, again⟩ := r
    cases ahead with
    | nil => exact absurd h.closed nofun
    | cons t us => exact ⟨t, us, rfl, hend⟩
  have hahead : tokens ++ [last] = ts ++ t :: us := hr ▸ h.ahead
  rcases List.append_eq_append_iff.mp hahead with ⟨more, rfl, hmore⟩ | ⟨more, rfl, hmore⟩
  · cases more with
    | nil => simp
    | cons u more => simp at hmore
  · cases more with
    | nil => simp
    | cons u more =>
      simp only [List.cons_append, List.cons.injEq] at hmore
      exact absurd (hmore.1 ▸ ht) (htokens u (by simp))

/-- A token list in which only the last token ends the file is read exactly when the tokens before it follow the
    grammar. In the grammar, the expressions are operands joined by operators, whatever their priorities. -/
theorem Tree.parse_ok_iff_grammar (tokens : List Token) (last : Token) (hlast : last.kind = .endOfFile)
    (htokens : ∀ t ∈ tokens, t.kind ≠ .endOfFile) :
    ((∃ n t, Tree.empty.parse (tokens ++ [last]) = (.ok n, t)) ↔ Grammar.Program (tokens.map Token.kind)) ∧
      ∀ ks, Grammar.Expr ks ↔ Grammar.Sequence ks := by
  refine ⟨?_, fun ks => Grammar.expr_iff_sequence⟩
  rw [Tree.parse_ok_iff, Program.ofTokens]
  constructor
  · intro h
    have hclosed : (Cursor.ofTokens (tokens ++ [last])).Closed := ⟨last, by simp [Cursor.ofTokens], hlast⟩
    obtain ⟨ts, r, hts, hend, hgrammar, -⟩ := Program.spans_read hclosed h
    rw [← hts.eq_of_ofTokens htokens hend]
    exact hgrammar
  · intro h
    exact Program.failure_read_of_grammar h [] (by simp [Cursor.kinds, Cursor.ofTokens, hlast])

/-- An `else` behind two `if`s is read, and two names in a row are not. -/
theorem Tree.parse_ok_iff_grammar_else :
    let token (kind : TokenKind) : Token := ⟨kind, "", 0, 1, 0⟩
    let condition : List TokenKind := [.keyword .ifWord, .punct '(', .name, .punct ')']
    let good := condition ++ condition ++ [.name, .punct '(', .punct ')', .punct ';', .keyword .elseWord, .punct ';']
    let bad : List TokenKind := [.name, .name, .punct ';']
    (∃ n t, Tree.empty.parse (good.map token ++ [token .endOfFile]) = (.ok n, t)) ∧ Grammar.Program good ∧
      ¬Grammar.Program bad := by
  intro token condition good bad
  have hroot : (Tree.empty.parse (good.map token ++ [token .endOfFile])).1.toOption = some .root := by decide +kernel
  have hgood : ∃ n t, Tree.empty.parse (good.map token ++ [token .endOfFile]) = (.ok n, t) := by
    match hread : Tree.empty.parse (good.map token ++ [token .endOfFile]) with
    | (.ok n, t) => exact ⟨n, t, rfl⟩
    | (.error _, _) =>
      rw [hread] at hroot
      cases hroot
  have hbad : (Tree.empty.parse (bad.map token ++ [token .endOfFile])).1.toOption = none := by decide +kernel
  refine ⟨hgood, ?_, ?_⟩
  · exact (Tree.parse_ok_iff_grammar (good.map token) (token .endOfFile) rfl (by decide)).1.mp hgood
  · intro h
    obtain ⟨n, t, hparse⟩ := (Tree.parse_ok_iff_grammar (bad.map token) (token .endOfFile) rfl (by decide)).1.mpr h
    rw [hparse] at hbad
    cases hbad

end OcCompiler
