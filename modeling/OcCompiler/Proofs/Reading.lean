import OcCompiler.Program.Parse

/-! What it takes to read an expression: which parts there are, where they end, and how the next token is passed. -/

namespace OcCompiler

namespace Cursor

variable {c r : Cursor} {t : Token} {k : TokenKind} {r' : Cursor} {t' : Token}

def Passes (c : Cursor) (t : Token) (r : Cursor) : Prop := ∃ h, c.next? = some (t, ⟨r, h⟩)

def Takes (c : Cursor) (kind : TokenKind) (t : Token) (r : Cursor) : Prop := c.Passes t r ∧ t.kind = kind

theorem Passes.size (h : c.Passes t r) : r.size < c.size := h.1

theorem Passes.current (h : c.Passes t r) : c.current = t := by
  obtain ⟨near, h⟩ := h
  unfold next? at h
  split at h
  · cases h
    rfl
  · cases h
    rfl
  · cases h

theorem Passes.kind (h : c.Passes t r) : c.kind = t.kind := by rw [Cursor.kind, h.current]

theorem Passes.unique (h : c.Passes t r) (h' : c.Passes t' r') : t' = t ∧ r' = r := by
  obtain ⟨near, h⟩ := h
  obtain ⟨near', h'⟩ := h'
  rw [h] at h'
  cases h'
  exact ⟨rfl, rfl⟩

theorem Takes.kind (h : c.Takes k t r) : c.kind = k := h.1.kind.trans h.2

theorem Takes.unique (h : c.Takes k t r) (h' : c.Takes k t' r') : t' = t ∧ r' = r :=
  h.1.unique h'.1

theorem exists_passes (h : c.kind ≠ .endOfFile) : ∃ t r, c.Passes t r := by
  obtain ⟨ahead, last, again⟩ := c
  unfold Passes next?
  match ahead, again, h with
  | t :: ts, again, _ =>
    exact ⟨t, ⟨ts, last, again⟩, by simp only [size, List.length_cons]; omega, rfl⟩
  | [], again + 1, _ =>
    exact ⟨last, ⟨[], last, again⟩, by simp only [size]; omega, rfl⟩
  | [], 0, h => exact absurd rfl h

theorem Passes.iff (h : c.Passes t r) : c.Passes t' r' ↔ t' = t ∧ r' = r :=
  ⟨h.unique, by rintro ⟨rfl, rfl⟩; exact h⟩

theorem next?_cases (c : Cursor) :
    (∃ t r near, c.next? = some (t, ⟨r, near⟩) ∧ c.Passes t r) ∨ c.next? = none ∧ c.kind = .endOfFile := by
  cases h : c.next? with
  | some p => exact .inl ⟨p.1, p.2.1, p.2.2, rfl, p.2.2, h⟩
  | none =>
    refine .inr ⟨rfl, Decidable.byContradiction fun hkind => ?_⟩
    obtain ⟨t, r, near, hpass⟩ := exists_passes hkind
    rw [h] at hpass
    cases hpass

theorem accept?_eq_some_iff {r : c.Shorter} : c.accept? k = some (t, r) ↔ c.Takes k t r.1 := by
  obtain ⟨r, near⟩ := r
  simp only [accept?, Option.filter_eq_some_iff, Takes, Passes, beq_iff_eq]
  exact and_congr_left fun _ => ⟨fun h => ⟨near, h⟩, fun ⟨_, h⟩ => h⟩

theorem kind_ne_of_accept? (h : c.accept? k = none) (hk : k ≠ .endOfFile) : c.kind ≠ k := by
  rintro rfl
  obtain ⟨t, r, hpass⟩ := exists_passes hk
  have hsome := accept?_eq_some_iff (r := ⟨r, hpass.size⟩).mpr ⟨hpass, hpass.kind.symm⟩
  rw [h] at hsome
  cases hsome

theorem Takes.iff (h : c.Takes k t r) : c.Takes k t' r' ↔ t' = t ∧ r' = r :=
  ⟨h.unique, by rintro ⟨rfl, rfl⟩; exact h⟩

theorem not_takes (h : c.kind ≠ k) : ¬c.Takes k t r := fun ht => h ht.kind

theorem Takes.accept? (h : c.Takes k t r) : c.accept? k = some (t, ⟨r, h.1.size⟩) := accept?_eq_some_iff.mpr h

theorem accept?_eq_none (h : c.kind ≠ k) : c.accept? k = none := by
  cases hacc : c.accept? k with
  | none => rfl
  | some p => exact absurd (accept?_eq_some_iff.mp hacc).kind h

theorem accept?_cases (c : Cursor) (hk : k ≠ .endOfFile) :
    (∃ t r near, c.accept? k = some (t, ⟨r, near⟩) ∧ c.Takes k t r) ∨ c.accept? k = none ∧ c.kind ≠ k := by
  cases h : c.accept? k with
  | some p => exact .inl ⟨p.1, p.2.1, p.2.2, rfl, accept?_eq_some_iff.mp h⟩
  | none => exact .inr ⟨rfl, kind_ne_of_accept? h hk⟩

end Cursor

def Yields {α : Type} {P : Cursor → Prop} (p : Except Failure (α × { r : Cursor // P r })) (x : α) (r : Cursor) : Prop :=
  ∃ h, p = .ok (x, ⟨r, h⟩)

section Yields

variable {α β : Type} {P Q : Cursor → Prop} {x y : α} {r s : Cursor}

theorem Yields.bound {p : Except Failure (α × { r : Cursor // P r })} (h : Yields p x r) : P r := h.1

@[simp] theorem yields_ok {q : α × { r : Cursor // P r }} :
    Yields (.ok q : Except Failure (α × { r : Cursor // P r })) x r ↔ x = q.1 ∧ r = q.2.1 := by
  obtain ⟨y, s, hs⟩ := q
  constructor
  · rintro ⟨h, heq⟩
    cases heq
    exact ⟨rfl, rfl⟩
  · rintro ⟨rfl, rfl⟩
    exact ⟨hs, rfl⟩

@[simp] theorem yields_pure {q : α × { r : Cursor // P r }} :
    Yields (pure q : Except Failure (α × { r : Cursor // P r })) x r ↔ x = q.1 ∧ r = q.2.1 := yields_ok

@[simp] theorem not_yields_error {f : Failure} : ¬Yields (.error f : Except Failure (α × { r : Cursor // P r })) x r := by
  rintro ⟨_, h⟩
  cases h

@[simp] theorem not_yields_throw {f : Failure} : ¬Yields (throw f : Except Failure (α × { r : Cursor // P r })) x r :=
  not_yields_error

@[simp] theorem yields_bind {p : Except Failure (α × { r : Cursor // P r })}
    {f : α × { r : Cursor // P r } → Except Failure (β × { r : Cursor // Q r })} {y : β} :
    Yields (p >>= f) y s ↔ ∃ x r, ∃ h : Yields p x r, Yields (f (x, ⟨r, h.bound⟩)) y s := by
  cases p with
  | error e =>
    refine ⟨fun h => absurd h not_yields_error, ?_⟩
    rintro ⟨x, r, h, -⟩
    exact absurd h not_yields_error
  | ok q =>
    constructor
    · intro hy
      exact ⟨q.1, q.2.1, ⟨q.2.2, rfl⟩, hy⟩
    · rintro ⟨x, r, ⟨h, hq⟩, hy⟩
      cases hq
      exact hy

@[simp] theorem yields_expect {c r : Cursor} {kind : TokenKind} {t : Token} :
    Yields (c.expect kind) t r ↔ c.Takes kind t r := by
  unfold Cursor.expect
  cases hacc : c.accept? kind with
  | some found =>
    have ht := Cursor.accept?_eq_some_iff.mp hacc
    simp [ht.iff]
  | none =>
    refine iff_of_false not_yields_error fun ht => ?_
    rw [ht.accept?] at hacc
    cases hacc

end Yields

namespace Parse

open Cursor

variable {c r : Cursor} {e : Expr} {level : Nat}

theorem yields_typeName {b : TypeName} :
    Yields (typeName c) b r ↔
      ∃ t, c.Passes t r ∧ ((∃ s, t.kind = .scalar s ∧ b = .scalar s t.lexeme) ∨ t.kind = .name ∧ b = .struct t.lexeme) := by
  unfold typeName
  rcases c.next?_cases with ⟨t, r', near, hnext, hpass⟩ | ⟨hnext, hend⟩
  · simp only [hnext, hpass.iff]
    split
    · rename_i s hs
      simp [hs, and_assoc, and_comm (a := r = r')]
    · rename_i hname
      simp [hname, and_assoc, and_comm (a := r = r')]
    · simp_all
  · simp [hnext, Passes]

theorem yields_expr :
    Yields (expr level c) e r ↔ ∃ left r', Yields (operand c) left r' ∧ Yields (climb level left r') e r := by
  simp [expr, -bind_pure_comp]

/-- How an operand goes on behind its first token, and where it ends. -/
inductive OperandRest (t : Token) (c : Cursor) : Expr → Cursor → Prop where
  | name (h : lead? t.kind = some .name) : OperandRest t c (.name t.lexeme) c
  | constant {q} (h : lead? t.kind = some (.constant q)) : OperandRest t c (.constant q t.lexeme) c
  | unary {op e r} (h : lead? t.kind = some (.unary op)) (he : Yields (expr Binding.unaryLevel c) e r) :
      OperandRest t c (.unary op t.lexeme e) r
  | paren {e r₁ close r} (h : lead? t.kind = some .paren) (he : Yields (expr 0 c) e r₁)
      (hclose : r₁.Takes (.punct ')') close r) : OperandRest t c e r
  | newString {word r₁ paren r₂ size r₃ close r} (h : lead? t.kind = some .new) (hword : c.Takes (.scalar .string) word r₁)
      (hparen : r₁.Takes (.punct '(') paren r₂) (hnext : c.nextKind = .punct '(') (hsize : Yields (expr 0 r₂) size r₃)
      (hclose : r₃.Takes (.punct ')') close r) : OperandRest t c (.newString t.lexeme size) r
  | newStruct {tag r₁ paren r₂ close r} (h : lead? t.kind = some .new) (htag : c.Takes .name tag r₁)
      (hparen : r₁.Takes (.punct '(') paren r₂) (hnext : c.nextKind = .punct '(')
      (hclose : r₂.Takes (.punct ')') close r) : OperandRest t c (.newStruct t.lexeme tag.lexeme) r
  | newArray {element r₁ bracket r₂ size r₃ close r} (h : lead? t.kind = some .new)
      (hstring : ¬(c.kind = .scalar .string ∧ c.nextKind = .punct '('))
      (hstruct : ¬(c.kind = .name ∧ c.nextKind = .punct '(')) (helement : Yields (typeName c) element r₁)
      (hbracket : r₁.Takes (.punct '[') bracket r₂) (hsize : Yields (expr 0 r₂) size r₃)
      (hclose : r₃.Takes (.punct ']') close r) : OperandRest t c (.newArray element t.lexeme size) r

theorem lead?_kind_of_operand (h : Yields (operand c) e r) : lead? c.kind ≠ none := by
  intro hnone
  rw [operand] at h
  rcases c.next?_cases with ⟨t, r', near, hnext, hpass⟩ | ⟨hnext, hend⟩
  · rw [hpass.kind] at hnone
    simp [hnext, hnone] at h
  · simp [hnext] at h

theorem yields_operand {t : Token} {r' : Cursor} (ht : c.Passes t r') (h : OperandRest t r' e r) : Yields (operand c) e r := by
  obtain ⟨near, hnext⟩ := ht
  rw [operand, hnext]
  cases h with
  | name h | constant h => simp [h]
  | unary h he => simpa [h, -bind_pure_comp] using he
  | paren h he hclose =>
    simp only [h, yields_bind, yields_expect, yields_pure, exists_prop]
    exact ⟨_, _, he, _, _, hclose, rfl, rfl⟩
  | newString h hword hparen hnext hsize hclose =>
    simp only [h, hword.kind, hnext, true_and, if_true, yields_bind, yields_expect, yields_pure, exists_prop]
    exact ⟨_, _, hword, _, _, hparen, _, _, hsize, _, _, hclose, rfl, rfl⟩
  | newStruct h htag hparen hnext hclose =>
    simp only [h, htag.kind, hnext, true_and, reduceCtorEq, false_and, if_false, if_true, yields_bind, 
      yields_expect, yields_pure, exists_prop]
    exact ⟨_, _, htag, _, _, hparen, _, _, hclose, rfl, rfl⟩
  | newArray h hstring hstruct helement hbracket hsize hclose =>
    simp only [h, hstring, hstruct, if_false, yields_bind, yields_expect, yields_pure, exists_prop]
    exact ⟨_, _, helement, _, _, hbracket, _, _, hsize, _, _, hclose, rfl, rfl⟩

def Stops (level : Nat) (left : Expr) (c : Cursor) : Prop :=
  ∀ next, c.kind.continuation? = some next → next.binding.level < level ∨ next = .call ∧ ∀ x, left ≠ .name x

inductive ClimbRest (level : Nat) (left : Expr) (c : Cursor) : Expr → Cursor → Prop where
  | stop (h : Stops level left c) : ClimbRest level left c left c
  | call {callee t r₁ args r₂ e r} (hleft : left = .name callee) (ht : c.Passes t r₁)
      (hkind : t.kind.continuation? = some .call) (hlevel : level ≤ Binding.suffixLevel)
      (hargs : Yields (callArgs r₁) args r₂)
      (hrest : Yields (climb level (.call callee t.lexeme args) r₂) e r) : ClimbRest level left c e r
  | subscript {t r₁ subscript r₂ close r₃ e r} (ht : c.Passes t r₁) (hkind : t.kind.continuation? = some .subscript)
      (hlevel : level ≤ Binding.suffixLevel) (hsubscript : Yields (expr 0 r₁) subscript r₂)
      (hclose : r₂.Takes (.punct ']') close r₃) (hrest : Yields (climb level (.index left t.lexeme subscript) r₃) e r) :
      ClimbRest level left c e r
  | selection {t r₁ field r₂ e r} (ht : c.Passes t r₁) (hkind : t.kind.continuation? = some .selection)
      (hlevel : level ≤ Binding.suffixLevel) (hfield : r₁.Takes .name field r₂)
      (hrest : Yields (climb level (.select left t.lexeme field.lexeme) r₂) e r) : ClimbRest level left c e r
  | operator {t r₁ op right r₂ e r} (ht : c.Passes t r₁) (hkind : t.kind.continuation? = some (.operator op))
      (hlevel : level ≤ op.binding.level) (hright : Yields (expr op.binding.operandLevel r₁) right r₂)
      (hrest : Yields (climb level (.binary op left t.lexeme right) r₂) e r) : ClimbRest level left c e r

theorem yields_climb {left : Expr} (h : ClimbRest level left c e r) : Yields (climb level left c) e r := by
  rw [climb]
  have hgo {t : Token} {r₁ : Cursor} {next : Continuation} (ht : c.Passes t r₁) (hkind : t.kind.continuation? = some next) :
      c.next? = some (t, ⟨r₁, ht.1⟩) ∧ c.kind.continuation? = some next := ⟨ht.2, ht.kind ▸ hkind⟩
  cases h with
  | stop hstops =>
    rcases c.next?_cases with ⟨t, r', near, hnext, -⟩ | ⟨hnext, -⟩
    · cases hkind : c.kind.continuation? with
      | none => simp [hnext]
      | some next =>
        rcases hstops next hkind with hlow | ⟨rfl, hleft⟩
        · simp [hnext, hlow]
        · simp [hnext]
    · simp [hnext]
  | call hleft ht hkind hlevel hargs hrest =>
    subst hleft
    simp only [hgo ht hkind, Continuation.binding, Nat.not_lt.mpr hlevel, if_false, yields_bind, yields_pure, exists_prop]
    exact ⟨_, _, hargs, _, _, hrest, rfl, rfl⟩
  | subscript ht hkind hlevel hsubscript hclose hrest =>
    simp only [hgo ht hkind, Continuation.binding, Nat.not_lt.mpr hlevel, if_false, yields_bind, yields_expect,
      yields_pure, exists_prop]
    exact ⟨_, _, hsubscript, _, _, hclose, _, _, hrest, rfl, rfl⟩
  | selection ht hkind hlevel hfield hrest =>
    simp only [hgo ht hkind, Continuation.binding, Nat.not_lt.mpr hlevel, if_false, yields_bind, yields_expect,
      yields_pure, exists_prop]
    exact ⟨_, _, hfield, _, _, hrest, rfl, rfl⟩
  | operator ht hkind hlevel hright hrest =>
    simp only [hgo ht hkind, Continuation.binding, Nat.not_lt.mpr hlevel, if_false, yields_bind, yields_pure, exists_prop]
    exact ⟨_, _, hright, _, _, hrest, rfl, rfl⟩

theorem yields_callArgs {args : List Expr} :
    Yields (callArgs c) args r ↔
      (args = [] ∧ ∃ close, c.Takes (.punct ')') close r) ∨ c.kind ≠ .punct ')' ∧ Yields (moreArgs c) args r := by
  rw [callArgs]
  rcases c.accept?_cases (k := .punct ')') (by decide) with ⟨t, r', near, hacc, ht⟩ | ⟨hacc, hkind⟩
  · simp [hacc, ht.iff, ht.kind]
  · simp [hacc, hkind, not_takes hkind]

theorem yields_moreArgs {args : List Expr} :
    Yields (moreArgs c) args r ↔
      ∃ arg r₁, Yields (expr 0 c) arg r₁ ∧
        ((∃ comma r₂ more, r₁.Takes (.punct ',') comma r₂ ∧ args = arg :: more ∧ Yields (moreArgs r₂) more r) ∨
          r₁.kind ≠ .punct ',' ∧ args = [arg] ∧ ∃ close, r₁.Takes (.punct ')') close r) := by
  rw [moreArgs]
  simp only [yields_bind]
  refine exists_congr fun arg => exists_congr fun r₁ => ?_
  rcases r₁.accept?_cases (k := .punct ',') (by decide) with ⟨t, r', near, hacc, ht⟩ | ⟨hacc, hkind⟩
  · simp [hacc, ht.iff, ht.kind, and_assoc, -bind_pure_comp]
  · simp [hacc, hkind, not_takes hkind, and_left_comm, -bind_pure_comp]

end Parse

end OcCompiler
