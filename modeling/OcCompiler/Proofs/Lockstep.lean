import OcCompiler.Proofs.Forward
import OcCompiler.Proofs.Unplaced

/-! Reading in lockstep. Two token lists that agree up to places, from their beginnings to some token, are read by the
    same steps as long as that token is not passed, and both readings fail alike. -/

namespace OcCompiler

/-- Two token lists that agree up to places, from their beginnings to the token at `last`. -/
structure Window where
  left : List Token
  right : List Token
  last : Nat
  closed : ∃ t ∈ left.drop last, t.kind = .endOfFile
  alike : (left.take (last + 1)).map Token.unplaced = (right.take (last + 1)).map Token.unplaced

theorem Cursor.Passes.ahead {c r : Cursor} {t u : Token} {us : List Token} (h : c.Passes t r) (hc : c.ahead = u :: us) :
    r.ahead = us := by
  obtain ⟨near, hnext⟩ := h
  obtain ⟨ahead, last, again⟩ := c
  subst hc
  cases hnext
  rfl

theorem Cursor.accept?_eq_none_of_end {c : Cursor} {k : TokenKind} [hk : k.Inner] (h : c.kind = .endOfFile) :
    c.accept? k = none := by
  cases hsome : c.accept? k with
  | none => rfl
  | some found => exact absurd ((accept?_eq_some_iff.mp hsome).kind.symm.trans h) hk.ne_end

theorem Cursor.getElem?_current {c : Cursor} {ts : List Token} {i : Nat} (hi : i < ts.length)
    (hc : c.ahead = ts.drop i) : ts[i]? = some c.current := by
  have hcurrent : c.current = ts[i] := by rw [Cursor.current, hc, List.drop_eq_getElem_cons hi]
  rw [hcurrent, List.getElem?_eq_getElem hi]

namespace Window

variable (w : Window)

def behind : Nat := w.left.length - (w.last + 1)

def Beside (c c' : Cursor) : Prop :=
  ∃ i, i ≤ w.last ∧ c.ahead = w.left.drop i ∧ c'.ahead = w.right.drop i

def Abreast (c c' : Cursor) : Prop := w.Beside c c' ∨ c.Behind w.behind

variable {w} {c c' r r' : Cursor} {i : Nat}

theorem lt : w.last < w.left.length := by
  obtain ⟨t, ht, -⟩ := w.closed
  have hpos := List.length_pos_of_mem ht
  rw [List.length_drop] at hpos
  omega

theorem lt_right : w.last < w.right.length := by
  have hlength := congrArg List.length w.alike
  have hlt := w.lt
  simp only [List.length_map, List.length_take] at hlength
  omega

theorem get? (hi : i ≤ w.last) : w.left[i]?.map Token.unplaced = w.right[i]?.map Token.unplaced := by
  have hget := congrArg (·[i]?) w.alike
  simpa [List.getElem?_take, Nat.lt_succ_of_le hi] using hget

namespace Beside

theorem closed (h : w.Beside c c') : c.Closed := by
  obtain ⟨i, hi, hc, -⟩ := h
  obtain ⟨t, ht, hend⟩ := w.closed
  refine ⟨t, ?_, hend⟩
  rw [hc]
  exact (List.drop_sublist_drop_left _ hi).subset ht

theorem current (h : w.Beside c c') : c.current.unplaced = c'.current.unplaced := by
  obtain ⟨i, hi, hc, hc'⟩ := h
  have hget := w.get? hi
  rw [Cursor.getElem?_current (Nat.lt_of_le_of_lt hi w.lt) hc,
    Cursor.getElem?_current (Nat.lt_of_le_of_lt hi w.lt_right) hc'] at hget
  exact Option.some.inj hget

theorem kind (h : w.Beside c c') : c.kind = c'.kind := (Token.unplaced_eq_iff.mp h.current).1

theorem nextKind (h : w.Beside c c') :
    c.nextKind = c'.nextKind ∨ c.Behind (w.behind + 1) := by
  have hnext (c : Cursor) : c.nextKind = (c.ahead[1]?.map Token.kind).getD .endOfFile := by
    obtain ⟨ahead, last, again⟩ := c
    match ahead with
    | [] | [_] | _ :: _ :: _ => rfl
  have hclosed := h.closed
  obtain ⟨i, hi, hc, hc'⟩ := h
  rcases Nat.lt_or_eq_of_le hi with hi | rfl
  · left
    have hget := congrArg (Option.map Token.kind) (w.get? hi)
    rw [hnext, hnext, hc, hc', List.getElem?_drop, List.getElem?_drop]
    simpa [Function.comp_def, Token.unplaced] using congrArg (Option.getD · TokenKind.endOfFile) hget
  · refine .inr ⟨?_, hclosed⟩
    rw [hc, List.length_drop, behind]
    omega

theorem announces (h : w.Beside c c') :
    (∀ k next, Grammar.Base k → (c.kind = k ∧ c.nextKind = next ↔ c'.kind = k ∧ c'.nextKind = next)) ∨
      c.Behind (w.behind + 1) ∧ Grammar.Base c.kind := by
  rcases h.nextKind with hsame | hlast
  · exact .inl fun k next _ => by rw [h.kind, hsame]
  · by_cases hbase : Grammar.Base c.kind
    · exact .inr ⟨hlast, hbase⟩
    · refine .inl fun k next hk => iff_of_false (fun hc => hbase (hc.1 ▸ hk)) fun hc => hbase ?_
      rw [h.kind, hc.1]
      exact hk

theorem startsDecl (h : w.Beside c c') :
    c.startsDecl = c'.startsDecl ∨ c.Behind (w.behind + 1) ∧ Grammar.Base c.kind := by
  refine h.announces.imp_left fun hsame => ?_
  have hname (next : TokenKind) := hsame .name next .struct
  rw [Bool.eq_iff_iff]
  simp only [Cursor.startsDecl, Bool.or_eq_true, Bool.and_eq_true, beq_iff_eq, and_or_left, hname]
  rw [h.kind]

theorem next? (h : w.Beside c c') :
    (c.kind = .endOfFile ∧ c'.kind = .endOfFile) ∨
      ∃ t t' r r' near near', c.next? = some (t, ⟨r, near⟩) ∧ c'.next? = some (t', ⟨r', near'⟩) ∧
        t.unplaced = t'.unplaced ∧ w.Abreast r r' := by
  have hkind := h.kind
  by_cases hend : c.kind = .endOfFile
  · exact .inl ⟨hend, hkind ▸ hend⟩
  · right
    obtain ⟨t, r, hpass⟩ := Cursor.exists_passes hend
    obtain ⟨t', r', hpass'⟩ := Cursor.exists_passes (hkind ▸ hend)
    have hcurrent := h.current
    rw [hpass.current, hpass'.current] at hcurrent
    have hclosed := (hpass.spans h.closed (hpass.kind ▸ hend)).closed
    obtain ⟨i, hi, hc, hc'⟩ := h
    have hr := hpass.ahead (hc.trans (List.drop_eq_getElem_cons (Nat.lt_of_le_of_lt hi w.lt)))
    have hr' := hpass'.ahead (hc'.trans (List.drop_eq_getElem_cons (Nat.lt_of_le_of_lt hi w.lt_right)))
    obtain ⟨near, hnext⟩ := hpass
    obtain ⟨near', hnext'⟩ := hpass'
    refine ⟨t, t', r, r', near, near', hnext, hnext', hcurrent, ?_⟩
    rcases Nat.lt_or_eq_of_le hi with hi | rfl
    · exact .inl ⟨i + 1, hi, hr, hr'⟩
    · exact .inr ⟨Nat.le_of_eq (by rw [hr, List.length_drop, behind]), hclosed⟩

theorem accept? (h : w.Beside c c') (k : TokenKind) [k.Inner] :
    (c.accept? k = none ∧ c'.accept? k = none) ∨
      ∃ t t' r r' near near', c.accept? k = some (t, ⟨r, near⟩) ∧ c'.accept? k = some (t', ⟨r', near'⟩) ∧
        t.unplaced = t'.unplaced ∧ w.Abreast r r' := by
  rcases h.next? with ⟨hend, hend'⟩ | ⟨t, t', r, r', near, near', hnext, hnext', ht, hr⟩
  · exact .inl ⟨Cursor.accept?_eq_none_of_end hend, Cursor.accept?_eq_none_of_end hend'⟩
  · have hkind : t.kind = t'.kind := (Token.unplaced_eq_iff.mp ht).1
    unfold Cursor.accept?
    rw [hnext, hnext']
    by_cases hk : t.kind = k
    · exact .inr ⟨t, t', r, r', near, near', by simp [Option.filter, hk], by simp [Option.filter, ← hkind, hk], ht, hr⟩
    · exact .inl ⟨by simp [Option.filter, hk], by simp [Option.filter, ← hkind, hk]⟩

end Beside

end Window

section Agree

variable {α β : Type} {P P' Q Q' : Cursor → Prop} {w : Window}

/-- Both readings give the same up to places and end side by side, or both fail side by side and expect the same, or the
    first one passes all tokens that count. -/
inductive Agree (w : Window) (u : α → α) :
    Except Failure (α × { r : Cursor // P r }) → Except Failure (α × { r : Cursor // P' r }) → Prop where
  | ok {x x' r r'} (hx : u x = u x') (hr : w.Beside r.1 r'.1) : Agree w u (.ok (x, r)) (.ok (x', r'))
  | error {f f'} (hexpected : f.expected = f'.expected) (hstop : w.Beside f.stop f'.stop) :
    Agree w u (.error f) (.error f')
  | past {p p'} (hp : Leaves w.behind p) : Agree w u p p'

variable {u : α → α} {v : β → β} {p : Except Failure (α × { r : Cursor // P r })}
  {p' : Except Failure (α × { r : Cursor // P' r })}

theorem Window.Abreast.agree {c c' : Cursor} (h : w.Abreast c c') (hbeside : w.Beside c c' → Agree w u p p')
    (hpast : c.Behind w.behind → Leaves w.behind p) : Agree w u p p' := by
  rcases h with h | h
  · exact hbeside h
  · exact .past (hpast h)

namespace Agree

theorem pure {x x' : α} {r : { r : Cursor // P r }} {r' : { r : Cursor // P' r }} (hx : u x = u x')
    (hr : w.Abreast r.1 r'.1) : Agree w u (.ok (x, r)) (.ok (x', r')) :=
  hr.agree (.ok hx) id

theorem bind {f : α × { r : Cursor // P r } → Except Failure (β × { r : Cursor // Q r })}
    {f' : α × { r : Cursor // P' r } → Except Failure (β × { r : Cursor // Q' r })} (h : Agree w u p p')
    (hf : ∀ x x' r r' near near', u x = u x' → w.Beside r r' →
      Agree w v (f (x, ⟨r, near⟩)) (f' (x', ⟨r', near'⟩)))
    (hpast : ∀ x r near, r.Behind w.behind → Leaves w.behind (f (x, ⟨r, near⟩))) :
    Agree w v (p >>= f) (p' >>= f') := by
  cases h with
  | ok hx hr => exact hf _ _ _ _ _ _ hx hr
  | error hexpected hstop => exact .error hexpected hstop
  | past hp => exact .past (hp.bind hpast)

theorem fail {c c' : Cursor} (h : w.Beside c c') (expected : Expectation) :
    Agree w u (.error (c.fail expected) : Except Failure (α × { r : Cursor // P r }))
      (.error (c'.fail expected) : Except Failure (α × { r : Cursor // P' r })) :=
  .error rfl h

end Agree

theorem Window.Beside.expect {c c' : Cursor} (h : w.Beside c c') (k : TokenKind) [k.Inner] :
    Agree w Token.unplaced (c.expect k) (c'.expect k) := by
  unfold Cursor.expect
  rcases h.accept? k with ⟨hnone, hnone'⟩ | ⟨t, t', r, r', near, near', hsome, hsome', ht, hr⟩
  · rw [hnone, hnone']
    exact .fail h _
  · rw [hsome, hsome']
    exact .pure ht hr

end Agree

theorem Expr.eq_name_of_unplaced {x : Lexeme} {e : Expr} (h : (Expr.name x).unplaced = e.unplaced) :
    ∃ y, e = .name y ∧ x.unplaced = y.unplaced := by
  cases e with
  | name y =>
    rw [unplaced, unplaced] at h
    exact ⟨y, rfl, Expr.name.inj h⟩
  | _ => simp [unplaced] at h

namespace Parse

variable {c c' : Cursor}

theorem typeName_of_end (h : c.kind = .endOfFile) : typeName c = .error (c.fail .type) := by
  unfold typeName
  cases hnext : c.next? with
  | none => rfl
  | some found =>
    have hpass : c.Passes found.1 found.2 := ⟨found.2.2, hnext⟩
    simp only [← hpass.kind, h]

theorem operand_of_end (h : c.kind = .endOfFile) : operand c = .error (c.fail .expression) := by
  rw [operand]
  cases hnext : c.next? with
  | none => rfl
  | some found =>
    have hpass : c.Passes found.1 found.2 := ⟨found.2.2, hnext⟩
    have hlead : lead? found.1.kind = none := by
      rw [← hpass.kind, h]
      rfl
    simp only [hlead]
    rfl

theorem agree_typeName (h : w.Beside c c') :
    Agree w TypeName.unplaced (typeName c) (typeName c') := by
  rcases h.next? with ⟨hend, hend'⟩ | ⟨t, t', r, r', near, near', hnext, hnext', ht, hr⟩
  · rw [typeName_of_end hend, typeName_of_end hend']
    exact .fail h _
  · obtain ⟨hkind, hlexeme⟩ := Token.unplaced_eq_iff.mp ht
    unfold typeName
    rw [hnext, hnext']
    dsimp only
    rw [← hkind]
    cases t.kind with
    | scalar s | name => exact .pure (by rw [TypeName.unplaced, TypeName.unplaced, hlexeme]) hr
    | _ => exact .fail h _

mutual

theorem agree_expr (level : Nat) {c c' : Cursor} (h : w.Beside c c') :
    Agree w Expr.unplaced (expr level c) (expr level c') := by
  rw [expr, expr]
  refine (agree_operand h).bind (fun left left' r r' near near' hleft hr => ?_) fun _ _ _ h =>
    (h.leaves (follows_climb _ _)).bind fun _ _ _ h => h
  refine (agree_climb level hleft hr).bind (fun e e' rest rest' _ _ he hrest => ?_) fun _ _ _ h => h
  exact .ok he hrest
termination_by 4 * c.size + 1

theorem agree_operand {c c' : Cursor} (h : w.Beside c c') :
    Agree w Expr.unplaced (operand c) (operand c') := by
  rcases h.next? with ⟨hend, hend'⟩ | ⟨t, t', r, r', near, near', hnext, hnext', ht, hr⟩
  · rw [operand_of_end hend, operand_of_end hend']
    exact .fail h _
  · obtain ⟨hkind, hlexeme⟩ := Token.unplaced_eq_iff.mp ht
    cases hlead : lead? t.kind with
    | none =>
      rw [operand, operand, hnext, hnext']
      simp only [← hkind, hlead]
      exact .fail h _
    | some lead =>
      -- Behind `new`, what is allocated depends on two tokens, the first of which may be the last that counts.
      by_cases hpast : lead = .new ∧ (∀ (k : TokenKind) [k.Inner], r.kind = k → Leaves w.behind (r.expect k)) ∧
          Leaves w.behind (typeName r)
      · obtain ⟨rfl, hexpect, helement⟩ := hpast
        exact .past (leaves_operand_of_new hnext hlead hexpect helement)
      rw [operand, operand, hnext, hnext']
      simp only [← hkind, hlead]
      cases lead with
      | name | constant k => exact .pure (by rw [Expr.unplaced, Expr.unplaced, hlexeme]) hr
      | unary op =>
        refine (hr.agree (agree_expr _ ·) (·.leaves follows_expr)).bind (fun e e' rest rest' _ _ he hrest => ?_) fun _ _ _ h => h
        exact .ok (by rw [Expr.unplaced, Expr.unplaced, hlexeme, he]) hrest
      | paren =>
        refine (hr.agree (agree_expr 0 ·) (·.leaves follows_expr)).bind (fun e e' r₁ r₁' _ _ he hr₁ => ?_) fun _ _ _ h =>
          (h.leaves .expect).bind fun _ _ _ h => h
        exact (hr₁.expect _).bind (fun _ _ rest rest' _ _ _ hrest => .ok he hrest) fun _ _ _ h => h
      | new =>
        replace hr : w.Beside r r' := hr.resolve_right fun h =>
          hpast ⟨rfl, fun _ _ _ => h.leaves .expect, h.leaves follows_typeName⟩
        have hannounced := hr.announces.resolve_right fun ⟨h, hbase⟩ =>
          hpast ⟨rfl, fun _ hk hkind => leaves_expect_of_kind h hkind hk.ne_end, leaves_typeName_of_base h hbase⟩
        dsimp only
        simp only [hannounced _ (.punct '(') (.scalar .string), hannounced _ (.punct '(') .struct]
        split
        · refine (hr.expect _).bind (fun _ _ r₁ r₁' _ _ _ hr₁ => ?_) fun _ _ _ h =>
            (h.leaves .expect).bind fun _ _ _ h =>
              (h.leaves follows_expr).bind fun _ _ _ h => (h.leaves .expect).bind fun _ _ _ h => h
          refine (hr₁.expect _).bind (fun _ _ r₂ r₂' _ _ _ hr₂ => ?_) fun _ _ _ h =>
            (h.leaves follows_expr).bind fun _ _ _ h => (h.leaves .expect).bind fun _ _ _ h => h
          refine (agree_expr 0 hr₂).bind (fun size size' r₃ r₃' _ _ hsize hr₃ => ?_) fun _ _ _ h =>
            (h.leaves .expect).bind fun _ _ _ h => h
          refine (hr₃.expect _).bind (fun _ _ r₄ r₄' _ _ _ hr₄ => ?_) fun _ _ _ h => h
          exact .ok (by rw [Expr.unplaced, Expr.unplaced, hlexeme, hsize]) hr₄
        · split
          · refine (hr.expect _).bind (fun tag tag' r₁ r₁' _ _ htag hr₁ => ?_) fun _ _ _ h =>
              (h.leaves .expect).bind fun _ _ _ h => (h.leaves .expect).bind fun _ _ _ h => h
            have htag := (Token.unplaced_eq_iff.mp htag).2
            refine (hr₁.expect _).bind (fun _ _ r₂ r₂' _ _ _ hr₂ => ?_) fun _ _ _ h =>
              (h.leaves .expect).bind fun _ _ _ h => h
            refine (hr₂.expect _).bind (fun _ _ r₃ r₃' _ _ _ hr₃ => ?_) fun _ _ _ h => h
            exact .ok (by rw [Expr.unplaced, Expr.unplaced, hlexeme, htag]) hr₃
          · refine (agree_typeName hr).bind (fun element element' r₁ r₁' _ _ helement hr₁ => ?_) fun _ _ _ h =>
              (h.leaves .expect).bind fun _ _ _ h =>
                (h.leaves follows_expr).bind fun _ _ _ h => (h.leaves .expect).bind fun _ _ _ h => h
            refine (hr₁.expect _).bind (fun _ _ r₂ r₂' _ _ _ hr₂ => ?_) fun _ _ _ h =>
              (h.leaves follows_expr).bind fun _ _ _ h => (h.leaves .expect).bind fun _ _ _ h => h
            refine (agree_expr 0 hr₂).bind (fun size size' r₃ r₃' _ _ hsize hr₃ => ?_) fun _ _ _ h =>
              (h.leaves .expect).bind fun _ _ _ h => h
            refine (hr₃.expect _).bind (fun _ _ r₄ r₄' _ _ _ hr₄ => ?_) fun _ _ _ h => h
            exact .ok (by rw [Expr.unplaced, Expr.unplaced, helement, hlexeme, hsize]) hr₄
termination_by 4 * c.size

theorem agree_climb (level : Nat) {left left' : Expr} {c c' : Cursor}
    (hleft : left.unplaced = left'.unplaced) (h : w.Beside c c') :
    Agree w Expr.unplaced (climb level left c) (climb level left' c') := by
  have hstop : Agree w Expr.unplaced
      (.ok (left, ⟨c, Nat.le_refl _⟩) : Except Failure (Expr × { r : Cursor // r.size ≤ c.size }))
      (.ok (left', ⟨c', Nat.le_refl _⟩) : Except Failure (Expr × { r : Cursor // r.size ≤ c'.size })) := .ok hleft h
  rw [climb, climb, ← h.kind]
  cases hnextKind : c.kind.continuation? with
  | none => cases c.next? <;> cases c'.next? <;> exact hstop
  | some next =>
    rcases h.next? with ⟨hend, -⟩ | ⟨t, t', r, r', near, near', hnext, hnext', ht, hr⟩
    · cases hend ▸ hnextKind
    · obtain ⟨hkind, hlexeme⟩ := Token.unplaced_eq_iff.mp ht
      rw [hnext, hnext']
      dsimp only
      split
      · exact hstop
      · cases next with
        | call =>
          cases left with
          | name callee =>
            obtain ⟨callee', rfl, hcallee⟩ := Expr.eq_name_of_unplaced hleft
            refine (hr.agree (agree_callArgs ·) (·.leaves follows_callArgs)).bind
                (fun args args' r₁ r₁' _ _ hargs hr₁ => ?_) fun _ _ _ h =>
              (h.leaves (follows_climb _ _)).bind fun _ _ _ h => h
            have hcall : (Expr.call callee t.lexeme args).unplaced = (Expr.call callee' t'.lexeme args').unplaced := by
              rw [Expr.unplaced, Expr.unplaced, hcallee, hlexeme, hargs]
            exact (agree_climb level hcall hr₁).bind (fun _ _ _ _ _ _ he hrest => .ok he hrest) fun _ _ _ h => h
          | _ =>
            -- What is no name cannot be called, on either side.
            cases left' with
            | name callee' => simp [Expr.unplaced] at hleft
            | _ => exact hstop
        | subscript =>
          refine (hr.agree (agree_expr 0 ·) (·.leaves follows_expr)).bind
              (fun subscript subscript' r₁ r₁' _ _ hsubscript hr₁ => ?_) fun _ _ _ h =>
            (h.leaves .expect).bind fun _ _ _ h => (h.leaves (follows_climb _ _)).bind fun _ _ _ h => h
          refine (hr₁.expect _).bind (fun _ _ r₂ r₂' _ _ _ hr₂ => ?_) fun _ _ _ h =>
            (h.leaves (follows_climb _ _)).bind fun _ _ _ h => h
          have hindex : (Expr.index left t.lexeme subscript).unplaced =
              (Expr.index left' t'.lexeme subscript').unplaced := by
            rw [Expr.unplaced, Expr.unplaced, hleft, hlexeme, hsubscript]
          exact (agree_climb level hindex hr₂).bind (fun _ _ _ _ _ _ he hrest => .ok he hrest) fun _ _ _ h => h
        | selection =>
          refine (hr.agree (·.expect _) (·.leaves .expect)).bind (fun field field' r₁ r₁' _ _ hfield hr₁ => ?_)
            fun _ _ _ h => (h.leaves (follows_climb _ _)).bind fun _ _ _ h => h
          have hfield := (Token.unplaced_eq_iff.mp hfield).2
          have hselect : (Expr.select left t.lexeme field.lexeme).unplaced =
              (Expr.select left' t'.lexeme field'.lexeme).unplaced := by
            rw [Expr.unplaced, Expr.unplaced, hleft, hlexeme, hfield]
          exact (agree_climb level hselect hr₁).bind (fun _ _ _ _ _ _ he hrest => .ok he hrest) fun _ _ _ h => h
        | operator op =>
          refine (hr.agree (agree_expr _ ·) (·.leaves follows_expr)).bind (fun right right' r₁ r₁' _ _ hright hr₁ => ?_)
            fun _ _ _ h => (h.leaves (follows_climb _ _)).bind fun _ _ _ h => h
          have hbinary : (Expr.binary op left t.lexeme right).unplaced =
              (Expr.binary op left' t'.lexeme right').unplaced := by
            rw [Expr.unplaced, Expr.unplaced, hleft, hlexeme, hright]
          exact (agree_climb level hbinary hr₁).bind (fun _ _ _ _ _ _ he hrest => .ok he hrest) fun _ _ _ h => h
termination_by 4 * c.size

theorem agree_callArgs {c c' : Cursor} (h : w.Beside c c') :
    Agree w Expr.unplacedAll (callArgs c) (callArgs c') := by
  rw [callArgs, callArgs]
  rcases h.accept? (.punct ')') with ⟨hnone, hnone'⟩ | ⟨t, t', r, r', near, near', hsome, hsome', ht, hr⟩
  · rw [hnone, hnone']
    exact agree_moreArgs h
  · rw [hsome, hsome']
    exact .pure rfl hr
termination_by 4 * c.size + 3

theorem agree_moreArgs {c c' : Cursor} (h : w.Beside c c') :
    Agree w Expr.unplacedAll (moreArgs c) (moreArgs c') := by
  rw [moreArgs, moreArgs]
  refine (agree_expr 0 h).bind (fun arg arg' r r' _ _ harg hr => ?_) fun _ _ _ h => by
    dsimp only
    split
    · rename_i hsome
      exact ((h.accept? hsome).leaves follows_moreArgs).bind fun _ _ _ h => h
    · exact (h.leaves .expect).bind fun _ _ _ h => h
  dsimp only
  rcases hr.accept? (.punct ',') with ⟨hnone, hnone'⟩ | ⟨t, t', r₁, r₁', near, near', hsome, hsome', ht, hr₁⟩
  · rw [hnone, hnone']
    refine (hr.expect _).bind (fun _ _ rest rest' _ _ _ hrest => ?_) fun _ _ _ h => h
    exact .ok (by simp only [Expr.unplacedAll, harg]) hrest
  · rw [hsome, hsome']
    refine (hr₁.agree (agree_moreArgs ·) (·.leaves follows_moreArgs)).bind
        (fun args args' rest rest' _ _ hargs hrest => ?_) fun _ _ _ h => h
    exact .ok (by simp only [Expr.unplacedAll, harg, hargs]) hrest
termination_by 4 * c.size + 2

end

/-! ### Declarations and statements -/

theorem agree_decl (h : w.Beside c c') :
    Agree w Decl.unplaced (decl c) (decl c') := by
  unfold decl
  refine (agree_typeName h).bind (fun base base' r r' _ _ hbase hr => ?_) fun _ _ _ h => by
    dsimp only
    split
    · rename_i hsome
      exact ((h.accept? hsome).leaves .expect).bind fun _ _ _ h => h
    · exact (h.leaves .expect).bind fun _ _ _ h => h
  dsimp only
  rcases hr.accept? .arrayMark with ⟨hnone, hnone'⟩ | ⟨mark, mark', r₁, r₁', near, near', hsome, hsome', hmark, hr₁⟩
  · rw [hnone, hnone']
    refine (hr.expect _).bind (fun name name' rest rest' _ _ hname hrest => ?_) fun _ _ _ h => h
    have hname := (Token.unplaced_eq_iff.mp hname).2
    exact .ok (by simp [Decl.unplaced, hbase, hname]) hrest
  · rw [hsome, hsome']
    refine (hr₁.agree (·.expect _) (·.leaves .expect)).bind (fun name name' rest rest' _ _ hname hrest => ?_) fun _ _ _ h => h
    have hmark := (Token.unplaced_eq_iff.mp hmark).2
    have hname := (Token.unplaced_eq_iff.mp hname).2
    exact .ok (by simp [Decl.unplaced, hbase, hmark, hname]) hrest

theorem agree_varDecl {d d' : Decl} (hd : d.unplaced = d'.unplaced)
    (h : w.Beside c c') : Agree w Stmt.unplaced (varDecl d c) (varDecl d' c') := by
  unfold varDecl
  refine (h.expect _).bind (fun equals equals' r r' _ _ hequals hr => ?_) fun _ _ _ h =>
    (h.leaves follows_expr).bind fun _ _ _ h => (h.leaves .expect).bind fun _ _ _ h => h
  have hequals := (Token.unplaced_eq_iff.mp hequals).2
  refine (agree_expr 0 hr).bind (fun init init' r₁ r₁' _ _ hinit hr₁ => ?_) fun _ _ _ h =>
    (h.leaves .expect).bind fun _ _ _ h => h
  refine (hr₁.expect _).bind (fun _ _ rest rest' _ _ _ hrest => ?_) fun _ _ _ h => h
  exact .ok (by rw [Stmt.unplaced, Stmt.unplaced, hd, hequals, hinit]) hrest

theorem agree_condition (h : w.Beside c c') :
    Agree w Expr.unplaced (condition c) (condition c') := by
  unfold condition
  refine (h.expect _).bind (fun _ _ r r' _ _ _ hr => ?_) fun _ _ _ h =>
    (h.leaves follows_expr).bind fun _ _ _ h => (h.leaves .expect).bind fun _ _ _ h => h
  refine (agree_expr 0 hr).bind (fun e e' r₁ r₁' _ _ he hr₁ => ?_) fun _ _ _ h =>
    (h.leaves .expect).bind fun _ _ _ h => h
  exact (hr₁.expect _).bind (fun _ _ rest rest' _ _ _ hrest => .ok he hrest) fun _ _ _ h => h

theorem agree_returnRest {mark mark' : Lexeme} (hmark : mark.unplaced = mark'.unplaced)
    (h : w.Beside c c') : Agree w Stmt.unplaced (returnRest mark c) (returnRest mark' c') := by
  unfold returnRest
  rcases h.accept? (.punct ';') with ⟨hnone, hnone'⟩ | ⟨t, t', r, r', near, near', hsome, hsome', -, hr⟩
  · rw [hnone, hnone']
    refine (agree_expr 0 h).bind (fun value value' r r' _ _ hvalue hr => ?_) fun _ _ _ h =>
      (h.leaves .expect).bind fun _ _ _ h => h
    refine (hr.expect _).bind (fun _ _ rest rest' _ _ _ hrest => ?_) fun _ _ _ h => h
    exact .ok (by rw [Stmt.unplaced, Stmt.unplaced, hmark, hvalue]) hrest
  · rw [hsome, hsome']
    exact .pure (by rw [Stmt.unplaced, Stmt.unplaced, hmark]) hr

theorem agree_plainStmt (h : w.Beside c c') :
    Agree w Stmt.unplaced (plainStmt c) (plainStmt c') := by
  rcases h.startsDecl.symm with ⟨hbehind, hbase⟩ | hstarts
  · exact .past (leaves_plainStmt_of_base hbehind hbase)
  unfold plainStmt
  rw [← hstarts]
  split
  · refine (agree_decl h).bind (fun d d' r r' _ _ hd hr => ?_) fun _ _ _ h => (h.leaves follows_varDecl).bind fun _ _ _ h => h
    exact (agree_varDecl hd hr).bind (fun _ _ _ _ _ _ hs hrest => .ok hs hrest) fun _ _ _ h => h
  · refine (agree_expr 0 h).bind (fun e e' r r' _ _ he hr => ?_) fun _ _ _ h =>
      (h.leaves .expect).bind fun _ _ _ h => h
    refine (hr.expect _).bind (fun _ _ rest rest' _ _ _ hrest => ?_) fun _ _ _ h => h
    exact .ok (by rw [Stmt.unplaced, Stmt.unplaced, he]) hrest

mutual

theorem agree_stmt {c c' : Cursor} (h : w.Beside c c') :
    Agree w Stmt.unplaced (stmt c) (stmt c') := by
  rw [stmt, stmt, ← h.kind]
  cases hlead : stmtLead? c.kind with
  | none => cases c.next? <;> cases c'.next? <;> exact agree_plainStmt h
  | some lead =>
    rcases h.next? with ⟨hend, -⟩ | ⟨t, t', r, r', near, near', hnext, hnext', ht, hr⟩
    · cases hend ▸ hlead
    · obtain ⟨-, hlexeme⟩ := Token.unplaced_eq_iff.mp ht
      rw [hnext, hnext']
      cases lead with
      | block =>
        refine (hr.agree (agree_stmts ·) (·.leaves follows_stmts)).bind
            (fun body body' rest rest' _ _ hbody hrest => ?_) fun _ _ _ h => h
        exact .ok (by rw [Stmt.unplaced, Stmt.unplaced, hlexeme, hbody]) hrest
      | empty => exact .pure (by rw [Stmt.unplaced, Stmt.unplaced, hlexeme]) hr
      | whileLoop =>
        refine (hr.agree agree_condition (·.leaves follows_condition)).bind (fun cond cond' r₁ r₁' _ _ hcond hr₁ => ?_)
          fun _ _ _ h => (h.leaves follows_stmt).bind fun _ _ _ h => h
        refine (agree_stmt hr₁).bind (fun body body' rest rest' _ _ hbody hrest => ?_) fun _ _ _ h => h
        exact .ok (by rw [Stmt.unplaced, Stmt.unplaced, hlexeme, hcond, hbody]) hrest
      | ifThen =>
        refine (hr.agree agree_condition (·.leaves follows_condition)).bind (fun cond cond' r₁ r₁' _ _ hcond hr₁ => ?_)
          fun _ _ _ h => (h.leaves follows_stmt).bind fun _ _ _ h => ?first
        refine (agree_stmt hr₁).bind (fun yes yes' r₂ r₂' _ _ hyes hr₂ => ?_) fun _ _ _ h => ?second
        case first | second =>
          dsimp only
          split
          · rename_i hsome
            exact ((h.accept? hsome).leaves follows_stmt).bind fun _ _ _ h => h
          · exact h
        dsimp only
        rcases hr₂.accept? (.keyword .elseWord) with ⟨hnone, hnone'⟩ | ⟨_, _, r₃, r₃', _, _, hsome, hsome', -, hr₃⟩
        · rw [hnone, hnone']
          exact .ok (by rw [Stmt.unplaced, Stmt.unplaced, hlexeme, hcond, hyes]) hr₂
        · rw [hsome, hsome']
          refine (hr₃.agree (agree_stmt ·) (·.leaves follows_stmt)).bind (fun no no' rest rest' _ _ hno hrest => ?_)
            fun _ _ _ h => h
          exact .ok (by rw [Stmt.unplaced, Stmt.unplaced, hlexeme, hcond, hyes, hno]) hrest
      | returnValue =>
        have hreturn : t.kind = .keyword .returnWord :=
          (Cursor.Passes.kind ⟨near, hnext⟩).symm.trans (kind_of_stmtLead? hlead)
        exact (hr.agree (agree_returnRest hlexeme) (·.leaves (follows_returnRest · hreturn))).bind
          (fun _ _ _ _ _ _ hs hrest => .ok hs hrest) fun _ _ _ h => h
termination_by 2 * c.size

theorem agree_stmts {c c' : Cursor} (h : w.Beside c c') :
    Agree w Stmt.unplacedAll (stmts c) (stmts c') := by
  rw [stmts, stmts, ← h.kind]
  rcases h.accept? (.punct '\x7d') with ⟨hnone, hnone'⟩ | ⟨_, _, r, r', _, _, hsome, hsome', -, hr⟩
  · rw [hnone, hnone']
    dsimp only
    split
    · exact .error rfl h
    · refine (agree_stmt h).bind (fun s s' r r' _ _ hs hr => ?_) fun _ _ _ h =>
        (h.leaves follows_stmts).bind fun _ _ _ h => h
      refine (agree_stmts hr).bind (fun body body' rest rest' _ _ hbody hrest => ?_) fun _ _ _ h => h
      exact .ok (by simp only [Stmt.unplacedAll, hs, hbody]) hrest
  · rw [hsome, hsome']
    exact .pure rfl hr
termination_by 2 * c.size + 1

end

theorem agree_fields {c c' : Cursor} (h : w.Beside c c') :
    Agree w (List.map Decl.unplaced) (fields c) (fields c') := by
  rw [fields, fields]
  rcases h.accept? (.punct '\x7d') with ⟨hnone, hnone'⟩ | ⟨_, _, r, r', _, _, hsome, hsome', -, hr⟩
  · rw [hnone, hnone']
    refine (agree_decl h).bind (fun d d' r r' _ _ hd hr => ?_) fun _ _ _ h =>
      (h.leaves .expect).bind fun _ _ _ h => (h.leaves follows_fields).bind fun _ _ _ h => h
    refine (hr.expect _).bind (fun _ _ r₁ r₁' _ _ _ hr₁ => ?_) fun _ _ _ h =>
      (h.leaves follows_fields).bind fun _ _ _ h => h
    refine (agree_fields hr₁).bind (fun all all' rest rest' _ _ hall hrest => ?_) fun _ _ _ h => h
    exact .ok (by rw [List.map_cons, List.map_cons, hd, hall]) hrest
  · rw [hsome, hsome']
    exact .pure rfl hr
termination_by c.size

theorem leaves_close {i : Item} {n : Nat} {c r : Cursor} (near : r.size < c.size) (h : r.Behind n) :
    Leaves n (show Parsed Item c from
      match r.accept? (.punct ';') with
      | some (_, rest) => .ok (i, Cursor.within near rest)
      | none => .ok (i, ⟨r, near⟩)) := by
  dsimp only
  split
  · rename_i hsome
    exact h.accept? hsome
  · exact h

theorem agree_struct {mark mark' : Lexeme} (hmark : mark.unplaced = mark'.unplaced)
    (h : w.Beside c c') : Agree w Item.unplaced (struct mark c) (struct mark' c') := by
  unfold struct
  refine (h.expect _).bind (fun tag tag' r r' _ _ htag hr => ?_) fun _ _ _ h =>
    (h.leaves .expect).bind fun _ _ _ h => (h.leaves follows_fields).bind fun _ _ near h => leaves_close _ h
  have htag := (Token.unplaced_eq_iff.mp htag).2
  refine (hr.expect _).bind (fun _ _ r₁ r₁' _ _ _ hr₁ => ?_) fun _ _ _ h =>
    (h.leaves follows_fields).bind fun _ _ near h => leaves_close _ h
  refine (agree_fields hr₁).bind (fun all all' r₂ r₂' _ _ hall hr₂ => ?_) fun _ _ near h => leaves_close _ h
  have hitem : (Item.struct mark tag.lexeme all).unplaced = (Item.struct mark' tag'.lexeme all').unplaced := by
    rw [Item.unplaced, Item.unplaced, hmark, htag, hall]
  dsimp only
  rcases hr₂.accept? (.punct ';') with ⟨hnone, hnone'⟩ | ⟨_, _, r₃, r₃', _, _, hsome, hsome', -, hr₃⟩
  · rw [hnone, hnone']
    exact .ok hitem hr₂
  · rw [hsome, hsome']
    exact .pure hitem hr₃

theorem agree_moreParams {c c' : Cursor} (h : w.Beside c c') :
    Agree w (List.map Decl.unplaced) (moreParams c) (moreParams c') := by
  rw [moreParams, moreParams]
  refine (agree_decl h).bind (fun d d' r r' _ _ hd hr => ?_) fun _ _ _ h => by
    dsimp only
    split
    · rename_i hsome
      exact ((h.accept? hsome).leaves follows_moreParams).bind fun _ _ _ h => h
    · exact (h.leaves .expect).bind fun _ _ _ h => h
  dsimp only
  rcases hr.accept? (.punct ',') with ⟨hnone, hnone'⟩ | ⟨_, _, r₁, r₁', _, _, hsome, hsome', -, hr₁⟩
  · rw [hnone, hnone']
    refine (hr.expect _).bind (fun _ _ rest rest' _ _ _ hrest => ?_) fun _ _ _ h => h
    exact .ok (by rw [List.map_cons, List.map_cons, hd]) hrest
  · rw [hsome, hsome']
    refine (hr₁.agree (agree_moreParams ·) (·.leaves follows_moreParams)).bind
        (fun all all' rest rest' _ _ hall hrest => ?_) fun _ _ _ h => h
    exact .ok (by rw [List.map_cons, List.map_cons, hd, hall]) hrest
termination_by c.size

theorem agree_params (h : w.Beside c c') :
    Agree w (List.map Decl.unplaced) (params c) (params c') := by
  unfold params
  rcases h.accept? (.punct ')') with ⟨hnone, hnone'⟩ | ⟨_, _, r, r', _, _, hsome, hsome', -, hr⟩
  · rw [hnone, hnone']
    exact agree_moreParams h
  · rw [hsome, hsome']
    exact .pure rfl hr

theorem agree_function {d d' : Decl} {paren paren' : Lexeme} (hd : d.unplaced = d'.unplaced)
    (hparen : paren.unplaced = paren'.unplaced) (h : w.Beside c c') :
    Agree w Item.unplaced (function d paren c) (function d' paren' c') := by
  unfold function
  refine (agree_params h).bind (fun all all' r r' _ _ hall hr => ?_) fun _ _ _ h => by
    dsimp only
    split
    · rename_i hsome
      exact h.accept? hsome
    · split
      · rename_i hsome
        exact ((h.accept? hsome).leaves follows_stmts).bind fun _ _ _ h => h
      · exact h
  dsimp only
  rcases hr.accept? (.punct ';') with ⟨hnone, hnone'⟩ | ⟨t, t', r₁, r₁', _, _, hsome, hsome', ht, hr₁⟩
  · rw [hnone, hnone']
    rcases hr.accept? (.punct '\x7b') with ⟨hnone, hnone'⟩ | ⟨t, t', r₁, r₁', _, _, hsome, hsome', ht, hr₁⟩
    · rw [hnone, hnone']
      exact .error rfl hr
    · rw [hsome, hsome']
      have hbrace := (Token.unplaced_eq_iff.mp ht).2
      refine (hr₁.agree (agree_stmts ·) (·.leaves follows_stmts)).bind
          (fun body body' rest rest' _ _ hbody hrest => ?_) fun _ _ _ h => h
      exact .ok (by rw [Item.unplaced, Item.unplaced, hd, hparen, hall, hbrace, hbody]) hrest
  · rw [hsome, hsome']
    have hsemicolon := (Token.unplaced_eq_iff.mp ht).2
    exact .pure (by rw [Item.unplaced, Item.unplaced, hd, hparen, hall, hsemicolon]) hr₁

theorem agree_item (h : w.Beside c c') :
    Agree w Item.unplaced (item c) (item c') := by
  rcases h.startsDecl.symm with ⟨hbehind, hbase⟩ | hstarts
  · exact .past (leaves_item_of_base hbehind hbase)
  unfold item
  rcases h.accept? (.keyword .structWord) with ⟨hnone, hnone'⟩ | ⟨t, t', r, r', _, _, hsome, hsome', ht, hr⟩
  · rw [hnone, hnone', ← hstarts]
    dsimp only
    split
    · refine (agree_decl h).bind (fun d d' r r' _ _ hd hr => ?_) fun _ _ _ h =>
        by
        dsimp only
        split
        · rename_i hsome
          exact ((h.accept? hsome).leaves (follows_function · (Cursor.accept?_eq_some_iff.mp hsome).2)).bind fun _ _ _ h => h
        · exact (h.leaves follows_varDecl).bind fun _ _ _ h => h
      dsimp only
      rcases hr.accept? (.punct '(') with ⟨hnone, hnone'⟩ | ⟨t, t', r₁, r₁', _, _, hsome, hsome', ht, hr₁⟩
      · rw [hnone, hnone']
        refine (agree_varDecl hd hr).bind (fun s s' rest rest' _ _ hs hrest => ?_) fun _ _ _ h => h
        exact .ok (by rw [Item.unplaced, Item.unplaced, hs]) hrest
      · rw [hsome, hsome']
        refine (hr₁.agree (agree_function hd (Token.unplaced_eq_iff.mp ht).2)
            (·.leaves (follows_function · (Cursor.accept?_eq_some_iff.mp hsome).2))).bind
            (fun i i' rest rest' _ _ hi hrest => ?_) fun _ _ _ h => h
        exact .ok hi hrest
    · refine (agree_stmt h).bind (fun s s' rest rest' _ _ hs hrest => ?_) fun _ _ _ h => h
      exact .ok (by rw [Item.unplaced, Item.unplaced, hs]) hrest
  · rw [hsome, hsome']
    refine (hr.agree (agree_struct (Token.unplaced_eq_iff.mp ht).2)
        (·.leaves (follows_struct · (Cursor.accept?_eq_some_iff.mp hsome).2))).bind
        (fun i i' rest rest' _ _ hi hrest => ?_) fun _ _ _ h => h
    exact .ok hi hrest

end Parse

namespace Program

variable {w : Window} {c c' : Cursor}

/-- The items agree up to places, and both programs were read to their ends or stopped at the same position. -/
structure Agrees (w : Window) (p p' : Program) : Prop where
  items : p.items.map Item.unplaced = p'.items.map Item.unplaced
  failure : p.failure = none ∧ p'.failure = none ∨
    ∃ f f', p.failure = some f ∧ p'.failure = some f' ∧ f.expected = f'.expected ∧
      w.Beside f.stop f'.stop

theorem agrees_or_past (h : w.Beside c c') :
    Agrees w (read c) (read c') ∨
      (∃ r, Cursor.Behind w.behind r) ∧ ∀ f, (read c).failure = some f → f.stop.Behind w.behind := by
  fun_induction Program.read c generalizing c' with
  | case1 c hend =>
    rw [h.kind] at hend
    rw [read, if_pos hend]
    exact .inl ⟨rfl, .inl ⟨rfl, rfl⟩⟩
  | case2 c hend f hitem =>
    have hagree := Parse.agree_item h
    rw [h.kind] at hend
    rw [hitem] at hagree
    rw [read, if_neg hend]
    generalize Parse.item c' = p' at hagree
    cases hagree with
    | error hexpected hstop => exact .inl ⟨rfl, .inr ⟨_, _, rfl, rfl, hexpected, hstop⟩⟩
    | past hp => exact .inr ⟨⟨_, hp⟩, fun _ hf => Option.some.inj hf ▸ hp⟩
  | case3 c hend i r near hitem rest =>
    rename_i ih
    have hagree := Parse.agree_item h
    rw [h.kind] at hend
    rw [hitem] at hagree
    rw [read, if_neg hend]
    generalize Parse.item c' = p' at hagree
    cases hagree with
    | ok hi hr =>
      refine (ih hr).imp (fun hagrees => ⟨?_, hagrees.failure⟩) id
      rw [List.map_cons, List.map_cons, hi]
      exact congrArg _ hagrees.items
    | past hp =>
      refine .inr ⟨⟨_, hp⟩, fun f hf => ?_⟩
      obtain ⟨ts, hts, -⟩ := halts_read hp.closed hf
      exact (hp.spans hts).mono (Nat.sub_le ..)

theorem failure_of_beside {f : Failure} (h : w.Beside c c') (hf : (read c).failure = some f)
    (hs : w.behind < f.stop.ahead.length) : ∃ f', (read c').failure = some f' := by
  rcases agrees_or_past h with hagrees | ⟨-, hpast⟩
  · rcases hagrees.failure with ⟨hnone, -⟩ | ⟨_, f', -, hf', -⟩
    · cases hf.symm.trans hnone
    · exact ⟨f', hf'⟩
  · exact absurd (hpast f hf).length (Nat.not_le_of_lt hs)

end Program

/-- Two token lists agree up to places and close with the end of the file. -/
structure Token.Alike (ts ts' : List Token) : Prop where
  unplaced : ts.map Token.unplaced = ts'.map Token.unplaced
  closed : ts.getLast?.map Token.kind = some .endOfFile

namespace Token.Alike

variable {ts ts' : List Token}

theorem length (h : Token.Alike ts ts') : ts.length = ts'.length := by
  simpa using congrArg List.length h.unplaced

def window (h : Token.Alike ts ts') : Window where
  left := ts
  right := ts'
  last := ts.length - 1
  closed := by
    obtain ⟨t, ht, hend⟩ := Option.map_eq_some_iff.mp h.closed
    refine ⟨t, List.mem_of_getElem? (i := 0) ?_, hend⟩
    rwa [List.getElem?_drop, Nat.add_zero, ← List.getLast?_eq_getElem?]
  alike := by rw [List.take_of_length_le (by omega), List.take_of_length_le (by have := h.length; omega), h.unplaced]

theorem agrees_read (h : Token.Alike ts ts') {c c' : Cursor} (hc : h.window.Beside c c') :
    Program.Agrees h.window (.read c) (.read c') := by
  refine (Program.agrees_or_past hc).resolve_right fun ⟨⟨r, hr⟩, _⟩ => ?_
  obtain ⟨t, ht, -⟩ := hr.closed
  have hpos := List.length_pos_of_mem ht
  have hlength : r.ahead.length ≤ ts.length - (ts.length - 1 + 1) := hr.length
  omega

theorem agrees_ofTokens (h : Token.Alike ts ts') : Program.Agrees h.window (.ofTokens ts) (.ofTokens ts') :=
  h.agrees_read ⟨0, Nat.zero_le _, rfl, rfl⟩

end Token.Alike

end OcCompiler
