import OcCompiler.Proofs.Coverage

/-! The values of operands. An operand is a text, which is read when the instruction that takes it is carried out.
    Before that stands the code of the operands behind it, and some of it may store to what the operand reads. -/

namespace OcCompiler

open Oil

namespace Oil

def Operand.isPointee : Operand → Bool
  | .pointee _ => true
  | _ => false

/-- Whether an assignment to the first may change the second. Any two elements or fields may be the same one. -/
def Operand.overlaps : Operand → Operand → Bool
  | .var v, o => o == .var v
  | .pointee _, o => o.isPointee
  | _, _ => false

/-- Whether what the operand reads is in reach of all functions. -/
def Operand.isShared : Operand → Bool
  | .var v => v.block == globalBlock
  | .pointee _ => true
  | _ => false

/-- Whether the instruction may store to a variable, an element or a field that the operand reads. -/
def Instruction.mayChange (o : Operand) : Instruction → Bool
  | .assign target _ => target.overlaps o
  | .declare _ v _ => (Operand.var v).overlaps o
  | .compute _ _ (.call _ _) | .perform _ _ => o.isShared
  | _ => false

/-- The code is that of the expression, which has the given number for its first node. -/
def Context.Computes (c : Context) (p : Nat × Expr) (r : Emitted Operand) : Prop := ∃ next, p.2.lower c p.1 next = .ok r

/-- The code would be that of the expression, whatever the numbers of its registers. -/
def Context.Makes (c : Context) (p : Nat × Expr) (r : Emitted Operand) : Prop :=
  p.2.Settled c.analysis p.1 ∧ ∃ next, r = p.2.emitted c p.1 next

end Oil

variable {c : Context} {o : Operand} {k next : Nat} {r : Emitted Operand} {p q : Nat × Expr}

theorem Oil.Context.Makes.computes (h : c.Makes p r) (hcounted : Counted r.code) : c.Computes p r := by
  obtain ⟨hsettled, next, rfl⟩ := h
  exact ⟨next, (p.2.lower_yields hsettled).eq_ok hcounted⟩

/-! ### What an expression changes -/

namespace Expr

/-- Whether an assignment to the expression may change what the operand reads. -/
def isPlaceOf (c : Context) (o : Operand) (k : Nat) : Expr → Bool
  | .name x => (Operand.var (c.variableAt ⟨k⟩ x)).overlaps o
  | .index .. | .select .. => o.isPointee
  | .binary .assign left _ _ => left.isPlaceOf c o k
  | _ => false

mutual

/-- Whether the expression has an assignment that may change what the operand reads, or a call that may. -/
def disturbs (c : Context) (o : Operand) (k : Nat) : Expr → Bool
  | .name _ | .constant .. | .newStruct .. => false
  | .unary _ _ e | .newString _ e => e.disturbs c o (k + 1)
  | .newArray _ _ e => e.disturbs c o (k + 2)
  | .select e _ _ => e.disturbs c o k
  | .index base _ subscript => base.disturbs c o k || subscript.disturbs c o (k + base.size + 1)
  | .binary op left _ right =>
    left.disturbs c o k || right.disturbs c o (k + left.size + 1) || (op == .assign && left.isPlaceOf c o k)
  | .call _ _ args => disturbsAny c o (k + 2) args || o.isShared

def disturbsAny (c : Context) (o : Operand) (k : Nat) : List Expr → Bool
  | [] => false
  | e :: es => e.disturbs c o k || disturbsAny c o (k + e.size) es

end

theorem overlaps_emitted (e : Expr) (k next : Nat) : (e.emitted c k next).value.overlaps o = e.isPlaceOf c o k := by
  cases e with
  | constant q lexeme =>
    change (c.constant q lexeme.text).overlaps o = false
    unfold Context.constant
    split <;> try rfl
    split <;> rfl
  | binary op left mark right =>
    cases op with
    | assign => exact overlaps_emitted left k next
    | compare | arith => rfl
  | call =>
    rw [emitted]
    split <;> rfl
  | name | unary | index | select | newStruct | newString | newArray => rfl

mutual

/-- The code of an expression may change what an operand reads exactly if the expression says so. -/
theorem any_mayChange (e : Expr) (k next : Nat) :
    (e.emitted c k next).code.any (Instruction.mayChange o) = e.disturbs c o k := by
  cases e with
  | name | constant => rfl
  | newStruct => simp [emitted, disturbs, Instruction.mayChange]
  | unary _ _ e | select e | newString _ e | newArray _ _ e =>
    simp [emitted, disturbs, any_mayChange e, Instruction.mayChange]
  | binary op left mark right =>
    rw [emitted]
    split
    · rename_i hop
      simp [disturbs, any_mayChange left, any_mayChange right, Instruction.mayChange, overlaps_emitted, hop, Bool.or_assoc]
    · rename_i hop
      simp [disturbs, any_mayChange left, any_mayChange right, Instruction.mayChange, hop]
  | call callee paren args =>
    rw [emitted, disturbs]
    split <;> simp [Instruction.mayChange, any_mayChangeAll args]
  | index base bracket subscript =>
    simp [emitted, disturbs, any_mayChange base, any_mayChange subscript, Instruction.mayChange]

theorem any_mayChangeAll (es : List Expr) (k next : Nat) :
    (emittedAll c k next es).code.any (Instruction.mayChange o) = disturbsAny c o k es := by
  match es with
  | [] => rfl
  | e :: es => simp [emittedAll, disturbsAny, any_mayChange e, any_mayChangeAll es]

end

/-! ### Operands and the instruction that takes them -/

def placed (k : Nat) : List Expr → List (Nat × Expr)
  | [] => []
  | e :: es => (k, e) :: placed (k + e.size) es

/-- The operands of an expression in the order in which they are evaluated, with the numbers of their first nodes. -/
def evaluated (k : Nat) : Expr → List (Nat × Expr)
  | .name _ | .constant .. | .newStruct .. => []
  | .unary _ _ e | .newString _ e => [(k + 1, e)]
  | .newArray _ _ e => [(k + 2, e)]
  | .select e _ _ => [(k, e)]
  | .binary _ left _ right | .index left _ right => [(k, left), (k + left.size + 1, right)]
  | .call _ _ args => placed (k + 2) args

/-- The first expression is the second one, an operand of it, an operand of an operand and so on. -/
inductive Inside (p : Nat × Expr) : Nat × Expr → Prop where
  | self : Inside p p
  | operand {u w} (hu : u ∈ w.2.evaluated w.1) (h : Inside p u) : Inside p w

theorem exists_partsAll (es : List Expr) {k : Nat} (next : Nat) (hs : SettledAll c.analysis k es) :
    ∃ parts, List.Forall₂ c.Makes (placed k es) parts ∧ (emittedAll c k next es).code = parts.flatMap (·.code) ∧
      (emittedAll c k next es).value = parts.map (·.value) := by
  induction es generalizing k next with
  | nil => exact ⟨[], .nil, rfl, rfl⟩
  | cons e es ih =>
    obtain ⟨parts, hparts, hcode, hvalue⟩ := ih (e.emitted c k next).next hs.2
    exact ⟨_ :: parts, .cons ⟨hs.1, next, rfl⟩ hparts, by simp [emittedAll, hcode], by simp [emittedAll, hvalue]⟩

/-- The code of an expression is that of its operands and then the instruction that takes all of them. -/
theorem exists_parts (h : c.Makes p r) :
    ∃ parts last, List.Forall₂ c.Makes (p.2.evaluated p.1) parts ∧ r.code = parts.flatMap (·.code) ++ last ∧
      (parts = [] ∨ ∃ i, last = [i] ∧ ∀ x ∈ parts, x.value ∈ i.operands) := by
  obtain ⟨hs, next, rfl⟩ := h
  obtain ⟨k, e⟩ := p
  have htwo {left right : Expr} (i : Instruction) (hleft : left.Settled c.analysis k)
      (hright : right.Settled c.analysis (k + left.size + 1)) (hi : (left.emitted c k next).value ∈ i.operands ∧
        (right.emitted c (k + left.size + 1) (left.emitted c k next).next).value ∈ i.operands) :
      ∃ parts last, List.Forall₂ c.Makes [(k, left), (k + left.size + 1, right)] parts ∧
        (left.emitted c k next).code ++ (right.emitted c (k + left.size + 1) (left.emitted c k next).next).code ++ [i] =
          parts.flatMap (·.code) ++ last ∧
        (parts = [] ∨ ∃ i, last = [i] ∧ ∀ x ∈ parts, x.value ∈ i.operands) :=
    ⟨[_, _], [i], .cons ⟨hleft, next, rfl⟩ (.cons ⟨hright, (left.emitted c k next).next, rfl⟩ .nil), by simp,
      .inr ⟨i, rfl, by simpa using hi⟩⟩
  cases e with
  | name | constant | newStruct => exact ⟨[], _, .nil, rfl, .inl rfl⟩
  | unary _ _ e | select e | newString _ e | newArray _ _ e =>
    refine ⟨[_], [_], .cons ⟨hs.1, next, rfl⟩ .nil, by simp [emitted]; rfl, .inr ⟨_, rfl, ?_⟩⟩
    simp [Instruction.operands, Computation.operands, Place.operands]
  | binary op left mark right =>
    rw [emitted]
    split
    · exact htwo _ hs.1 hs.2.1 (by simp [Instruction.operands])
    · exact htwo _ hs.1 hs.2.1 (by simp [Instruction.operands, Computation.operands])
  | index base bracket subscript =>
    rw [emitted]
    exact htwo _ hs.1 hs.2.1 (by simp [Instruction.operands, Place.operands])
  | call callee paren args =>
    obtain ⟨parts, hparts, hcode, hvalue⟩ := exists_partsAll args next hs.2.1
    rw [emitted, hcode, hvalue]
    split
    · refine ⟨parts, _, hparts, rfl, .inr ⟨_, rfl, fun x hx => ?_⟩⟩
      exact List.mem_cons_of_mem _ (List.mem_map_of_mem hx)
    · refine ⟨parts, _, hparts, rfl, .inr ⟨_, rfl, fun x hx => ?_⟩⟩
      exact List.mem_cons_of_mem _ (List.mem_cons_of_mem _ (List.mem_map_of_mem hx))

theorem exists_of_forall₂ {α β : Type} {R : α → β → Prop} {xs : List α} {ys : List β} (h : List.Forall₂ R xs ys) {x : α}
    (hx : x ∈ xs) : ∃ y ∈ ys, R x y := by
  induction h with
  | nil => cases hx
  | cons hR _ ih =>
    rcases List.mem_cons.mp hx with rfl | hx
    · exact ⟨_, List.mem_cons_self, hR⟩
    · obtain ⟨y, hy, hR⟩ := ih hx
      exact ⟨y, List.mem_cons_of_mem _ hy, hR⟩

theorem any_mayChange_flatMap {ps : List (Nat × Expr)} {parts : List (Emitted Operand)}
    (h : List.Forall₂ c.Makes ps parts) :
    (parts.flatMap (·.code)).any (Instruction.mayChange o) = ps.any fun p => p.2.disturbs c o p.1 := by
  induction h with
  | nil => rfl
  | cons hmakes _ ih =>
    obtain ⟨-, next, rfl⟩ := hmakes
    rw [List.flatMap_cons, List.any_append, List.any_cons, any_mayChange, ih]

theorem Inside.infix_code (h : Inside p q) {r : Emitted Operand} (hr : c.Makes q r) :
    ∃ s, c.Makes p s ∧ s.code <:+: r.code := by
  induction h generalizing r with
  | self => exact ⟨r, hr, List.infix_refl _⟩
  | operand hu _ ih =>
    obtain ⟨parts, last, hparts, hcode, -⟩ := exists_parts hr
    obtain ⟨x, hx, hmakes⟩ := exists_of_forall₂ hparts hu
    obtain ⟨s, hs, hinfix⟩ := ih hmakes
    refine ⟨s, hs, hinfix.trans ?_⟩
    obtain ⟨front, rest, rfl⟩ := List.append_of_mem hx
    exact ⟨front.flatMap (·.code), rest.flatMap (·.code) ++ last, by simp [hcode]⟩

end Expr

namespace Stmt

mutual

/-- The expressions that are no operands of others, with the numbers of their first nodes. -/
def exprs (k : Nat) : Stmt → List (Nat × Expr)
  | .block _ body => exprsAll (k + 1) body
  | .empty _ | .returnVoid _ => []
  | .varDecl d _ init => [(k + d.size + 1, init)]
  | .whileLoop _ cond body | .ifThen _ cond body => (k + 1, cond) :: body.exprs (k + 1 + cond.size)
  | .ifElse _ cond yes no =>
    (k + 1, cond) :: (yes.exprs (k + 1 + cond.size) ++ no.exprs (k + 1 + cond.size + yes.size))
  | .returnValue _ value => [(k + 1, value)]
  | .expr e => [(k, e)]

def exprsAll (k : Nat) : List Stmt → List (Nat × Expr)
  | [] => []
  | s :: ss => s.exprs k ++ exprsAll (k + s.size) ss

end

mutual

theorem infix_code (s : Stmt) {k next : Nat} (hs : s.Settled c.analysis k) (hp : p ∈ s.exprs k) :
    ∃ v, c.Makes p v ∧ v.code <:+: (s.emitted c k next).code := by
  cases s with
  | block brace body => exact infix_codeAll body hs hp
  | empty | returnVoid => cases hp
  | varDecl d equals init =>
    obtain rfl := List.mem_singleton.mp hp
    exact ⟨_, ⟨hs.2, next, rfl⟩, (List.prefix_append _ _).isInfix⟩
  | whileLoop mark cond body =>
    rw [emitted]
    rcases List.mem_cons.mp hp with rfl | hp
    · exact ⟨_, ⟨hs.1, next, rfl⟩, List.infix_append' [_] _ _⟩
    · obtain ⟨v, hv, hinfix⟩ := infix_code body hs.2 hp
      exact ⟨v, hv, hinfix.trans ((List.infix_append' [_] _ _).trans (List.suffix_append (_ :: _) _).isInfix)⟩
  | ifThen mark cond yes =>
    rw [emitted]
    rcases List.mem_cons.mp hp with rfl | hp
    · exact ⟨_, ⟨hs.1, next, rfl⟩, (List.prefix_append _ _).isInfix⟩
    · obtain ⟨v, hv, hinfix⟩ := infix_code yes hs.2 hp
      exact ⟨v, hv, hinfix.trans ((List.infix_append' [_] _ _).trans (List.suffix_append _ _).isInfix)⟩
  | ifElse mark cond yes no =>
    rw [exprs, List.mem_cons, List.mem_append] at hp
    rw [emitted]
    rcases hp with rfl | hp | hp
    · exact ⟨_, ⟨hs.1, next, rfl⟩, (List.prefix_append _ _).isInfix⟩
    · obtain ⟨v, hv, hinfix⟩ := infix_code yes hs.2.1 hp
      exact ⟨v, hv, hinfix.trans ((List.infix_append' [_] _ _).trans (List.suffix_append _ _).isInfix)⟩
    · obtain ⟨v, hv, hinfix⟩ := infix_code no hs.2.2 hp
      have hrest (is js : List Instruction) (i : Instruction) (code : List Instruction) : code <:+: is ++ i :: (js ++ code) :=
        ((List.suffix_append (i :: js) code).trans (List.suffix_append _ _)).isInfix
      exact ⟨v, hv, hinfix.trans ((List.infix_append' [_, _] _ _).trans (hrest _ _ _ _))⟩
  | returnValue mark value =>
    obtain rfl := List.mem_singleton.mp hp
    exact ⟨_, ⟨hs, next, rfl⟩, (List.prefix_append _ _).isInfix⟩
  | expr e =>
    obtain rfl := List.mem_singleton.mp hp
    exact ⟨_, ⟨hs, next, rfl⟩, List.infix_refl _⟩

theorem infix_codeAll (ss : List Stmt) {k next : Nat} (hs : SettledAll c.analysis k ss) (hp : p ∈ exprsAll k ss) :
    ∃ v, c.Makes p v ∧ v.code <:+: (emittedAll c k next ss).code := by
  match ss with
  | [] => cases hp
  | s :: ss =>
    rw [exprsAll, List.mem_append] at hp
    rcases hp with hp | hp
    · obtain ⟨v, hv, hinfix⟩ := infix_code s hs.1 hp
      exact ⟨v, hv, hinfix.trans (List.prefix_append _ _).isInfix⟩
    · obtain ⟨v, hv, hinfix⟩ := infix_codeAll ss hs.2 hp
      exact ⟨v, hv, hinfix.trans (List.suffix_append _ _).isInfix⟩

end

end Stmt

/-- The expressions of an item that are no operands of others, with the numbers of their first nodes. -/
def Item.exprs : Nat × Item → List (Nat × Expr)
  | (k, .function d _ params _ body) => Stmt.exprsAll (k + d.size + 1 + Decl.sizes params + 1) body
  | (k, .stmt s) => s.exprs k
  | _ => []

theorem Stmt.infix_codeEach {ps : List (Nat × Stmt)} {next : Nat} (hps : ∀ q ∈ ps, q.2.Settled c.analysis q.1)
    {q : Nat × Stmt} (hq : q ∈ ps) (hp : p ∈ q.2.exprs q.1) :
    ∃ v, c.Makes p v ∧ v.code <:+: (emittedEach c next ps).code := by
  induction ps generalizing next with
  | nil => cases hq
  | cons s ps ih =>
    obtain ⟨hs, hps⟩ := List.forall_mem_cons.mp hps
    rcases List.mem_cons.mp hq with rfl | hq
    · obtain ⟨v, hv, hinfix⟩ := infix_code _ hs hp
      exact ⟨v, hv, hinfix.trans (List.prefix_append _ _).isInfix⟩
    · obtain ⟨v, hv, hinfix⟩ := ih hps hq
      exact ⟨v, hv, hinfix.trans (List.suffix_append _ _).isInfix⟩

theorem Emission.infix_code {name text : String} {m : Module} (e : Emission name text m) {i : Nat × Item}
    (hi : i ∈ Item.placed 1 e.items) (hp : p ∈ Item.exprs i) :
    ∃ body ∈ m.bodies, Counted body ∧ ∃ v, e.context.Makes p v ∧ v.code <:+: body := by
  obtain ⟨j, i⟩ := i
  cases i with
  | struct | prototype => cases hp
  | function d paren params brace body =>
    obtain ⟨f, hf, h⟩ := Expr.exists_of_forall₂ e.functions_emitted (List.mem_filter.mpr ⟨hi, rfl⟩)
    obtain ⟨_, _, _, _, _, next, heq, hbody, hcounted⟩ := h.body_emitted
    cases heq
    refine ⟨f.body, List.mem_append_left _ (List.mem_map_of_mem hf), hcounted, ?_⟩
    rw [hbody]
    exact Stmt.infix_codeAll _ h.1.2.2 hp
  | stmt s =>
    obtain ⟨next, hentry, hcounted⟩ := e.entry_emitted
    refine ⟨m.entry, List.mem_append_right _ (List.mem_singleton_self _), hcounted, ?_⟩
    rw [hentry]
    exact Stmt.infix_codeEach e.settled_entry (Item.mem_entry_iff.mpr ⟨j, _, hi, s, rfl, rfl⟩) hp

/-- The code of the operands stands in a body, one behind the other, and then the instruction that takes all of them. Behind
    the code of an operand and before that instruction, something that the operand reads may be stored to exactly if one of
    the operands behind it has an assignment to it, or a call that can reach it. -/
def Oil.Module.TakesInOrder (m : Module) (c : Context) (operands : List (Nat × Expr)) : Prop :=
  ∃ body ∈ m.bodies, ∃ before parts taking after, body = before ++ parts.flatMap (·.code) ++ taking :: after ∧
    List.Forall₂ c.Computes operands parts ∧ (∀ x ∈ parts, x.value ∈ taking.operands) ∧
    ∀ earlier x later, parts = earlier ++ x :: later →
      (later.flatMap (·.code)).any (Instruction.mayChange x.value) =
        (operands.drop (earlier.length + 1)).any fun q => q.2.disturbs c x.value q.1

/-- Operands are read when they are taken: whatever expression of the program has several operands, each keeps its value until
    then unless one of those behind it disturbs it. -/
theorem Compilation.takesInOrder_of_oil {name text : String} {last : Phase} {c : Compilation} {m : Module}
    (h : ofText name text last = .ok c) (hm : c.oil = some m) :
    ∃ s t a, TokenStream.ofText name text = .ok s ∧ Tree.empty.parse s.tokens = (.ok .root, t) ∧
      Analysis.ofTree t #[] = .ok a ∧ ∀ i ∈ Item.placed 1 (Program.ofTokens s.tokens).items, ∀ q ∈ Item.exprs i, ∀ p,
        Expr.Inside p q → 2 ≤ (p.2.evaluated p.1).length → m.TakesInOrder (Context.of t a m) (p.2.evaluated p.1) := by
  obtain ⟨e⟩ := emission_of_oil h hm
  refine ⟨e.stream, e.tree, e.analysis, e.lexed, e.parsed, Analysis.ofTree_parse e.parsed #[], ?_⟩
  intro i hi q hq p hp hseveral
  obtain ⟨body, hbody, hcounted, v, hv, hinfix⟩ := e.infix_code hi hq
  obtain ⟨r, hr, hinfix'⟩ := hp.infix_code hv
  obtain ⟨parts, last, hparts, hcode, hlast⟩ := Expr.exists_parts hr
  obtain ⟨taking, rfl, htaking⟩ := hlast.resolve_left fun hnil => by simp [hnil ▸ hparts.length_eq] at hseveral
  obtain ⟨before, after, hsplit⟩ := hinfix'.trans hinfix
  have hall : ∀ x ∈ parts, Counted x.code := by
    intro x hx i hi
    refine hcounted i ?_
    rw [← hsplit, hcode]
    simp only [List.mem_append, List.mem_flatMap]
    exact .inl (.inr (.inl ⟨x, hx, hi⟩))
  have hcomputes : List.Forall₂ e.context.Computes (p.2.evaluated p.1) parts :=
    ((List.forall₂_and_left _ _).mpr ⟨hall, hparts.flip⟩).flip.imp fun q x h => Context.Makes.computes h.2 h.1
  refine ⟨body, hbody, before, parts, taking, after, ?_, hcomputes, htaking, fun earlier x later hx => ?_⟩
  · rw [← hsplit, hcode]
    simp
  · -- The operands behind the one at hand are those whose code comes behind its code.
    have hlater := List.forall₂_drop (earlier.length + 1) hparts
    rw [hx, List.drop_append, List.drop_eq_nil_of_le (Nat.le_succ _), Nat.add_sub_cancel_left] at hlater
    exact Expr.any_mayChange_flatMap hlater

/-- A sum whose right operand is an assignment, in a call with a second argument. -/
def Compilation.overwriting : String := "void f(int n, int m); int x = 1; f(x + (x = 2), x);"

theorem Compilation.takesInOrder_of_oil_nested :
    ∃ c m s t a, ofText "t" overwriting .emit = .ok c ∧ c.oil = some m ∧
      TokenStream.ofText "t" overwriting = .ok s ∧
      Tree.empty.parse s.tokens = (.ok .root, t) ∧ Analysis.ofTree t #[] = .ok a ∧
      ∃ i ∈ Item.placed 1 (Program.ofTokens s.tokens).items, ∃ q ∈ Item.exprs i, ∃ p ∈ q.2.evaluated q.1,
        Expr.Inside p q ∧ 2 ≤ (p.2.evaluated p.1).length ∧ m.TakesInOrder (Context.of t a m) (p.2.evaluated p.1) := by
  have hmodule : (module? "t" overwriting).isSome = true := by decide +kernel
  have hnested : (TokenStream.ofText "t" overwriting).toOption.map
      (fun s => (Item.placed 1 (Program.ofTokens s.tokens).items).any fun i => (Item.exprs i).any fun q =>
        (q.2.evaluated q.1).any fun p => 2 ≤ (p.2.evaluated p.1).length) = some true := by
    decide +kernel
  obtain ⟨m, hm⟩ := Option.isSome_iff_exists.mp hmodule
  obtain ⟨c, hc, hoil⟩ := module?_eq_some_iff.mp hm
  obtain ⟨s, t, a, hs, ht, ha, h⟩ := takesInOrder_of_oil hc hoil
  rw [hs] at hnested
  obtain ⟨i, hi, hnested⟩ := List.any_eq_true.mp (Option.some.inj hnested)
  obtain ⟨q, hq, hnested⟩ := List.any_eq_true.mp hnested
  obtain ⟨p, hp, hseveral⟩ := List.any_eq_true.mp hnested
  have hseveral := of_decide_eq_true hseveral
  have hinside := Expr.Inside.operand hp .self
  exact ⟨c, m, s, t, a, hc, hoil, hs, ht, ha, i, hi, q, hq, p, hp, hinside, hseveral, h i hi q hq p hinside hseveral⟩

/-- A variable is given another value before it is added. -/
theorem Compilation.operand_overwritten :
    ∃ c m, ofText "t" "int x = 1; int y = x + (x = 2);" .emit = .ok c ∧ c.oil = some m ∧
      m.text = "int __x;\nint __y;\nvoid __ocmain (void)\n\x7b\n" ++
        "        __x = 1;\n        __x = 2;\n        int i1 = __x + __x;\n        __y = i1;\n\x7d\n" := by
  exact exists_module (by decide +kernel)

end OcCompiler
