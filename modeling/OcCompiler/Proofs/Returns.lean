import OcCompiler.Proofs.Labels
import OcCompiler.Proofs.TopLevelNames

/-! What is given back. The return instructions of a function come from its return statements, in order, and each gives
    back what the declared type asks for. Nothing is asked of those outside all functions. -/

namespace OcCompiler

open Oil Analysis

variable {c : Context} {e : Expr}

namespace Oil

/-- What a return instruction gives back: a value or nothing. -/
def Instruction.givenBack? : Instruction → Option (Option Operand)
  | .returnValue value => some (some value)
  | .returnVoid => some none
  | _ => none

/-- What the return instructions in some code give back, in order. -/
def givenBack (code : List Instruction) : List (Option Operand) := code.filterMap Instruction.givenBack?

@[simp] theorem givenBack_nil : givenBack [] = [] := rfl

@[simp] theorem givenBack_cons (i : Instruction) (code : List Instruction) :
    givenBack (i :: code) = i.givenBack?.toList ++ givenBack code := by
  cases h : i.givenBack? <;> simp [givenBack, h]

@[simp] theorem givenBack_append (code code' : List Instruction) :
    givenBack (code ++ code') = givenBack code ++ givenBack code' :=
  List.filterMap_append

theorem Instruction.Working.givenBack {i : Instruction} (h : i.Working) : i.givenBack? = none := by
  cases i <;> first | rfl | cases h

end Oil

@[simp] theorem Expr.givenBack_emitted (e : Expr) (k next : Nat) : givenBack (e.emitted c k next).code = [] :=
  List.filterMap_eq_nil_iff.mpr fun i hi => (e.working_emitted k next i hi).givenBack

namespace Stmt

mutual

/-- What the return statements give back, in source order: an expression with the number of its first node, or nothing. -/
def results (k : Nat) : Stmt → List (Option (Nat × Expr))
  | .block _ body => resultsAll (k + 1) body
  | .whileLoop _ cond body => body.results (k + 1 + cond.size)
  | .ifThen _ cond yes => yes.results (k + 1 + cond.size)
  | .ifElse _ cond yes no => yes.results (k + 1 + cond.size) ++ no.results (k + 1 + cond.size + yes.size)
  | .returnValue _ value => [some (k + 1, value)]
  | .returnVoid _ => [none]
  | .empty _ | .varDecl .. | .expr _ => []

def resultsAll (k : Nat) : List Stmt → List (Option (Nat × Expr))
  | [] => []
  | s :: ss => s.results k ++ resultsAll (k + s.size) ss

end

end Stmt

/-- What a return statement gives back, and the operand that is emitted for it. Inside a function, `ρ` is the type that
    the function gives back: a value has a type that fits it, and nothing is given back only where it is void. -/
inductive Oil.Context.Answers (c : Context) (ρ : Option ValueType) : Option (Nat × Expr) → Option Operand → Prop where
  | nothing (h : ∀ τ, ρ = some τ → τ.isVoid = true) : Answers c ρ none none
  | value {k e next r σ} (hlower : Expr.lower c k e next = .ok r) (htype : c.analysis.typeOf (e.topNode k) = some σ)
      (h : ∀ τ, ρ = some τ → τ.isVoid = false ∧ τ.accepts σ = true) : Answers c ρ (some (k, e)) (some r.value)

theorem Oil.Context.Answers.forall_none_iff {ρ : Option ValueType} {results : List (Option (Nat × Expr))}
    {os : List (Option Operand)} (h : List.Forall₂ (c.Answers ρ) results os) :
    (∀ o ∈ os, o = none) ↔ ∀ result ∈ results, result = none := by
  induction h with
  | nil => simp
  | cons h _ ih => cases h <;> simp [ih]

theorem Expr.Settled.typed {a : Analysis} {k : Nat} (h : e.Settled a k) : ∃ τ, a.typeOf (e.topNode k) = some τ := by
  cases e with
  | name | unary | newString => exact h.2
  | constant c lexeme => exact ⟨_, h⟩
  | binary => simpa using h.2.2.1
  | call => simpa using h.2.2.imp fun _ => And.left
  | index => simpa using h.2.2
  | select => simpa using h.2.2
  | newStruct => exact h
  | newArray => simpa using ⟨_, h.2⟩

namespace Stmt

variable {c : Context} {ρ : Option ValueType}

mutual

theorem answers_emitted (s : Stmt) {k next : Nat} (hsettled : s.Settled c.analysis k)
    (hcounted : Counted (s.emitted c k next).code) (hfit : c.analysis.ReturnsFit ρ (s.returns k)) :
    List.Forall₂ (c.Answers ρ) (s.results k) (givenBack (s.emitted c k next).code) := by
  cases s with
  | block brace body =>
    rw [emitted] at hcounted ⊢
    exact answers_emittedAll body hsettled hcounted hfit
  | empty | expr => simp [results, emitted]
  | varDecl d equals init =>
    simp only [results, emitted]
    split <;> simp [Instruction.givenBack?]
  | whileLoop mark cond body | ifThen mark cond body =>
    simp only [emitted, counted_append, counted_cons, counted_nil, Instruction.declares, List.not_mem_nil, false_implies,
      implies_true, true_and, and_true] at hcounted
    have hbody := answers_emitted body hsettled.2 hcounted.2 hfit
    simpa [results, emitted, Instruction.givenBack?] using hbody
  | ifElse mark cond yes no =>
    simp only [emitted, counted_append, counted_cons, counted_nil, Instruction.declares, List.not_mem_nil, false_implies,
      implies_true, true_and, and_true] at hcounted
    obtain ⟨hfit, hfit'⟩ := returnsFit_append.mp hfit
    have hyes := answers_emitted yes hsettled.2.1 hcounted.2.1 hfit
    have hno := answers_emitted no hsettled.2.2 hcounted.2.2 hfit'
    simpa [results, emitted, Instruction.givenBack?] using List.rel_append hyes hno
  | returnValue mark value =>
    obtain ⟨σ, hσ⟩ := Expr.Settled.typed hsettled
    rw [emitted, counted_append] at hcounted
    have hanswer : c.Answers ρ (some (k + 1, value)) (some (value.emitted c (k + 1) next).value) := by
      refine .value ((value.lower_yields hsettled).eq_ok hcounted.1) hσ fun τ hτ => ?_
      have hcause : Typing.returned τ (c.analysis.typeOf (value.topNode (k + 1))) = none :=
        hfit τ hτ _ (List.mem_singleton_self _)
      rw [hσ] at hcause
      exact Typing.returned_eq_none_iff.mp hcause
    simpa [results, emitted, Instruction.givenBack?] using hanswer
  | returnVoid mark =>
    refine .cons (.nothing fun τ hτ => ?_) .nil
    exact Typing.returnedNothing_eq_none_iff.mp (hfit τ hτ _ (List.mem_singleton_self _))

theorem answers_emittedAll (ss : List Stmt) {k next : Nat} (hsettled : SettledAll c.analysis k ss)
    (hcounted : Counted (emittedAll c k next ss).code) (hfit : c.analysis.ReturnsFit ρ (returnsAll k ss)) :
    List.Forall₂ (c.Answers ρ) (resultsAll k ss) (givenBack (emittedAll c k next ss).code) := by
  match ss with
  | [] => exact .nil
  | s :: ss =>
    rw [emittedAll, counted_append] at hcounted
    obtain ⟨hfit, hfit'⟩ := returnsFit_append.mp hfit
    rw [emittedAll, resultsAll, givenBack_append]
    exact List.rel_append (answers_emitted s hsettled.1 hcounted.1 hfit)
      (answers_emittedAll ss hsettled.2 hcounted.2 hfit')

end

theorem answers_emittedEach {ps : List (Nat × Stmt)} {next : Nat} (hsettled : ∀ p ∈ ps, p.2.Settled c.analysis p.1)
    (hcounted : Counted (emittedEach c next ps).code) :
    List.Forall₂ (c.Answers none) (ps.flatMap fun p => p.2.results p.1) (givenBack (emittedEach c next ps).code) := by
  induction ps generalizing next with
  | nil => exact .nil
  | cons p ps ih =>
    obtain ⟨hp, hps⟩ := List.forall_mem_cons.mp hsettled
    rw [emittedEach, counted_append] at hcounted
    have hfit : c.analysis.ReturnsFit none (p.2.returns p.1) := nofun
    rw [emittedEach, List.flatMap_cons, givenBack_append]
    exact List.rel_append (answers_emitted p.2 hp hcounted.1 hfit) (ih hps hcounted.2)

end Stmt

namespace Item

variable {d : Decl} {paren brace : Lexeme} {params : List Decl} {body : List Stmt}

theorem returnsFit_of_quiet {k : Nat} {a : Analysis}
    (hname : ((Item.function d paren params brace body).analyze k a).typeOf ⟨k + 1⟩ = some d.type)
    (hquiet : ((Item.function d paren params brace body).analyze k a).log = a.log) :
    ((Item.function d paren params brace body).analyze k a).ReturnsFit (some d.type)
      (Stmt.returnsAll (k + d.size + 1 + Decl.sizes params + 1) body) := by
  have hd := d.two_le_size
  rw [analyze_function] at hname hquiet ⊢
  dsimp only at hname hquiet ⊢
  generalize hm : k + d.size + 1 + Decl.sizes params + 1 = m at *
  have hhead := (effect_place (k := 0) a (n := ⟨m + Stmt.sizes body⟩) .function (Nat.zero_le _) (Nat.lt_succ_self _)).trans
    ((openFunction_effect d params (functionRoles false) rfl k _).mono (Nat.zero_le k) (by dsimp only; omega))
  have henter := (enterBody_effect k ⟨m + Stmt.sizes body⟩ d params body
    ((a.place ⟨m + Stmt.sizes body⟩ .function).openHead k d params false)).mono (Nat.zero_le k)
      (by omega : _ ≤ m + Stmt.sizes body + 1)
  have hbefore := hhead.trans (henter.trans ((Stmt.analyzeAll_effect body m _).mono (Nat.zero_le m) (Nat.le_succ _)))
  generalize Stmt.analyzeAll m body (enterBody k ⟨m + Stmt.sizes body⟩ d params body
    ((a.place ⟨m + Stmt.sizes body⟩ .function).openHead k d params false)) = b at *
  unfold leaveBody at hname hquiet ⊢
  have hleave := effect_apply b.exitBlock (k := m + Stmt.sizes body) (n := ⟨m + Stmt.sizes body⟩)
    (b.exitBlock.functionVerdict ⟨k + 1⟩ d.name (Stmt.returnsAll m body)) (Nat.le_refl _) (Nat.lt_succ_self _)
  have hsilent := (log_apply_eq_iff _ _ _).mp (Effect.quiet (hbefore.trans (effect_exitBlock b)) hleave hquiet).2
  rw [typeOf, attrs, hleave.decor _ (.inl (by dsimp only; omega))] at hname
  rw [returnsFit_effect (Stmt.returnsAll_within body m) hleave (.inl (Nat.le_refl _))]
  exact ((functionVerdict_eq_nil_iff hname _).mp hsilent).2

theorem returnsFit_of_mem_placed {is : List Item} {k j : Nat} {a : Analysis} (hquiet : (analyzeAll k is a).log = a.log)
    (hsettled : SettledAll (analyzeAll k is a) k is) (hi : (j, .function d paren params brace body) ∈ placed k is) :
    (analyzeAll k is a).ReturnsFit (some d.type) (Stmt.returnsAll (j + d.size + 1 + Decl.sizes params + 1) body) := by
  induction is generalizing k a with
  | nil => cases hi
  | cons i is ih =>
    have hrest := analyzeAll_effect is (k + i.size) (i.analyze k a)
    obtain ⟨hquiet, hquiet'⟩ := (i.analyze_effect k a).quiet hrest hquiet
    rcases List.mem_cons.mp hi with heq | hi
    · cases heq
      have hd := d.two_le_size
      rw [size_function] at hrest
      have hname := hsettled.1.1
      rw [analyzeAll, size_function, typeOf, attrs, hrest.decor _ (.inl (by dsimp only; omega))] at hname
      rw [analyzeAll, size_function, returnsFit_effect (Stmt.returnsAll_within body _) hrest (.inl (by omega))]
      exact returnsFit_of_quiet hname hquiet
    · exact ih hquiet' hsettled.2 hi

/-- A function of the program and the function that it becomes: its return instructions answer for its return statements,
    which give back what its type asks for. -/
def GivesBack (c : Context) (p : Nat × Item) (f : Function) : Prop :=
  ∃ d paren params brace body, p.2 = .function d paren params brace body ∧ f.result = .ofType d.type ∧
    List.Forall₂ (c.Answers (some d.type)) (Stmt.resultsAll (p.1 + d.size + 1 + Decl.sizes params + 1) body)
      (givenBack f.body)

end Item

theorem Oil.Storage.isVoid_of_ofType {τ : ValueType} (h : Storage.ofType τ = .void) : τ.isVoid = true := by
  rcases τ with ((_ | _ | _ | _ | _) | _) | _ | _ <;> first | rfl | cases h

theorem Item.GivesBack.eq_none_of_void {p : Nat × Item} {f : Function} (h : GivesBack c p f)
    (hvoid : f.result = .void) : ∀ o ∈ givenBack f.body, o = none := by
  obtain ⟨d, paren, params, brace, body, -, hresult, hanswers⟩ := h
  have hnone : List.Forall₂ (fun o _ => o = none ∧ True) (givenBack f.body) _ := hanswers.flip.imp fun o result hanswer => by
    cases hanswer with
    | nothing => exact ⟨rfl, trivial⟩
    | value _ _ hfits =>
      have hnot := (hfits _ rfl).1
      rw [Storage.isVoid_of_ofType (hresult.symm.trans hvoid)] at hnot
      cases hnot
  exact ((List.forall₂_and_left _ _).mp hnone).1

namespace Emission

variable {name text : String} {m : Module} (e : Emission name text m)

theorem functions_giveBack : List.Forall₂ (Item.GivesBack e.context) e.functionItems m.functions := by
  refine ((List.forall₂_and_left _ _).mpr ⟨fun p hp => hp, e.functions_emitted⟩).imp ?_
  rintro ⟨j, i⟩ f ⟨hp, hf⟩
  have hi := (List.mem_filter.mp hp).1
  have hsettled := hf.1
  have hheader := Item.header_of_emittedAs hf
  obtain ⟨d, paren, params, brace, body, next, rfl, hbody, hcounted⟩ := hf.body_emitted
  refine ⟨d, paren, params, brace, body, rfl, (congrArg FunctionHeader.result (Option.some.inj hheader)).symm, ?_⟩
  rw [hbody] at hcounted ⊢
  refine Stmt.answers_emittedAll body hsettled.2.2 hcounted ?_
  exact Item.returnsFit_of_mem_placed (a := Analysis.place .root .root {}) e.quiet e.settled hi

theorem entry_givesBack :
    List.Forall₂ (e.context.Answers none) ((Item.entry 1 e.items).flatMap fun p => p.2.results p.1) (givenBack m.entry) := by
  obtain ⟨next, hentry, hcounted⟩ := e.entry_emitted
  rw [hentry] at hcounted ⊢
  exact Stmt.answers_emittedEach e.settled_entry hcounted

end Emission

/-- In a module, the return instructions of a function answer for the return statements of the function that it comes from,
    and fit its type. A function whose type in C is void gives back nothing. The entry, which is void as well, does so
    exactly if no return statement outside all functions has a value: what these give back is emitted as it stands. -/
theorem Compilation.returns_fit {name text : String} {last : Phase} {c : Compilation} {m : Module}
    (h : ofText name text last = .ok c) (hm : c.oil = some m) :
    ∃ s t a, TokenStream.ofText name text = .ok s ∧ Tree.empty.parse s.tokens = (.ok .root, t) ∧ ofTree t #[] = .ok a ∧
      List.Forall₂ (Item.GivesBack (.of t a m)) ((Item.placed 1 (Program.ofTokens s.tokens).items).filter (·.2.isFunction))
        m.functions ∧
      (∀ f ∈ m.functions, f.result = .void → ∀ o ∈ givenBack f.body, o = none) ∧
      List.Forall₂ ((Context.of t a m).Answers none)
        ((Item.entry 1 (Program.ofTokens s.tokens).items).flatMap fun p => p.2.results p.1) (givenBack m.entry) ∧
      ((∀ o ∈ givenBack m.entry, o = none) ↔
        ∀ p ∈ Item.entry 1 (Program.ofTokens s.tokens).items, ∀ result ∈ p.2.results p.1, result = none) := by
  obtain ⟨e⟩ := emission_of_oil h hm
  refine ⟨e.stream, e.tree, e.analysis, e.lexed, e.parsed, ofTree_parse e.parsed #[], e.functions_giveBack, ?_,
    e.entry_givesBack, ?_⟩
  · intro f hf hvoid
    obtain ⟨i, hi, rfl⟩ := List.mem_iff_getElem.mp hf
    exact (e.functions_giveBack.get (e.functions_giveBack.length_eq ▸ hi) hi).eq_none_of_void hvoid
  · rw [Context.Answers.forall_none_iff e.entry_givesBack]
    simp only [List.mem_flatMap, forall_exists_index, and_imp]
    exact ⟨fun h p hp result => h result p hp, fun h result p hp => h p hp result⟩

/-- Values and nothing are given back, at the top of a body and deep inside, and so are a value and nothing outside. -/
def Compilation.returning : String :=
  "int f(int a) \x7b if (a < 0) return 0; return a; \x7d void g() \x7b while (true) return; \x7d " ++
    "string h() \x7b \x7b return null; \x7d \x7d return f(1); return;"

theorem Compilation.returns_fit_program :
    ∃ c m, ofText "t" returning .emit = .ok c ∧ c.oil = some m ∧
      m.functions.map (fun f => (f.result.text, (givenBack f.body).map (·.map Operand.text))) =
        [("int", [some "0", some "_1_a"]), ("void", [none]), ("char*", [some "0"])] ∧
      (givenBack m.entry).map (·.map Operand.text) = [some "i2", none] ∧
      ∃ s t a, TokenStream.ofText "t" returning = .ok s ∧ Tree.empty.parse s.tokens = (.ok .root, t) ∧ ofTree t #[] = .ok a ∧
        List.Forall₂ (Item.GivesBack (.of t a m)) ((Item.placed 1 (Program.ofTokens s.tokens).items).filter (·.2.isFunction))
          m.functions := by
  refine exists_module_and_and (by decide +kernel) fun hc hoil => ?_
  obtain ⟨s, t, a, hs, ht, ha, hfunctions, -⟩ := returns_fit hc hoil
  exact ⟨s, t, a, hs, ht, ha, hfunctions⟩

/-- A value may be given back outside all functions, and then the entry, which is void, gives it back. -/
theorem Compilation.value_from_entry :
    ∃ c m, ofText "t" "return 1;" .emit = .ok c ∧ c.oil = some m ∧
      m.text = "void __ocmain (void)\n\x7b\n        return 1;\n\x7d\n" ∧
      ∃ o ∈ givenBack m.entry, o ≠ none := by
  exact exists_module (by decide +kernel)

end OcCompiler
