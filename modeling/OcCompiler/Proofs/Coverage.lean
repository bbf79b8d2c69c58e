import OcCompiler.Proofs.SingleDeclarations
import OcCompiler.Proofs.StringSlots

/-! Emission covers a program: a record for each struct, a slot for each different string constant, a variable for each
    declaration in the global block, and a definition for each function, emitted statement by statement. -/

namespace OcCompiler

open Oil NameStep

/-! ### Variables of the global block -/

namespace NameDecl

def isVarDecl (d : NameDecl) : Bool := d.attrs.roles == { var := true, lvalue := true }

def isGlobalVar (d : NameDecl) : Bool := d.isVarDecl && d.block == globalBlock

def global? (d : NameDecl) : Option GlobalVariable := d.attrs.type.map fun τ => ⟨.ofType τ, d.name.text⟩

theorem isVariable_of_isVarDecl {d : NameDecl} (h : d.isVarDecl = true) : d.isVariable = true := by
  rw [isVariable, eq_of_beq h]
  rfl

theorem isGlobalVar_of_ne {d : NameDecl} (h : d.block ≠ globalBlock) : ¬d.isGlobalVar = true := by
  simp [isGlobalVar, h]

end NameDecl

theorem Stmt.filter_isGlobalVar (s : Stmt) {next k : Nat} (hnext : globalBlock < next) (outer : List Nat) :
    (NameStep.declared (s.nameSteps globalBlock outer next k)).filter NameDecl.isGlobalVar =
      (s.declared k).map (Decl.variableOf globalBlock) := by
  cases s with
  | block brace body =>
    rw [nameSteps, declared, List.map_nil, List.filter_eq_nil_iff]
    intro d hd
    refine NameDecl.isGlobalVar_of_ne ?_
    rcases block_of_memAll body hd with hblock | hblock <;> omega
  | empty | returnVoid => rfl
  | varDecl d equals init =>
    rw [declared_varDecl]
    rfl
  | whileLoop mark cond body | ifThen mark cond body =>
    rw [nameSteps, declared_append, Expr.declared_nameSteps, declared]
    exact Stmt.filter_isGlobalVar body hnext outer
  | ifElse mark cond yes no =>
    rw [nameSteps, declared_append, Expr.declared_nameSteps, declared_append, List.nil_append, List.filter_append,
      Stmt.filter_isGlobalVar yes hnext outer, Stmt.filter_isGlobalVar no (Nat.lt_add_right _ hnext) outer, declared,
      List.map_append]
  | returnValue mark value | expr e =>
    rw [nameSteps, Expr.declared_nameSteps]
    rfl

theorem Item.filter_isGlobalVar (i : Item) {next k : Nat} (hnext : globalBlock < next) :
    (NameStep.declared (i.nameSteps next k)).filter NameDecl.isGlobalVar =
      (i.declared k).map (Decl.variableOf globalBlock) := by
  have hnone (hi : i.declared k = []) : (NameStep.declared (i.nameSteps next k)).filter NameDecl.isGlobalVar =
      (i.declared k).map (Decl.variableOf globalBlock) := by
    rw [hi, List.map_nil, List.filter_eq_nil_iff]
    intro d hd hglobal
    rcases block_of_mem hd with ⟨-, hvar⟩ | hblock
    · obtain ⟨p, hp, -⟩ := hvar (NameDecl.isVariable_of_isVarDecl (Bool.and_eq_true_iff.mp hglobal).1)
      rw [hi] at hp
      cases hp
    · exact NameDecl.isGlobalVar_of_ne (by omega) hglobal
  cases i with
  | struct | function | prototype => exact hnone rfl
  | stmt s => exact s.filter_isGlobalVar hnext []

theorem Item.filter_isGlobalVarAll (is : List Item) {next k : Nat} (hnext : globalBlock < next) :
    (NameStep.declared (nameStepsAll next k is)).filter NameDecl.isGlobalVar =
      (declaredAll k is).map (Decl.variableOf globalBlock) := by
  induction is generalizing next k with
  | nil => rfl
  | cons i is ih =>
    rw [nameStepsAll, declared_append, List.filter_append, i.filter_isGlobalVar hnext, ih (Nat.lt_add_right _ hnext),
      declaredAll, List.map_append]

/-- Statements one after the other, with the numbers of their first nodes. -/
def Stmt.placed (k : Nat) : List Stmt → List (Nat × Stmt)
  | [] => []
  | s :: ss => (k, s) :: placed (k + s.size) ss

def Item.placedBody? : Nat × Item → Option (List (Nat × Stmt))
  | (k, .function d _ params _ body) => some (Stmt.placed (k + d.size + 1 + Decl.sizes params + 1) body)
  | _ => none

/-- The bodies of the functions of a program, and behind them the statements outside all functions. -/
def Program.placedBodies (items : List Item) : List (List (Nat × Stmt)) :=
  (Item.placed 1 items).filterMap Item.placedBody? ++ [Item.entry 1 items]

def Oil.Context.Emits (c : Context) (p : Nat × Stmt) (code : List Instruction) : Prop :=
  ∃ next r, p.2.lower c p.1 next = .ok r ∧ r.code = code

/-- Some code is that of the statements, one after the other. Where it is spelled out it has each string constant of the
    statements once, apart from constants that are statements of their own. Each is replaced by the slot of its spelling,
    so that none is left. -/
structure Oil.Module.CodeOf (m : Module) (c : Context) (ps : List (Nat × Stmt)) (code : List Instruction) : Prop where
  parts : ∃ parts, List.Forall₂ c.Emits ps parts ∧
    (stringsIn parts.flatten).Perm (ps.flatMap (·.2.strings Expr.effectiveStrings)) ∧
    code = parts.flatten.map (Instruction.substitute (Operand.inSlot m.strings))
  unspelled : stringsIn code = []

section Bodies

variable {c : Context} {ps : List (Nat × Stmt)}

theorem Stmt.emittedAll_eq_emittedEach (ss : List Stmt) (k next : Nat) :
    emittedAll c k next ss = emittedEach c next (placed k ss) := by
  induction ss generalizing k next with
  | nil => rfl
  | cons s ss ih => rw [emittedAll, placed, emittedEach, ih]

theorem exists_parts (slots : List StringSlot)
    (hps : ∀ p ∈ ps, p.2.Settled c.analysis p.1 ∧ ∃ ρ Γ Γ', StmtOk ρ Γ p.2 Γ') {next : Nat}
    (hcounted : Counted (Stmt.emittedEach (c.withSlots slots) next ps).code) :
    ∃ parts, List.Forall₂ c.spelling.Emits ps parts ∧
      (stringsIn parts.flatten).Perm (ps.flatMap (·.2.strings Expr.effectiveStrings)) ∧
      (Stmt.emittedEach (c.withSlots slots) next ps).code = inSlots slots parts.flatten := by
  induction ps generalizing next with
  | nil => exact ⟨[], .nil, .nil, rfl⟩
  | cons p ps ih =>
    obtain ⟨⟨hp, ρ, Γ, Γ', hs⟩, hps⟩ := List.forall_mem_cons.mp hps
    simp only [Stmt.emittedEach, p.2.emitted_withSlots, counted_append, counted_inSlots] at hcounted ⊢
    obtain ⟨parts, hparts, hperm, hcode⟩ := ih hps hcounted.2
    refine ⟨(p.2.emitted c.spelling p.1 next).code :: parts, .cons ⟨next, _, ?_, rfl⟩ hparts, ?_, ?_⟩
    · exact (p.2.lower_yields (c := c.spelling) hp).eq_ok hcounted.1
    · rw [List.flatten_cons, stringsIn_append, List.flatMap_cons]
      exact (List.perm_iff_count.mpr (Stmt.count_strings p.2 p.1 next hs)).append hperm
    · rw [List.flatten_cons, inSlots_append, hcode]

theorem StmtsOk.of_mem {ρ : Option ValueType} {Γ Γ' : Env} {ss : List Stmt} (h : StmtsOk ρ Γ ss Γ') {k : Nat}
    {p : Nat × Stmt} (hp : p ∈ Stmt.placed k ss) : ∃ Δ Δ', StmtOk ρ Δ p.2 Δ' := by
  induction ss generalizing k Γ with
  | nil => cases hp
  | cons s ss ih =>
    cases h with
    | cons hs hss =>
      rcases List.mem_cons.mp hp with rfl | hp
      · exact ⟨_, _, hs⟩
      · exact ih hss hp

theorem Stmt.SettledAll.of_mem {a : Analysis} {k : Nat} {ss : List Stmt} (h : SettledAll a k ss) {p : Nat × Stmt}
    (hp : p ∈ placed k ss) : p.2.Settled a p.1 := by
  induction ss generalizing k with
  | nil => cases hp
  | cons s ss ih =>
    rcases List.mem_cons.mp hp with rfl | hp
    · exact h.1
    · exact ih h.2 hp

end Bodies

/-! ### The strings of statements -/

theorem Expr.effectiveStrings_subset (e : Expr) : e.effectiveStrings ⊆ e.strings := by
  unfold effectiveStrings
  split
  · exact List.nil_subset _
  · exact List.Subset.refl _

mutual

theorem Stmt.mem_strings (s : Stmt) {x : String} (h : x ∈ s.strings Expr.effectiveStrings) : x ∈ s.strings Expr.strings := by
  cases s with
  | block brace body =>
    rw [strings] at h ⊢
    exact Stmt.mem_stringsAll body h
  | whileLoop mark cond body | ifThen mark cond body =>
    rw [strings, List.mem_append] at h ⊢
    exact h.imp_right (Stmt.mem_strings body)
  | ifElse mark cond yes no =>
    rw [strings, List.mem_append, List.mem_append] at h ⊢
    exact h.imp_right (Or.imp (Stmt.mem_strings yes) (Stmt.mem_strings no))
  | expr e =>
    rw [strings] at h ⊢
    exact e.effectiveStrings_subset h
  | empty | varDecl | returnValue | returnVoid =>
    rw [strings] at h ⊢
    exact h

theorem Stmt.mem_stringsAll (ss : List Stmt) {x : String} (h : x ∈ stringsAll Expr.effectiveStrings ss) :
    x ∈ stringsAll Expr.strings ss := by
  match ss with
  | [] => exact h
  | s :: ss =>
    rw [stringsAll, List.mem_append] at h ⊢
    exact h.imp (Stmt.mem_strings s) (Stmt.mem_stringsAll ss)

end

theorem Stmt.flatMap_placed {α : Type} (ss : List Stmt) (k : Nat) (f : Stmt → List α) :
    (placed k ss).flatMap (fun p => f p.2) = ss.flatMap f := by
  induction ss generalizing k with
  | nil => rfl
  | cons s ss ih => rw [placed, List.flatMap_cons, List.flatMap_cons, ih]

theorem Stmt.stringsAll_eq (alone : Expr → List String) (ss : List Stmt) :
    stringsAll alone ss = ss.flatMap (·.strings alone) := by
  induction ss with
  | nil => rfl
  | cons s ss ih => rw [stringsAll, List.flatMap_cons, ih]

namespace Emission

variable {name text : String} {m : Module} (e : Emission name text m)

include e

theorem strings_eq : m.strings = StringSlot.numbered 1 (Program.strings e.items).eraseDups := by
  obtain ⟨next, hstrings⟩ := e.parts.strings
  have hfound : e.analysis.foundStrings e.tree = Program.strings e.items := by
    refine (Item.foundStrings_analyzeAll e.shows_items _).trans ?_
    rw [Analysis.foundStrings_place]
    rfl
  rw [stringSlots_eq_numbered hstrings, List.nil_append, ← hfound]
  congr
  exact List.filter_eq_self.mpr fun _ _ => rfl

theorem globals_resolved : m.globals.map some = ((NameStep.declared (Program.nameSteps e.items)).filter fun d =>
    d.isVarDecl && (e.analysis.decoration d.node).block == globalBlock).map NameDecl.global? := by
  obtain ⟨next, htracks⟩ := Program.tracks e.items #[]
  have hblock : ∀ d ∈ NameStep.declared (Program.nameSteps e.items),
      (d.isVarDecl && (e.analysis.decoration d.node).block == globalBlock) = d.isGlobalVar := by
    intro d hd
    rw [NameDecl.isGlobalVar, ← (htracks.marked d hd).1]
    rfl
  rw [List.filter_congr hblock, Program.nameSteps, Item.filter_isGlobalVarAll e.items (Nat.lt_succ_self globalBlock),
    e.globals_eq, List.map_map, List.map_map]
  rfl

theorem isSome_find? {x : String} (hx : x ∈ Program.strings e.items) : (StringSlot.find? m.strings x).isSome = true := by
  have hspellings : m.strings.map StringSlot.spelling = (Program.strings e.items).eraseDups := by
    rw [e.strings_eq, StringSlot.numbered, List.map_map]
    exact List.zipIdx_map_fst 1 _
  obtain ⟨slot, hslot, hspelling⟩ := List.mem_map.mp (hspellings ▸ List.mem_eraseDups.mpr hx)
  rw [StringSlot.find?, Option.isSome_map, List.find?_isSome]
  exact ⟨slot, hslot, beq_iff_eq.mpr hspelling⟩

theorem codeOf {ps : List (Nat × Stmt)} {next : Nat}
    (hps : ∀ p ∈ ps, p.2.Settled e.analysis p.1 ∧ ∃ ρ Γ Γ', StmtOk ρ Γ p.2 Γ')
    (hcounted : Counted (Stmt.emittedEach e.context next ps).code)
    (hstrings : ∀ p ∈ ps, p.2.strings Expr.strings ⊆ Program.strings e.items) :
    m.CodeOf e.context.spelling ps (Stmt.emittedEach e.context next ps).code := by
  obtain ⟨parts, hparts, hperm, hcode⟩ := exists_parts (c := e.context) m.strings hps hcounted
  refine ⟨⟨parts, hparts, hperm, hcode⟩, ?_⟩
  refine (congrArg stringsIn hcode).trans (stringsIn_inSlot fun x hx => ?_)
  obtain ⟨p, hp, hx⟩ := List.mem_flatMap.mp (hperm.mem_iff.mp hx)
  exact e.isSome_find? (hstrings p hp (p.2.mem_strings hx))

theorem strings_item {i : Item} (hi : i ∈ e.items) : i.strings ⊆ Program.strings e.items :=
  fun _ hx => List.mem_flatMap.mpr ⟨i, hi, hx⟩

theorem codeOf_function {p : Nat × Item} {f : Function} (hp : p ∈ e.functionItems) (h : Item.EmittedAs e.context p f) :
    ∃ body, Item.placedBody? p = some body ∧ m.CodeOf e.context.spelling body f.body := by
  have hsettled := h.1
  obtain ⟨d, paren, params, brace, body, next, hitem, hbody, hcounted⟩ := h.body_emitted
  obtain ⟨j, i⟩ := p
  cases hitem
  refine ⟨_, rfl, ?_⟩
  have hi := Item.mem_of_mem_placed (List.mem_filter.mp hp).1
  rw [Stmt.emittedAll_eq_emittedEach] at hbody
  rw [hbody] at hcounted ⊢
  refine e.codeOf (fun q hq => ⟨hsettled.2.2.of_mem hq, ?_⟩) hcounted fun q hq x hx => ?_
  · obtain ⟨Γ, hok⟩ := e.wellFormed
    obtain ⟨Δ, Δ', hok⟩ := Item.ok_of_mem hok hi
    cases hok with
    | function _ _ _ hbody | announced _ _ _ hbody =>
      obtain ⟨_, hstmts⟩ := hbody.stmts
      obtain ⟨_, _, hstmt⟩ := hstmts.of_mem hq
      exact ⟨_, _, _, hstmt⟩
  · refine e.strings_item hi ?_
    rw [Item.strings, Stmt.stringsAll_eq, ← Stmt.flatMap_placed]
    exact List.mem_flatMap.mpr ⟨q, hq, hx⟩

theorem codeOf_entry : m.CodeOf e.context.spelling (Item.entry 1 e.items) m.entry := by
  obtain ⟨next, hentry, hcounted⟩ := e.entry_emitted
  rw [hentry] at hcounted ⊢
  refine e.codeOf (fun q hq => ⟨e.settled_entry q hq, ?_⟩) hcounted fun q hq x hx => ?_
  · obtain ⟨j, i, hi, s, rfl, rfl⟩ := Item.mem_entry_iff.mp hq
    obtain ⟨Γ, hok⟩ := e.wellFormed
    obtain ⟨Δ, Δ', hok⟩ := Item.ok_of_mem hok (Item.mem_of_mem_placed hi)
    cases hok with
    | stmt hstmt => exact ⟨_, _, _, hstmt⟩
  · obtain ⟨j, i, hi, s, rfl, rfl⟩ := Item.mem_entry_iff.mp hq
    exact e.strings_item (Item.mem_of_mem_placed hi) hx

theorem bodies_codeOf : List.Forall₂ (m.CodeOf e.context.spelling) (Program.placedBodies e.items) m.bodies := by
  refine List.rel_append ?_ (.cons e.codeOf_entry .nil)
  have hfunctions : (Item.placed 1 e.items).filterMap Item.placedBody? = e.functionItems.filterMap Item.placedBody? := by
    rw [functionItems, List.filterMap_filter]
    refine List.filterMap_congr fun p _ => ?_
    obtain ⟨k, i⟩ := p
    cases i <;> rfl
  rw [hfunctions]
  have hall := (List.forall₂_and_left _ _).mpr ⟨fun p hp => hp, e.functions_emitted⟩
  have hbodies := hall.imp fun p f h => e.codeOf_function h.1 h.2
  generalize e.functionItems = ps at hbodies
  generalize m.functions = fs at hbodies
  clear hall hfunctions
  induction hbodies with
  | nil => exact .nil
  | cons h _ ih =>
    obtain ⟨body, hbody, hcode⟩ := h
    rw [List.filterMap_cons, hbody, List.map_cons]
    exact .cons hcode ih

end Emission

/-- What a module has for a program, given the tree of the program and its analysis. -/
structure Oil.Module.Covers (m : Module) (t : Tree) (a : Analysis) (items : List Item) : Prop where
  structs : m.structs = items.filterMap Item.record?
  strings : m.strings = StringSlot.numbered 1 (Program.strings items).eraseDups
  globals : m.globals.map some = ((NameStep.declared (Program.nameSteps items)).filter fun d =>
    d.isVarDecl && (a.decoration d.node).block == globalBlock).map NameDecl.global?
  functions : m.functions.map Function.header = items.filterMap Item.header?
  bodies : List.Forall₂ (m.CodeOf { tree := t, analysis := a }) (Program.placedBodies items) m.bodies
  text : m.text = String.join (m.structs.map StructRecord.text ++ m.strings.map StringSlot.text ++
    m.globals.map GlobalVariable.text ++
    (m.functions ++ [({ result := .void, name := entryName, body := m.entry } : Function)]).map Function.text)

/-- A text about which there is nothing to complain leads to a module that has everything of the program once: the structs,
    the different strings, the variables that were resolved in the global block, the functions and the statements
    outside all functions, in this order and each kind in the order of the program. -/
theorem Compilation.oil_covers_program {name text : String} {c : Compilation} (h : ofText name text .emit = .ok c)
    (hread : c.syntaxError? = none) (hlog : c.log = #[]) :
    ∃ s t a m, TokenStream.ofText name text = .ok s ∧ Tree.empty.parse s.tokens = (.ok .root, t) ∧
      Analysis.ofTree t #[] = .ok a ∧ c.oil = some m ∧ m.Covers t a (Program.ofTokens s.tokens).items := by
  obtain ⟨m, hm⟩ := exists_oil h hread hlog
  obtain ⟨e⟩ := emission_of_oil h hm
  exact ⟨e.stream, e.tree, e.analysis, m, e.lexed, e.parsed, Analysis.ofTree_parse e.parsed #[], hm, {
    structs := e.structs_eq
    strings := e.strings_eq
    globals := e.globals_resolved
    functions := e.headers_eq
    bodies := e.bodies_codeOf
    text := by simp [Module.text, String.join_append, String.join_cons, String.append_assoc] }⟩

/-- A string occurs in a function and outside, one is a statement, and a function has a prototype. Of the variables one is
    below a conditional and two are in braces. -/
def Compilation.everyKind : String :=
  "struct p \x7b int x; \x7d string f(int n);\nif (1 == 2) string g = f(3);\n" ++
    "string f(int n) \x7b string l = \"b\"; return \"a\"; \x7d\n\x7b string h = \"a\"; \x7d \"c\";"

def Compilation.everyKindOil : String :=
  "struct s_p \x7b\n        int f_p_x;\n\x7d;\n" ++
    "char* s1 = \"b\";\nchar* s2 = \"a\";\nchar* s3 = \"c\";\nchar* __g;\n" ++
    "char* __f (\n        int _2_n)\n\x7b\n        char* _2_l = s1;\n        return s2;\n\x7d\n" ++
    "void __ocmain (void)\n\x7b\n        char c4 = 1 == 2;\n        if (!c4) goto fi_0_2_0;\n" ++
    "        char* p5 = __f (3);\n        __g = p5;\nfi_0_2_0:;\n        char* _3_h = s2;\n\x7d\n"

theorem Compilation.oil_covers_program_mixed :
    ∃ c s t a m, ofText "t" everyKind .emit = .ok c ∧
      c.syntaxError? = none ∧ c.log = #[] ∧ c.oil = some m ∧
      m.text = everyKindOil ∧ m.Covers t a (Program.ofTokens (TokenStream.tokens s)).items := by
  have hrun : (ofText "t" everyKind .emit).toOption.map
        (fun c => (c.syntaxError?.isNone, c.log.isEmpty, c.oil.map Module.text)) =
      some (true, true, some everyKindOil) := by
    decide +kernel
  obtain ⟨c, hc, hrun⟩ := Option.map_eq_some_iff.mp hrun
  obtain ⟨hread, hrun⟩ := Prod.mk.inj hrun
  obtain ⟨hlog, htext⟩ := Prod.mk.inj hrun
  have hc := eq_ok_of_toOption hc
  have hread := Option.isNone_iff_eq_none.mp hread
  have hlog := Array.isEmpty_iff.mp hlog
  obtain ⟨s, t, a, m, -, -, -, hm, hcovers⟩ := oil_covers_program hc hread hlog
  rw [hm] at htext
  exact ⟨c, s, t, a, m, hc, hread, hlog, hm, Option.some.inj htext, hcovers⟩

end OcCompiler
