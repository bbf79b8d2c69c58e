import OcCompiler.Proofs.VariableScope

/-! Names in oil denote what the program means. Two of them are spelled alike if and only if they have the same symbol,
    and a variable is used only in a function that knows it. -/

namespace OcCompiler

open Oil NameStep

namespace Oil

def Function.vars (f : Function) : List Variable := f.params.map (·.2) ++ varsIn f.body

/-- The functions of a module, of which the last holds the statements outside all functions. -/
def Module.routines (m : Module) : List Function :=
  m.functions ++ [{ result := .void, name := entryName, body := m.entry }]

def Module.globalVars (m : Module) : List Variable := m.globals.map fun g => ⟨g.name, globalBlock⟩

def Module.vars (m : Module) : List Variable := m.globalVars ++ m.routines.flatMap Function.vars

end Oil

/-- The names that a function mentions: its parameters and those in its body. -/
def Item.mentions (k : Nat) : Item → List (Lexeme × NodeId)
  | .function d _ params _ body => (Decl.placed (k + d.size + 1) params).map Decl.mention ++
      Stmt.mentionsAll (k + d.size + 1 + Decl.sizes params + 1) body
  | _ => []

/-- The names that the oil of a program mentions: global variables, then functions, then statements outside of them. -/
def Program.mentions (items : List Item) : List (Lexeme × NodeId) :=
  (Item.declaredAll 1 items).map Decl.mention ++
    (((Item.placed 1 items).filter (·.2.isFunction)).flatMap (fun p => p.2.mentions p.1) ++
      (Item.entry 1 items).flatMap fun p => p.2.mentions p.1)

def Analysis.oilName (a : Analysis) (p : Lexeme × NodeId) : Variable := ⟨p.1.text, (a.decoration p.2).block⟩

/-- The name is that of the declaration itself, or it is used where static scoping binds it to the declaration. -/
def NameStep.StandsFor (steps : List NameStep) (p : Lexeme × NodeId) (d : NameDecl) : Prop :=
  p = (d.name, d.node) ∨ ∃ before blocks after, steps = before ++ .refer blocks p.1 p.2 :: after ∧
    NameDecl.binding (declared before) blocks p.1.text = some d

/-- A name, the declaration that it stands for, and the symbol that both have. -/
structure Analysis.Means (a : Analysis) (steps : List NameStep) (p : Lexeme × NodeId) (d : NameDecl) (id : SymbolId) : Prop where
  declared : d ∈ declared steps
  standsFor : StandsFor steps p d
  symbol : (a.decoration p.2).symbol = some id
  isSymbol : a.IsSymbolOf d id
  oilName : a.oilName p = d.oilName

/-! ### What is mentioned is named in the program -/

theorem Stmt.declare_mem (s : Stmt) {block next k : Nat} {outer : List Nat} {p : Nat × Decl} (h : p ∈ s.declared k) :
    .declare (Decl.variableOf block p) ∈ s.nameSteps block outer next k := by
  cases s with
  | block | empty | returnValue | returnVoid | expr => cases h
  | varDecl d equals init =>
    obtain rfl := List.mem_singleton.mp h
    rw [nameSteps]
    exact List.mem_append_right _ (List.mem_singleton_self _)
  | whileLoop mark cond body | ifThen mark cond body =>
    rw [nameSteps]
    exact List.mem_append_right _ (Stmt.declare_mem body h)
  | ifElse mark cond yes no =>
    rw [declared] at h
    rw [nameSteps]
    rcases List.mem_append.mp h with h | h
    · exact List.mem_append_right _ (List.mem_append_left _ (Stmt.declare_mem yes h))
    · exact List.mem_append_right _ (List.mem_append_right _ (Stmt.declare_mem no h))

theorem Item.declare_mem {is : List Item} {next k : Nat} {p : Nat × Decl} (h : p ∈ declaredAll k is) :
    .declare (Decl.variableOf globalBlock p) ∈ nameStepsAll next k is := by
  induction is generalizing next k with
  | nil => cases h
  | cons i is ih =>
    rw [nameStepsAll]
    rcases List.mem_append.mp h with h | h
    · cases i with
      | stmt s => exact List.mem_append_left _ (s.declare_mem h)
      | struct | function | prototype => cases h
    · exact List.mem_append_right _ (ih h)

def NameStep.IsMention (s : NameStep) : Prop := ∀ d, s = .declare d → d.isVariable = true

theorem NameStep.isMention_of_mem {steps : List NameStep} (h : ∀ d ∈ declared steps, d.attrs.roles.function = false)
    {s : NameStep} (hs : s ∈ steps) : s.IsMention := by
  rintro d rfl
  rw [NameDecl.isVariable, h d (List.mem_filterMap.mpr ⟨_, hs, rfl⟩)]
  rfl

theorem Item.step_of_mem_mentions {i : Item} {next k : Nat} {p : Lexeme × NodeId} (h : p ∈ i.mentions k) :
    ∃ s ∈ i.nameSteps next k, s.mention = p ∧ s.IsMention := by
  cases i with
  | struct | prototype | stmt => cases h
  | function d paren params brace body =>
    rw [mentions, ← Decl.mentions_paramSteps params next] at h
    rw [nameSteps]
    rcases List.mem_append.mp h with h | h
    · obtain ⟨s, hs, rfl⟩ := List.mem_map.mp h
      exact ⟨s, List.mem_cons_of_mem _ (List.mem_append_left _ hs), rfl, isMention_of_mem Decl.declared_paramSteps hs⟩
    · obtain ⟨s, hs, rfl⟩ := List.mem_map.mp (Stmt.mentions_subsetAll body next [globalBlock] (next + 1) _ h)
      exact ⟨s, List.mem_cons_of_mem _ (List.mem_append_right _ hs), rfl,
        isMention_of_mem (Stmt.declared_nameStepsAll body) hs⟩

theorem Program.step_of_mem_mentions {items : List Item} {p : Lexeme × NodeId} (h : p ∈ mentions items) :
    ∃ s ∈ nameSteps items, s.mention = p ∧ s.IsMention := by
  rcases List.mem_append.mp h with h | h
  · obtain ⟨q, hq, rfl⟩ := List.mem_map.mp h
    refine ⟨_, Item.declare_mem hq, rfl, ?_⟩
    rintro d heq
    cases heq
    rfl
  rcases List.mem_append.mp h with h | h
  · obtain ⟨⟨j, i⟩, hi, hp⟩ := List.mem_flatMap.mp h
    obtain ⟨number, hnumber⟩ := Item.nameSteps_of_mem_placed (List.mem_filter.mp hi).1
    obtain ⟨s, hs, hmention⟩ := Item.step_of_mem_mentions hp
    exact ⟨s, hnumber s hs, hmention⟩
  · obtain ⟨q, hq, hp⟩ := List.mem_flatMap.mp h
    obtain ⟨j, i, hi, s, rfl, rfl⟩ := Item.mem_entry_iff.mp hq
    obtain ⟨number, hnumber⟩ := Item.nameSteps_of_mem_placed hi
    obtain ⟨step, hstep, rfl⟩ := List.mem_map.mp (s.mentions_subset globalBlock [] number j hp)
    exact ⟨step, hnumber step hstep, rfl, isMention_of_mem s.declared_nameSteps hstep⟩

namespace Analysis.Denotes

variable {a : Analysis} {steps : List NameStep}

theorem names (ha : a.Denotes steps) (hapart : (declared steps).Pairwise NameDecl.Apart) {s : NameStep} (hs : s ∈ steps)
    (hmention : s.IsMention) :
    ∃ d id, a.Means steps s.mention d id ∧ NameDecl.first (declared steps) d.block d.name.text = some d := by
  cases s with
  | declare d =>
    have hd : d ∈ declared steps := List.mem_filterMap.mpr ⟨_, hs, rfl⟩
    obtain ⟨hblock, id, hid⟩ := ha.marked d hd
    refine ⟨d, id, ⟨hd, .inl rfl, hid.node, hid, ?_⟩, NameDecl.first_of_apart hapart hd (hmention d rfl)⟩
    exact congrArg (Variable.mk d.name.text) hblock
  | refer blocks x n =>
    obtain ⟨before, after, rfl⟩ := List.append_of_mem hs
    obtain ⟨d, id, hbinding, hblock, hsymbol, hid⟩ := ha.bound _ _ _ _ _ rfl
    have hd := List.mem_append_left (declared (.refer blocks x n :: after)) (NameDecl.binding_mem hbinding)
    refine ⟨d, id, ⟨declared_append ▸ hd, .inr ⟨before, blocks, after, rfl, hbinding⟩, hsymbol, hid, ?_⟩, ?_⟩
    · show (⟨x.text, (a.decoration n).block⟩ : Variable) = d.oilName
      rw [hblock, ← NameDecl.text_of_binding hbinding]
      rfl
    · have hfirst := NameDecl.first_of_binding hbinding
      rw [NameDecl.first] at hfirst ⊢
      rw [declared_append, List.find?_append, hfirst]
      rfl

end Analysis.Denotes

theorem Analysis.Means.text_eq_iff {a : Analysis} {steps : List NameStep} {p q : Lexeme × NodeId} {d e : NameDecl} {x y : SymbolId}
    (hp : a.Means steps p d x) (hd : NameDecl.first (NameStep.declared steps) d.block d.name.text = some d)
    (hq : a.Means steps q e y) (he : NameDecl.first (NameStep.declared steps) e.block e.name.text = some e) :
    (a.oilName p).text = (a.oilName q).text ↔ (a.decoration p.2).symbol = (a.decoration q.2).symbol := by
  rw [hp.oilName, hq.oilName, hp.symbol, hq.symbol]
  constructor
  · intro htext
    have hname : d.oilName = e.oilName := Variable.text_inj htext
    have hblock : d.block = e.block := congrArg Variable.block hname
    have htext : d.name.text = e.name.text := congrArg Variable.name hname
    -- Both are the first declaration of the same name in the same block.
    rw [hblock, htext, he] at hd
    obtain rfl := Option.some.inj hd
    rw [← hp.isSymbol.node, hq.isSymbol.node]
  · intro hsymbol
    obtain rfl := Option.some.inj hsymbol
    have hname : d.name.text = e.name.text := hp.isSymbol.name.symm.trans hq.isSymbol.name
    have hblock : d.block = e.block := hp.isSymbol.block.symm.trans hq.isSymbol.block
    rw [NameDecl.oilName, NameDecl.oilName, hname, hblock]

theorem Item.EmittedAs.vars_eq {c : Context} {p : Nat × Item} {f : Function} (h : EmittedAs c p f) :
    f.vars = c.varsAt (p.2.mentions p.1) := by
  obtain ⟨d, paren, params, brace, body, first, hitem, hparams, hbody⟩ := h.parts_emitted
  rw [hitem, mentions, Context.varsAt_append, Function.vars, hparams, hbody, Stmt.varsIn_emittedAll]

theorem Item.vars_of_emittedAs {c : Context} {ps : List (Nat × Item)} {fs : List Function}
    (h : List.Forall₂ (EmittedAs c) ps fs) : fs.flatMap Function.vars = c.varsAt (ps.flatMap fun p => p.2.mentions p.1) := by
  induction h with
  | nil => rfl
  | cons hf _ ih =>
    rw [List.flatMap_cons, List.flatMap_cons, hf.vars_eq, ih, Context.varsAt_append]

theorem Stmt.varsIn_emittedEach {c : Context} (ps : List (Nat × Stmt)) (first : Nat) :
    varsIn (emittedEach c first ps).code = c.varsAt (ps.flatMap fun p => p.2.mentions p.1) := by
  induction ps generalizing first with
  | nil => rfl
  | cons p ps ih => simp [emittedEach, p.2.varsIn_emitted, ih]

namespace Emission

variable {name text : String} {m : Module} (e : Emission name text m)

include e

theorem denotes : e.analysis.Denotes (Program.nameSteps e.items) := Program.denotes_of_quiet e.quiet

theorem globalVars_eq :
    m.globalVars = (Item.declaredAll 1 e.items).map fun p => (Decl.variableOf globalBlock p).oilName := by
  have hnames := congrArg (List.map fun x => (⟨x, globalBlock⟩ : Variable)) e.names_globals
  rwa [List.map_map, List.map_map] at hnames

theorem vars_eq : m.vars = (Program.mentions e.items).map e.analysis.oilName := by
  have hglobals : m.globalVars = ((Item.declaredAll 1 e.items).map Decl.mention).map e.analysis.oilName := by
    rw [e.globalVars_eq, List.map_map]
    refine List.map_congr_left fun p hp => ?_
    have hmem : Decl.variableOf globalBlock p ∈ declared (Program.nameSteps e.items) :=
      List.mem_filterMap.mpr ⟨_, Item.declare_mem hp, rfl⟩
    exact congrArg (Variable.mk p.2.name.text) (e.denotes.marked _ hmem).1.symm
  obtain ⟨first, hentry, -⟩ := e.entry_emitted
  rw [Module.vars, Module.routines, List.flatMap_append, Item.vars_of_emittedAs e.functions_emitted, hglobals,
    Program.mentions, List.map_append, List.map_append]
  simp only [List.flatMap_singleton, Function.vars, List.map_nil, List.nil_append, hentry, Stmt.varsIn_emittedEach]
  rfl

theorem usesDeclared {f : Function} (hf : f ∈ m.routines) :
    UsesDeclared (globalNames (Program.nameSteps e.items) ++ f.params.map (·.2)) f.body := by
  rcases List.mem_append.mp hf with hf | hf
  · obtain ⟨p, hp, hemitted⟩ := e.exists_of_mem_functions hf
    obtain ⟨before, next, hsteps⟩ := Item.stepsAt_of_mem_placed (List.mem_filter.mp hp).1 (Nat.lt_succ_self globalBlock)
    exact hemitted.usesDeclared e.denotes hsteps
  · obtain rfl := List.mem_singleton.mp hf
    obtain ⟨first, hentry, -⟩ := e.entry_emitted
    rw [List.map_nil, List.append_nil, hentry]
    refine Stmt.usesDeclared_emittedEach e.denotes (fun p hp => ?_) first
    obtain ⟨j, i, hi, s, rfl, rfl⟩ := Item.mem_entry_iff.mp hp
    exact Item.stepsAt_of_mem_placed hi (Nat.lt_succ_self globalBlock)

theorem mem_globalVars {d : NameDecl} (hd : d ∈ declared (Program.nameSteps e.items)) (hvar : d.isVariable = true)
    (hglobal : d.oilName ∈ globalNames (Program.nameSteps e.items)) : d.oilName ∈ m.globalVars := by
  obtain ⟨d', -, hblock, hname⟩ := mem_globalNames_iff.mp hglobal
  have hblock : d.block = globalBlock := (congrArg Variable.block hname).symm.trans hblock
  obtain ⟨p, hp, rfl⟩ := Item.global_of_mem hd (Nat.lt_succ_self globalBlock) hblock hvar
  rw [e.globalVars_eq]
  exact List.mem_map.mpr ⟨p, hp, rfl⟩

end Emission

/-- The variables in a module are the names that its program mentions, in order, and each of these has a declaration and
    its symbol. Two of them are the same text exactly if they have the same symbol, and none is the text of a register.
    Where an instruction mentions a variable other than to declare it, this is a parameter of its function, declared by
    an instruction before it, or a global variable of the module. -/
theorem Compilation.variables_denote {name text : String} {last : Phase} {c : Compilation} {m : Module}
    (h : ofText name text last = .ok c) (hm : c.oil = some m) :
    ∃ s t a items, TokenStream.ofText name text = .ok s ∧ Tree.empty.parse s.tokens = (.ok .root, t) ∧
      Analysis.ofTree t #[] = .ok a ∧ items = (Program.ofTokens s.tokens).items ∧
      m.vars = (Program.mentions items).map a.oilName ∧
      (∀ p ∈ Program.mentions items, ∃ d id, a.Means (Program.nameSteps items) p d id) ∧
      (∀ p ∈ Program.mentions items, ∀ q ∈ Program.mentions items,
        (a.oilName p).text = (a.oilName q).text ↔ (a.decoration p.2).symbol = (a.decoration q.2).symbol) ∧
      (∀ v ∈ m.vars, ∀ r : Register, v.text ≠ r.text) ∧
      ∀ d ∈ declared (Program.nameSteps items), d.isVariable = true →
        ∀ f ∈ m.routines, ∀ before i after, f.body = before ++ i :: after → d.oilName ∈ i.usedVars →
          d.oilName ∈ f.params.map (·.2) ∨ d.oilName ∈ newVarsIn before ∨ d.oilName ∈ m.globalVars := by
  obtain ⟨e⟩ := emission_of_oil h hm
  have hmeans (p : Lexeme × NodeId) (hp : p ∈ Program.mentions e.items) :
      ∃ d id, e.analysis.Means (Program.nameSteps e.items) p d id ∧
        NameDecl.first (declared (Program.nameSteps e.items)) d.block d.name.text = some d := by
    obtain ⟨s, hs, rfl, hmention⟩ := Program.step_of_mem_mentions hp
    exact e.denotes.names e.wellFormed.apart hs hmention
  refine ⟨e.stream, e.tree, e.analysis, e.items, e.lexed, e.parsed, Analysis.ofTree_parse e.parsed #[], rfl, e.vars_eq,
    fun p hp => ?_, fun p hp q hq => ?_, fun v _ r htext => r.text_ne_variable v htext.symm, ?_⟩
  · obtain ⟨d, id, hp, -⟩ := hmeans p hp
    exact ⟨d, id, hp⟩
  · obtain ⟨d, x, hp, hd⟩ := hmeans p hp
    obtain ⟨d', y, hq, hd'⟩ := hmeans q hq
    exact hp.text_eq_iff hd hq hd'
  · intro d hd hvar f hf before i after hbody hused
    have huses := e.usesDeclared hf
    rw [hbody] at huses
    rcases huses.mem_or_mem hused with hknown | hnew
    · rcases List.mem_append.mp hknown with hglobal | hparam
      · exact .inr (.inr (e.mem_globalVars hd hvar hglobal))
      · exact .inl hparam
    · exact .inr (.inl hnew)

/-- One name for a global variable, a parameter and variables of inner blocks, first values with the outer variable of the
    same name, and a declaration without braces. -/
def Compilation.shadowing : String :=
  "int x = 1;\nint f(int x) \x7b \x7b int x = x; x = 2; \x7d if (x == 3) int y = x; return x; \x7d\n" ++
    "\x7b int x = f(x); \x7d\nint y = x;\n"

theorem Compilation.variables_denote_blocks :
    ∃ c m, ofText "t" shadowing .emit = .ok c ∧ c.oil = some m ∧
      m.vars.map Variable.text = ["__x", "__y", "_1_x", "_2_x", "_1_x", "_2_x", "_1_x", "_1_y", "_1_x", "_1_x", "__x", "__f",
        "__x", "_3_x", "__y", "__x"] ∧
      ∃ s t a items, TokenStream.ofText "t" shadowing = .ok s ∧
        Tree.empty.parse s.tokens = (.ok .root, t) ∧ Analysis.ofTree t #[] = .ok a ∧
        items = (Program.ofTokens s.tokens).items ∧ m.vars = (Program.mentions items).map a.oilName ∧
        (∀ p ∈ Program.mentions items, ∃ d id, a.Means (Program.nameSteps items) p d id) ∧
        (∀ p ∈ Program.mentions items, ∀ q ∈ Program.mentions items,
          (a.oilName p).text = (a.oilName q).text ↔ (a.decoration p.2).symbol = (a.decoration q.2).symbol) ∧
        (∀ v ∈ m.vars, ∀ r : Register, v.text ≠ r.text) ∧
        ∀ d ∈ declared (Program.nameSteps items), d.isVariable = true →
          ∀ f ∈ m.routines, ∀ before i after, f.body = before ++ i :: after → d.oilName ∈ i.usedVars →
            d.oilName ∈ f.params.map (·.2) ∨ d.oilName ∈ newVarsIn before ∨ d.oilName ∈ m.globalVars := by
  exact exists_module_and (by decide +kernel) variables_denote

end OcCompiler
