import OcCompiler.Proofs.Faultless

/-! What oil is made of. Where a text was compiled to a module, the functions of the module are those of the program, in
    order, and its entry holds the statements outside all functions, in order. Each is what `lower` emits. -/

namespace OcCompiler

open Oil

variable {m : Module} {c : Compilation} {f : Function} {name text : String}

/-! ### Where a module comes from -/

def Compilation.module? (name text : String) : Option Module := (ofText name text .emit).toOption.bind oil

theorem Compilation.module?_eq_some_iff :
    module? name text = some m ↔ ∃ c, ofText name text .emit = .ok c ∧ c.oil = some m := by
  unfold module?
  cases ofText name text .emit with
  | error f => simp [Except.toOption]
  | ok c => simp [Except.toOption]

/-- What is decided of the module of a text. -/
theorem Compilation.exists_module {P : Module → Prop} [DecidablePred P] (h : (module? "t" text).any (fun m => P m) = true) :
    ∃ c m, ofText "t" text .emit = .ok c ∧ c.oil = some m ∧ P m := by
  obtain ⟨m, hm, hcheck⟩ := (Option.any_eq_true _ _).mp h
  obtain ⟨c, hc, hoil⟩ := module?_eq_some_iff.mp hm
  exact ⟨c, m, hc, hoil, of_decide_eq_true hcheck⟩

theorem Compilation.exists_module_and {P : Module → Prop} [DecidablePred P] {Q : Compilation → Module → Prop}
    (hP : (module? "t" text).any (fun m => P m) = true)
    (hQ : ∀ {c m}, ofText "t" text .emit = .ok c → c.oil = some m → Q c m) :
    ∃ c m, ofText "t" text .emit = .ok c ∧ c.oil = some m ∧ P m ∧ Q c m := by
  obtain ⟨c, m, hc, hoil, h⟩ := exists_module hP
  exact ⟨c, m, hc, hoil, h, hQ hc hoil⟩

theorem Compilation.exists_module_and_and {P P' : Module → Prop} [DecidablePred P] [DecidablePred P']
    {Q : Compilation → Module → Prop} (hP : (module? "t" text).any (fun m => P m ∧ P' m) = true)
    (hQ : ∀ {c m}, ofText "t" text .emit = .ok c → c.oil = some m → Q c m) :
    ∃ c m, ofText "t" text .emit = .ok c ∧ c.oil = some m ∧ P m ∧ P' m ∧ Q c m := by
  simpa only [and_assoc] using exists_module_and hP hQ

/-- How a text became a module: it was read, there was nothing to complain about, and the program was emitted. -/
structure Emission (name text : String) (m : Module) where
  stream : TokenStream
  tree : Tree
  next : Nat
  lexed : TokenStream.ofText name text = .ok stream
  parsed : Tree.empty.parse stream.tokens = (.ok .root, tree)
  quiet : (Program.analyze (Program.ofTokens stream.tokens).items #[]).log = #[]
  emitted : Module.ofAnalysis tree (Program.analyze (Program.ofTokens stream.tokens).items #[]) 1 = .ok (m, next)

theorem Compilation.emission_of_oil {last : Phase}
    (h : ofText name text last = .ok c) (hm : c.oil = some m) : Nonempty (Emission name text m) := by
  obtain ⟨stream, hlexed, h⟩ := bind_eq_ok_iff.mp h
  split at h
  · cases h
    cases hm
  split at h
  · cases h
    cases hm
  rename_i tree hparse
  split at h
  · cases h
    cases hm
  obtain ⟨n, hparsed⟩ := parse_eq_ok hparse
  obtain ⟨rfl, -⟩ := Tree.parse_shows hparsed
  rw [Analysis.ofTree_parse hparsed, ok_bind] at h
  dsimp only at h
  split at h
  · cases h
    cases hm
  obtain ⟨oil, hoil, h⟩ := bind_eq_ok_iff.mp h
  cases h
  dsimp only at hm
  subst hm
  unfold oilOf at hoil
  split at hoil
  · rename_i hempty
    obtain ⟨⟨m', next⟩, hemitted, hoil⟩ := bind_eq_ok_iff.mp hoil
    cases hoil
    have hquiet := Array.isEmpty_iff.mp hempty
    have hlog := Program.eq_empty_of_log_analyze hquiet
    rw [hlog] at hquiet hemitted
    exact ⟨⟨stream, tree, next, hlexed, hparsed, hquiet, hemitted⟩⟩
  · cases hoil

theorem Compilation.exists_oil (h : ofText name text .emit = .ok c)
    (hread : c.syntaxError? = none) (hlog : c.log = #[]) : ∃ m, c.oil = some m := by
  obtain ⟨stream, -, h⟩ := bind_eq_ok_iff.mp h
  rw [if_neg (by decide)] at h
  split at h
  · cases h
    cases hread
  rw [if_neg (by decide)] at h
  obtain ⟨a, -, h⟩ := bind_eq_ok_iff.mp h
  rw [if_neg (by decide)] at h
  obtain ⟨oil, hoil, h⟩ := bind_eq_ok_iff.mp h
  cases h
  have hempty : a.log.isEmpty = true := Array.isEmpty_iff.mpr hlog
  rw [oilOf, if_pos hempty] at hoil
  obtain ⟨⟨m, next⟩, -, hoil⟩ := bind_eq_ok_iff.mp hoil
  cases hoil
  exact ⟨m, rfl⟩

/-- What the functions and the entry of a module are emitted from. -/
def Oil.Context.of (t : Tree) (a : Analysis) (m : Module) : Context :=
  { tree := t, analysis := a, slots := m.strings.map fun s => (s.spelling, s.register) }

/-- The parts of a module come from the queues of the analysis, apart from the entry. -/
structure Oil.Module.Parts (t : Tree) (a : Analysis) (start : Nat) (m : Module) : Prop where
  structs : a.queues.structs.toList.mapM (Context.structRecord { tree := t, analysis := a }) = .ok m.structs
  strings : ∃ next, stringSlots [] (a.queues.strings.toList.map t.text) start = .ok (m.strings, next)
  globals : a.queues.globals.toList.mapM (Context.globalVariable { tree := t, analysis := a }) = .ok m.globals
  functions : ∃ next next', (Context.of t a m).functions a.queues.functions.toList next = .ok (m.functions, next')
  entry : ∃ next r, (Context.of t a m).stmts (Context.of t a m).entryStmts next = .ok r ∧ r.code = m.entry

theorem Oil.Module.parts_of_ofAnalysis {t : Tree} {a : Analysis} {start next : Nat}
    (h : Module.ofAnalysis t a start = .ok (m, next)) : Parts t a start m := by
  obtain ⟨structs, hstructs, h⟩ := bind_eq_ok_iff.mp h
  obtain ⟨⟨strings, k⟩, hstrings, h⟩ := bind_eq_ok_iff.mp h
  obtain ⟨globals, hglobals, h⟩ := bind_eq_ok_iff.mp h
  obtain ⟨⟨functions, k'⟩, hfunctions, h⟩ := bind_eq_ok_iff.mp h
  obtain ⟨entry, hentry, h⟩ := bind_eq_ok_iff.mp h
  cases h
  exact ⟨hstructs, ⟨_, hstrings⟩, hglobals, ⟨_, _, hfunctions⟩, ⟨_, _, hentry, rfl⟩⟩

def Item.EmittedAs (c : Context) (p : Nat × Item) (f : Function) : Prop :=
  p.2.Settled c.analysis p.1 ∧ ∃ d paren params brace body next next', p.2 = .function d paren params brace body ∧
    Item.lowerFunction c p.1 d params body next = .ok (f, next')

theorem Item.EmittedAs.body_emitted {c : Context} {p : Nat × Item} (h : EmittedAs c p f) :
    ∃ d paren params brace body next, p.2 = .function d paren params brace body ∧
      f.body = (Stmt.emittedAll c (p.1 + d.size + 1 + Decl.sizes params + 1) next body).code ∧ Counted f.body := by
  obtain ⟨hsettled, d, paren, params, brace, body, next, next', hp, h⟩ := h
  rw [hp] at hsettled
  obtain ⟨type, -, h⟩ := bind_eq_ok_iff.mp h
  obtain ⟨lowered, -, h⟩ := bind_eq_ok_iff.mp h
  obtain ⟨emitted, hbody, h⟩ := bind_eq_ok_iff.mp h
  obtain ⟨rfl, hcounted⟩ := (Stmt.lowerAll_yields body hsettled.2.2).eq_of_ok hbody
  cases h
  exact ⟨d, paren, params, brace, body, next, hp, rfl, hcounted⟩

namespace Emission

variable {name text : String} {m : Module} (e : Emission name text m)

def items : List Item := (Program.ofTokens e.stream.tokens).items

def analysis : Analysis := Program.analyze e.items #[]

def context : Context := .of e.tree e.analysis m

def functionItems : List (Nat × Item) := (Item.placed 1 e.items).filter (·.2.isFunction)

theorem shows_items : e.tree.ShowsAll (some .root) 1 (e.items.map Item.sapling) :=
  (Tree.shows_root.mp (Tree.parse_shows e.parsed).2.1).2

theorem depths_le : Sapling.depths (e.items.map Item.sapling) ≤ e.tree.size := by
  obtain ⟨-, -, hsize⟩ := Tree.parse_shows e.parsed
  have hdepth := (Program.sapling e.items).depth_le_size
  rw [items, ← hsize, Program.sapling, Sapling.depth, Sapling.depths] at hdepth
  rw [items]
  omega

theorem wellFormed : WellFormed e.items := (Program.log_analyze_eq_iff e.items #[]).mp e.quiet

theorem settled : Item.SettledAll e.analysis 1 e.items := (Program.settled_of_quiet e.quiet).1

theorem settled_entry : ∀ p ∈ Item.entry 1 e.items, p.2.Settled e.context.analysis p.1 := by
  intro p hp
  obtain ⟨j, i, hi, s, rfl, rfl⟩ := Item.mem_entry_iff.mp hp
  exact Item.settled_of_mem_placed e.settled hi

theorem functions_queued :
    e.analysis.queues.functions.toList = e.functionItems.map fun p => p.2.topNode p.1 := by
  rw [analysis, Program.analyze, Item.functions_analyzeAll, Analysis.queues_place]
  rfl

theorem parts : Module.Parts e.tree e.analysis 1 m := Module.parts_of_ofAnalysis e.emitted

end Emission

theorem forall₂_of_functions {c : Context} {ns : List NodeId} {next next' : Nat} {fs : List Function}
    (h : c.functions ns next = .ok (fs, next')) :
    List.Forall₂ (fun n f => ∃ k k', c.function n k = .ok (f, k')) ns fs := by
  induction ns generalizing next fs with
  | nil =>
    cases h
    exact .nil
  | cons n ns ih =>
    obtain ⟨⟨f, k⟩, hf, h⟩ := bind_eq_ok_iff.mp h
    obtain ⟨⟨rest, k'⟩, hrest, h⟩ := bind_eq_ok_iff.mp h
    cases h
    exact .cons ⟨_, _, hf⟩ (ih hrest)

theorem Emission.functions_emitted (e : Emission name text m) :
    List.Forall₂ (Item.EmittedAs e.context) e.functionItems m.functions := by
  obtain ⟨next, next', h⟩ := e.parts.functions
  have hall := forall₂_of_functions h
  rw [e.functions_queued, List.forall₂_map_left_iff] at hall
  have hmem := (List.forall₂_and_left _ _).mpr ⟨fun p hp => hp, hall⟩
  refine hmem.imp ?_
  rintro ⟨j, i⟩ f ⟨hp, k, k', hf⟩
  obtain ⟨hi, hfunction⟩ := List.mem_filter.mp hp
  have hbelow := Nat.le_trans (Item.depth_le_of_mem_placed hi) e.depths_le
  have hshown := Item.shows_of_mem_placed e.shows_items hi
  cases i with
  | function d paren params brace body =>
    have hdepth : Sapling.depths (Stmt.saplings body) ≤ e.context.tree.size := by
      simp only [Item.sapling, Stmt.sapling, Sapling.depth, Sapling.depths] at hbelow
      show _ ≤ e.tree.size
      omega
    have hlower := function_eq_lower (c := e.context) hshown hdepth k
    exact ⟨Item.settled_of_mem_placed e.settled hi, d, paren, params, brace, body, k, k', rfl, hlower ▸ hf⟩
  | struct | prototype | stmt => cases hfunction

theorem Emission.exists_of_mem_functions (e : Emission name text m)
    (hf : f ∈ m.functions) : ∃ p ∈ e.functionItems, Item.EmittedAs e.context p f := by
  obtain ⟨i, hi, rfl⟩ := List.mem_iff_getElem.mp hf
  have hi' : i < e.functionItems.length := e.functions_emitted.length_eq ▸ hi
  exact ⟨_, List.getElem_mem hi', e.functions_emitted.get hi' hi⟩

theorem Emission.entry_emitted (e : Emission name text m) :
    ∃ next, m.entry = (Stmt.emittedEach e.context next (Item.entry 1 e.items)).code ∧ Counted m.entry := by
  obtain ⟨next, r, h, hcode⟩ := e.parts.entry
  obtain ⟨hnode, -⟩ := Tree.shows_root.mp (Tree.parse_shows e.parsed).2.1
  rw [Item.tops_saplings] at hnode
  have hstmts : e.context.entryStmts = (Item.topNodes 1 e.items).filter fun n =>
      e.context.tree.tag n ≠ .struct ∧ e.context.tree.tag n ≠ .function ∧ e.context.tree.tag n ≠ .prototype := by
    rw [Context.entryStmts, Tree.children]
    exact congrArg (List.filter _) (congrArg Node.children hnode)
  have hlower := entryStmts_eq_lower (c := e.context) e.items e.shows_items e.depths_le
  rw [← hstmts] at hlower
  obtain ⟨rfl, hcounted⟩ := (Stmt.forM_yields e.settled_entry).eq_of_ok (hlower ▸ h)
  exact ⟨next, hcode.symm, hcode ▸ hcounted⟩

end OcCompiler
