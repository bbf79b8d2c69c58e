import OcCompiler.Proofs.ItemTyping
import OcCompiler.Proofs.Lowering

/-! What the analysis of a program puts into its queues: the functions in order, and structs and variables that the tree
    shows and that are settled. -/

namespace OcCompiler

open Analysis

/-! ### What leaves the queues alone -/

namespace Analysis

variable (a : Analysis) (n : NodeId)

@[simp] theorem queues_place (tag : Tag) : (a.place n tag).queues = a.queues := by
  unfold place
  dsimp only
  split <;> rfl

@[simp] theorem queues_refer (x : Lexeme) : (a.refer n x).queues = a.queues := by
  unfold refer
  split <;> rfl

@[simp] theorem queues_useStruct (tag : Lexeme) (mayLackFields : Bool) :
    (a.useStruct n tag mayLackFields).queues = a.queues := by
  unfold useStruct
  dsimp only
  split <;> rfl

@[simp] theorem queues_apply (v : Verdict) : (a.apply n v).queues = a.queues := by
  unfold apply
  dsimp only
  rw [foldl_report]
  split <;> rfl

@[simp] theorem queues_define (d : Declaration) (roles : Roles) : (a.define d roles).2.queues = a.queues := by
  have hbase : (a.useBase d roles.field).queues = a.queues := by
    unfold useBase
    split
    · exact queues_useStruct ..
    · rfl
  have hvoid (b : Analysis) : (b.refuseVoid d roles).queues = b.queues := by
    unfold refuseVoid
    split <;> rfl
  have hbind (b : Analysis) (id : SymbolId) : (b.bind d.name id roles).2.queues = b.queues := by
    unfold bind
    split
    · rfl
    · split <;> rfl
  unfold define
  dsimp only
  split
  · rw [hvoid]
    exact hbase
  · rw [hbind, hvoid]
    exact hbase

theorem queues_addField (struct field : SymbolId) (depth : Nat) : (a.addField struct depth field).queues = a.queues := by
  unfold addField
  dsimp only
  split <;> rfl

@[simp] theorem queues_defineFields (struct : SymbolId) (depth : Nat) (ds : List Declaration) :
    (defineFields struct depth ds a).queues = a.queues := by
  induction ds generalizing a with
  | nil => rfl
  | cons d ds ih => rw [defineFields, ih, queues_addField, queues_define]

@[simp] theorem queues_openStruct (tag : Lexeme) : (a.openStruct n tag).2.queues = a.queues := by
  unfold openStruct
  dsimp only
  split <;> rfl

theorem queues_defineParams (ds : List Declaration) : (defineParams ds a).2.queues = a.queues := by
  induction ds generalizing a with
  | nil => rfl
  | cons d ds ih => rw [defineParams, ih, queues_define]

@[simp] theorem queues_openFunction (d : Declaration) (params : List Declaration) (roles : Roles) :
    (a.openFunction d n params roles).queues = a.queues := by
  have hmatch (b : Analysis) (f g : SymbolId) (ids : List SymbolId) : (b.matchPrototype f g ids).queues = b.queues := by
    unfold matchPrototype
    dsimp only
    split <;> rfl
  have hparams (b : Analysis) (f : SymbolId) : (b.openParams f n params).2.queues = b.queues :=
    queues_defineParams _ params
  rw [openFunction_eq]
  dsimp only
  split
  · rw [hmatch, hparams, queues_define]
  · rw [hparams, queues_define]

end Analysis

@[simp] theorem Decl.queues_place (d : Decl) (k : Nat) (tag : Tag) (a : Analysis) : (d.place k tag a).queues = a.queues := by
  unfold Decl.place
  split <;> simp

@[simp] theorem Decl.queues_placeAll (ds : List Decl) (k : Nat) (tag : Tag) (a : Analysis) :
    (Decl.placeAll k tag ds a).queues = a.queues := by
  induction ds generalizing k a with
  | nil => rfl
  | cons d ds ih => rw [Decl.placeAll, ih, Decl.queues_place]

@[simp] theorem Item.queues_placeHead (k : Nat) (d : Decl) (params : List Decl) (a : Analysis) :
    (placeHead k d params a).queues = a.queues := by
  simp [placeHead]

theorem Item.queues_enterBody (k : Nat) (n : NodeId) (d : Decl) (params : List Decl) (body : List Stmt) (a : Analysis) :
    (enterBody k n d params body a).queues = { a.queues with functions := a.queues.functions.push n } := by
  unfold enterBody
  dsimp only
  show (placeHead k d params _).queues = _
  rw [queues_placeHead]
  split <;> rfl

theorem Analysis.queues_defineStructAs (a : Analysis) (n name : NodeId) (tag : Lexeme) (fields : List Declaration) :
    (a.defineStructAs n name tag fields).queues = a.queues ∨
      (a.defineStructAs n name tag fields).queues = { a.queues with structs := a.queues.structs.push n } := by
  have hopen := a.queues_openStruct name tag
  unfold defineStructAs
  split
  · rename_i b hb
    rw [hb] at hopen
    exact .inl hopen
  · rename_i id b hb
    rw [hb] at hopen
    dsimp only at hopen ⊢
    exact .inr (by rw [queues_defineFields, hopen])

/-! ### Expressions and statements -/

section Chains

variable {Q : Queues → Queues → Prop} (hrefl : ∀ q, Q q q) (htrans : ∀ {q q' q''}, Q q q' → Q q' q'' → Q q q'')
  (hstring : ∀ q n, Q q { q with strings := q.strings.push n })

include hrefl htrans hstring

theorem Analysis.queues_chainsExpr : ChainsExpr fun _ _ a b => Q a.queues b.queues where
  refl _ _ _ := hrefl _
  trans := htrans
  mono h _ _ := h
  place _ _ _ _ _ := by simpa using hrefl _
  refer _ _ _ _ _ := by simpa using hrefl _
  apply _ _ _ _ _ := by simpa using hrefl _
  setAttrs _ _ _ _ _ := hrefl _
  useStruct _ _ _ _ _ := by simpa using hrefl _
  queueString _ _ := hstring _ _

theorem Analysis.queues_chainsStmt (hglobal : ∀ q n, Q q { q with globals := q.globals.push n }) :
    ChainsStmt fun _ _ a b => Q a.queues b.queues where
  toChainsExpr := queues_chainsExpr hrefl htrans hstring
  setBlock _ _ _ _ _ := hrefl _
  enterBlock _ := hrefl _
  exitBlock _ := hrefl _
  define _ _ _ := by simpa using hrefl _
  queueGlobal a n := by
    unfold queueGlobal
    split
    · exact hglobal _ _
    · exact hrefl _

end Chains

theorem Stmt.queues_chains :
    ChainsStmt fun _ _ a b => ∃ strings globals, b.queues = { a.queues with strings, globals } := by
  refine queues_chainsStmt (Q := fun q q' => ∃ strings globals, q' = { q with strings, globals })
    (fun _ => ⟨_, _, rfl⟩) ?_ (fun _ _ => ⟨_, _, rfl⟩) fun _ _ => ⟨_, _, rfl⟩
  rintro q q' q'' ⟨_, _, rfl⟩ ⟨s, g, rfl⟩
  exact ⟨s, g, rfl⟩

theorem Stmt.queues_analyzeAll (ss : List Stmt) (k : Nat) (a : Analysis) :
    ∃ strings globals, (analyzeAll k ss a).queues = { a.queues with strings, globals } :=
  chainAll queues_chains ss k a

theorem Stmt.queues_analyze (s : Stmt) (k : Nat) (a : Analysis) :
    ∃ strings globals, (s.analyze k a).queues = { a.queues with strings, globals } :=
  s.chain queues_chains k a

section Globals

def HoldsOfDecls (t : Tree) (b : Analysis) (P : NodeId → Prop) : Prop :=
  ∀ (p : Option NodeId) (k : Nat) (d : Decl) (equals : Lexeme) (init : Expr),
    t.Shows p k (Stmt.varDecl d equals init).sapling → d.Settled b k → P ⟨k + d.size⟩

variable {t : Tree} {b : Analysis} {P : NodeId → Prop} {p : Option NodeId} {a : Analysis} {k : Nat}

theorem Expr.globals_analyze (e : Expr) (k : Nat) (a : Analysis) :
    (e.analyze k a).queues.globals = a.queues.globals :=
  e.chain (queues_chainsExpr (Q := fun q q' => q'.globals = q.globals) (fun _ => rfl) (fun h h' => h'.trans h)
    fun _ _ => rfl) k a

mutual

-- `b` is the analysis of the whole program, in which everything is settled; `a` is on the way there.
theorem Stmt.globals_analyze (hP : HoldsOfDecls t b P) (s : Stmt) {p : Option NodeId} {k : Nat} {a : Analysis}
    (h : t.Shows p k s.sapling) (hs : s.Settled b k) (ha : ∀ n ∈ a.queues.globals, P n) : ∀ n ∈ (s.analyze k a).queues.globals, P n := by
  cases s with
  | block brace body =>
    rw [Settled] at hs
    rw [analyze]
    exact Stmt.globals_analyzeAll hP body (Stmt.shows_block.mp h).2 hs ha
  | empty semicolon =>
    rw [analyze]
    simpa using ha
  | varDecl d equals init =>
    rw [Settled] at hs
    rw [analyze]
    simp only [queues_apply, queueGlobal]
    split
    · intro n hn
      rcases Array.mem_push.mp hn with hn | rfl
      · exact ha n (by simpa [Expr.globals_analyze] using hn)
      · exact hP _ _ _ _ _ h hs.1
    · simpa [Expr.globals_analyze] using ha
  | whileLoop mark cond body =>
    rw [Settled] at hs
    rw [analyze]
    simp only [queues_apply]
    exact Stmt.globals_analyze hP body (Stmt.shows_whileLoop.mp h).2.2 hs.2 (by simpa [Expr.globals_analyze] using ha)
  | ifThen mark cond yes =>
    rw [Settled] at hs
    rw [analyze]
    simp only [queues_apply]
    exact Stmt.globals_analyze hP yes (Stmt.shows_ifThen.mp h).2.2 hs.2 (by simpa [Expr.globals_analyze] using ha)
  | ifElse mark cond yes no =>
    obtain ⟨-, -, hyes, hno⟩ := Stmt.shows_ifElse.mp h
    rw [Settled] at hs
    rw [analyze]
    simp only [queues_apply]
    exact Stmt.globals_analyze hP no hno hs.2.2
      (Stmt.globals_analyze hP yes hyes hs.2.1 (by simpa [Expr.globals_analyze] using ha))
  | returnValue mark value =>
    rw [analyze]
    simpa [Expr.globals_analyze] using ha
  | returnVoid mark =>
    rw [analyze]
    simpa using ha
  | expr e =>
    rw [analyze, Expr.globals_analyze]
    exact ha

theorem Stmt.globals_analyzeAll (hP : HoldsOfDecls t b P) (ss : List Stmt) {p : Option NodeId} {k : Nat} {a : Analysis}
    (h : t.ShowsAll p k (Stmt.saplings ss)) (hs : SettledAll b k ss) (ha : ∀ n ∈ a.queues.globals, P n) :
    ∀ n ∈ (analyzeAll k ss a).queues.globals, P n := by
  match ss, h with
  | [], _ => exact ha
  | s :: ss, ⟨h, hrest⟩ =>
    rw [SettledAll] at hs
    rw [analyzeAll]
    exact Stmt.globals_analyzeAll hP ss hrest hs.2 (Stmt.globals_analyze hP s h hs.1 ha)

end

theorem Item.globals_analyze (hP : HoldsOfDecls t b P) (i : Item)
    (h : t.Shows p k i.sapling) (hi : i.Settled b k) (ha : ∀ n ∈ a.queues.globals, P n) :
    ∀ n ∈ (i.analyze k a).queues.globals, P n := by
  cases i with
  | struct mark tag fields =>
    rw [analyze, Decl.queues_placeAll, queues_place]
    rcases (a.place ⟨k⟩ .struct).queues_defineStructAs ⟨k⟩ ⟨k + 1⟩ tag (Decl.declarations (k + 2) fields) with hq | hq <;>
      · rw [hq]
        simpa using ha
  | function d paren params brace body =>
    obtain ⟨-, -, -, hbody⟩ := (shows_function rfl rfl rfl).mp h
    rw [Settled] at hi
    rw [analyze_function]
    simp only [leaveBody, queues_apply]
    refine Stmt.globals_analyzeAll hP body (Stmt.shows_block.mp hbody).2 hi.2.2 ?_
    rw [queues_enterBody]
    simpa using ha
  | prototype d paren params semicolon =>
    rw [analyze]
    simpa [exitBlock, setSymbols] using ha
  | stmt s =>
    rw [Settled] at hi
    rw [analyze]
    exact Stmt.globals_analyze hP s h hi ha

theorem Item.globals_analyzeAll (hP : HoldsOfDecls t b P) (is : List Item)
    (h : t.ShowsAll p k (is.map sapling)) (his : SettledAll b k is) (ha : ∀ n ∈ a.queues.globals, P n) :
    ∀ n ∈ (analyzeAll k is a).queues.globals, P n := by
  induction is generalizing k a with
  | nil => exact ha
  | cons i is ih =>
    obtain ⟨h, hrest⟩ := h
    exact ih hrest his.2 (Item.globals_analyze hP i h his.1 ha)

end Globals

namespace Item

theorem queues_function (d : Decl) (paren brace : Lexeme) (params : List Decl) (body : List Stmt) (k : Nat)
    (a : Analysis) : ∃ strings globals, ((Item.function d paren params brace body).analyze k a).queues =
      { a.queues with
        strings, globals
        functions := a.queues.functions.push ((Item.function d paren params brace body).topNode k) } := by
  rw [analyze_function, topNode_function]
  simp only [leaveBody, queues_apply, exitBlock, setSymbols]
  generalize (⟨k + d.size + 1 + Decl.sizes params + 1 + Stmt.sizes body⟩ : NodeId) = n
  obtain ⟨q, g, hbody⟩ := Stmt.queues_analyzeAll body (k + d.size + 1 + Decl.sizes params + 1)
    (enterBody k n d params body ((a.place n .function).openHead k d params false))
  exact ⟨q, g, by rw [hbody, queues_enterBody]; simp⟩

section Structs

variable {t : Tree} {b : Analysis} {P : NodeId → Prop} {p : Option NodeId} {a : Analysis} {k : Nat}

def HoldsOfStructs (t : Tree) (b : Analysis) (P : NodeId → Prop) : Prop :=
  ∀ (p : Option NodeId) (k : Nat) (mark tag : Lexeme) (fields : List Decl),
    t.Shows p k (Item.struct mark tag fields).sapling → Decl.FieldsSettled b (k + 2) fields → P ⟨k⟩

theorem structs_analyze (hP : HoldsOfStructs t b P) (i : Item)
    (h : t.Shows p k i.sapling) (hi : i.Settled b k) (ha : ∀ n ∈ a.queues.structs, P n) :
    ∀ n ∈ (i.analyze k a).queues.structs, P n := by
  cases i with
  | struct mark tag fields =>
    rw [Settled] at hi
    rw [analyze, Decl.queues_placeAll, queues_place]
    rcases (a.place ⟨k⟩ .struct).queues_defineStructAs ⟨k⟩ ⟨k + 1⟩ tag (Decl.declarations (k + 2) fields) with hq | hq
    · rw [hq, queues_place]
      exact ha
    · rw [hq, queues_place]
      intro n hn
      rcases Array.mem_push.mp hn with hn | rfl
      · exact ha n hn
      · exact hP _ _ _ _ _ h hi
  | function d paren params brace body =>
    obtain ⟨q, g, hq⟩ := queues_function d paren brace params body k a
    rw [hq]
    exact ha
  | prototype d paren params semicolon =>
    rw [analyze]
    simpa [exitBlock, setSymbols] using ha
  | stmt s =>
    obtain ⟨q, g, hq⟩ := s.queues_analyze k a
    rw [analyze, hq]
    exact ha

theorem structs_analyzeAll (hP : HoldsOfStructs t b P) (is : List Item)
    (h : t.ShowsAll p k (is.map sapling)) (his : SettledAll b k is) (ha : ∀ n ∈ a.queues.structs, P n) :
    ∀ n ∈ (analyzeAll k is a).queues.structs, P n := by
  induction is generalizing k a with
  | nil => exact ha
  | cons i is ih =>
    obtain ⟨h, hrest⟩ := h
    exact ih hrest his.2 (structs_analyze hP i h his.1 ha)

end Structs

theorem functions_analyzeAll (is : List Item) (k : Nat) (a : Analysis) :
    (analyzeAll k is a).queues.functions.toList =
      a.queues.functions.toList ++ ((placed k is).filter (·.2.isFunction)).map fun p => p.2.topNode p.1 := by
  induction is generalizing k a with
  | nil => simp [analyzeAll, placed]
  | cons i is ih =>
    rw [analyzeAll, ih]
    cases i with
    | struct mark tag fields =>
      rw [analyze, Decl.queues_placeAll, queues_place]
      rcases (a.place ⟨k⟩ .struct).queues_defineStructAs ⟨k⟩ ⟨k + 1⟩ tag (Decl.declarations (k + 2) fields) with hq | hq <;>
        simp [hq, placed, isFunction]
    | function d paren params brace body =>
      obtain ⟨q, g, hq⟩ := queues_function d paren brace params body k a
      simp [hq, placed, isFunction]
    | prototype d paren params semicolon =>
      rw [analyze]
      simp [exitBlock, setSymbols, placed, isFunction]
    | stmt s =>
      obtain ⟨q, g, hq⟩ := s.queues_analyze k a
      rw [analyze, hq]
      simp [placed, isFunction]

theorem mem_of_mem_placed {is : List Item} {k : Nat} {p : Nat × Item} (h : p ∈ placed k is) : p.2 ∈ is := by
  induction is generalizing k with
  | nil => cases h
  | cons i is ih =>
    rcases List.mem_cons.mp h with rfl | h
    · exact List.mem_cons_self
    · exact List.mem_cons_of_mem _ (ih h)

theorem settled_of_mem_placed {b : Analysis} {is : List Item} {k j : Nat} {i : Item} (h : SettledAll b k is)
    (hi : (j, i) ∈ placed k is) : i.Settled b j := by
  induction is generalizing k with
  | nil => cases hi
  | cons x is ih =>
    rcases List.mem_cons.mp hi with heq | hi
    · cases heq
      exact h.1
    · exact ih h.2 hi

end Item

end OcCompiler
