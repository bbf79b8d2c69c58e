import OcCompiler.Proofs.Chains

/-! What the analysis of a construct may change: the decorations of the construct's own nodes. Complaints are only ever
    added, and the symbol table goes from sound to sound. -/

namespace OcCompiler

namespace Analysis

/-- What work on the nodes from `k` up to `m` may do. -/
structure Effect (k m : Nat) (a b : Analysis) : Prop where
  decor : ∀ n : NodeId, n.index < k ∨ m ≤ n.index → b.decoration n = a.decoration n
  log : a.log.toList <+: b.log.toList
  symbols : a.symbols.Sound → a.symbols.Evolves b.symbols

section Effect

variable {k m : Nat} {a b c : Analysis}

theorem Effect.refl (k m : Nat) (a : Analysis) : Effect k m a a := ⟨fun _ _ => rfl, List.prefix_refl _, fun h => h.refl⟩

theorem Effect.trans (h : Effect k m a b) (h' : Effect k m b c) : Effect k m a c where
  decor n hn := (h'.decor n hn).trans (h.decor n hn)
  log := h.log.trans h'.log
  symbols hs := (h.symbols hs).trans (h'.symbols (h.symbols hs).sound)

theorem Effect.mono {k' m' : Nat} (h : Effect k m a b) (hk : k' ≤ k := by omega) (hm : m ≤ m' := by omega) : Effect k' m' a b where
  decor n hn := h.decor n (hn.imp (Nat.lt_of_lt_of_le · hk) (Nat.le_trans hm))
  log := h.log
  symbols := h.symbols

theorem Effect.quiet (h : Effect k m a b) {k' m' : Nat} (h' : Effect k' m' b c) (hlog : c.log = a.log) :
    b.log = a.log ∧ c.log = b.log := by
  have hab : a.log.toList = b.log.toList :=
    h.log.eq_of_length (Nat.le_antisymm h.log.length_le (hlog ▸ h'.log.length_le))
  have hba : b.log = a.log := Array.toList_inj.mp hab.symm
  exact ⟨hba, hlog.trans hba.symm⟩

@[simp] theorem decoration_decorate (a : Analysis) (n x : NodeId) (d : Decoration) :
    (a.decorate n d).decoration x = if x = n then d else a.decoration x := a.decor.get_set n x d

variable (a) {n : NodeId}

theorem effect_decorate (d : Decoration) (hk : k ≤ n.index) (hm : n.index < m) : Effect k m a (a.decorate n d) where
  decor x hx := by
    rw [decoration_decorate, if_neg]
    rintro rfl
    omega
  log := List.prefix_refl _
  symbols h := h.refl

theorem effect_report (d : Diagnostic) : Effect k m a (a.report d) where
  decor _ _ := rfl
  log := by simp [report]
  symbols h := h.refl

theorem effect_setSymbols {s : SymbolTable} (hs : a.symbols.Sound → a.symbols.Evolves s) : Effect k m a (a.setSymbols s) where
  decor _ _ := rfl
  log := List.prefix_refl _
  symbols := hs

theorem effect_queue (q : Queues) : Effect k m a { a with queues := q } where
  decor _ _ := rfl
  log := List.prefix_refl _
  symbols h := h.refl

theorem effect_reports (ds : List Diagnostic) : Effect k m a (ds.foldl report a) := by
  induction ds generalizing a with
  | nil => exact .refl _ _ _
  | cons d ds ih => exact (effect_report a d).trans (ih _)

theorem effect_place (tag : Tag) (hk : k ≤ n.index := by dsimp only; omega)
    (hm : n.index < m := by dsimp only; omega) : Effect k m a (a.place n tag) := by
  unfold place
  dsimp only
  split
  · exact .refl _ _ _
  · exact effect_decorate a _ hk hm

theorem effect_refer (x : Lexeme) (hk : k ≤ n.index := by dsimp only; omega)
    (hm : n.index < m := by dsimp only; omega) : Effect k m a (a.refer n x) := by
  unfold refer
  split
  · exact effect_decorate a _ hk hm
  · exact (effect_decorate a _ hk hm).trans (effect_report _ _)

theorem effect_apply (v : Verdict) (hk : k ≤ n.index := by dsimp only; omega)
    (hm : n.index < m := by dsimp only; omega) : Effect k m a (a.apply n v) := by
  unfold apply
  dsimp only
  split
  · exact (effect_reports a _).trans (effect_decorate _ _ hk hm)
  · exact effect_reports a _

theorem effect_useStruct (tag : Lexeme) (mayLackFields : Bool) (hk : k ≤ n.index) (hm : n.index < m) :
    Effect k m a (a.useStruct n tag mayLackFields) := by
  have hsymbols : Effect k m a (a.setSymbols (a.symbols.structOrPlaceholder tag).2) :=
    effect_setSymbols a fun h => (h.structOrPlaceholder tag).1
  unfold useStruct
  dsimp only
  refine .trans ?_ (effect_decorate _ _ hk hm)
  split
  · exact hsymbols
  · exact hsymbols.trans (effect_report _ _)

end Effect

section Definitions

variable {k m : Nat} (a : Analysis)

theorem effect_declare {n : NodeId} (x : Lexeme) (attrs : Attributes) (hk : k ≤ n.index) (hm : n.index < m) :
    Effect k m a (a.declare n x attrs).2 :=
  (effect_setSymbols a fun h => h.push _).trans (effect_decorate _ _ hk hm)

def Declares (a : Analysis) (x : Lexeme) (id : SymbolId) : Prop :=
  id.index < a.symbols.size ∧ (a.symbols.get id).name = x.text ∧ (a.symbols.get id).block = a.symbols.currentBlock ∧
    (a.symbols.get id).attrs.roles.isBindable = true

theorem effect_bind {x : Lexeme} {id : SymbolId} (roles : Roles) (hid : a.Declares x id) :
    Effect k m a (a.bind x id roles).2 := by
  obtain ⟨hin, hname, hblock, hrole⟩ := hid
  unfold bind
  split
  · rename_i s hs
    refine effect_setSymbols a fun h => ?_
    have hinsert := h.insert hs hin hname hblock hrole
    exact hinsert.trans (hinsert.sound.record _ _)
  · split
    · exact effect_setSymbols a fun h => h.record _ _
    · exact effect_report a _

theorem declares_declare (n : NodeId) (x : Lexeme) {attrs : Attributes} (hrole : attrs.roles.isBindable = true) :
    (a.declare n x attrs).2.Declares x (a.declare n x attrs).1 := by
  have hget : (a.declare n x attrs).2.symbols.get (a.declare n x attrs).1 =
      { name := x.text, loc := x.loc, block := a.symbols.currentBlock, attrs } := SymbolTable.get_push_new _
  refine ⟨?_, by rw [hget], by rw [hget]; rfl, by rw [hget]; exact hrole⟩
  show a.symbols.size < (a.symbols.push _).2.size
  rw [SymbolTable.size_push]
  exact Nat.lt_succ_self _

theorem effect_useBase {d : Declaration} (mayLackFields : Bool) (hd : d.Within k m) :
    Effect k m a (a.useBase d mayLackFields) := by
  unfold useBase
  split
  · exact effect_useStruct a _ _ hd.1.1 hd.1.2
  · exact .refl _ _ _

theorem effect_refuseVoid (d : Declaration) (roles : Roles) : Effect k m a (a.refuseVoid d roles) := by
  unfold refuseVoid
  split
  · exact effect_report a _
  · exact .refl _ _ _

@[simp] theorem symbols_refuseVoid (d : Declaration) (roles : Roles) : (a.refuseVoid d roles).symbols = a.symbols := by
  unfold refuseVoid
  split <;> rfl

theorem effect_define {d : Declaration} {roles : Roles} (hrole : roles.field = true ∨ roles.isBindable = true)
    (hd : d.Within k m) : Effect k m a (a.define d roles).2 := by
  have hdeclare : Effect k m a ((a.useBase d roles.field).declare d.nameNode d.name (.typed d.type roles)).2 :=
    (effect_useBase a roles.field hd).trans (effect_declare _ _ _ hd.2.1 hd.2.2)
  have hvoid := hdeclare.trans (effect_refuseVoid _ d roles)
  unfold define
  dsimp only
  split
  · exact hvoid
  · rename_i hfield
    refine hvoid.trans (effect_bind _ roles ?_)
    rw [Declares, symbols_refuseVoid]
    exact declares_declare _ d.nameNode d.name (hrole.resolve_left hfield)

theorem useBase_extends (d : Declaration) (mayLackFields : Bool) :
    a.symbols.Extends (a.useBase d mayLackFields).symbols := by
  unfold useBase useStruct
  split
  · have h := a.symbols.structOrPlaceholder_extends d.typeLexeme
    dsimp only
    split <;> exact h
  · exact .refl _

theorem bind_extends (x : Lexeme) (id : SymbolId) (roles : Roles) : a.symbols.Extends (a.bind x id roles).2.symbols := by
  unfold bind
  split
  · rename_i s hs
    exact .trans (.of_insert hs) ⟨Nat.le_refl _, fun _ _ => rfl⟩
  · split <;> exact ⟨Nat.le_refl _, fun _ _ => rfl⟩

theorem define_extends (d : Declaration) (roles : Roles) : a.symbols.Extends (a.define d roles).2.symbols := by
  have hdeclare := (a.useBase_extends d roles.field).trans
    ((a.useBase d roles.field).symbols.push_extends
      ⟨d.name.text, d.name.loc, (a.useBase d roles.field).symbols.currentBlock, .typed d.type roles, none, none⟩)
  have hvoid := symbols_refuseVoid ((a.useBase d roles.field).declare d.nameNode d.name (.typed d.type roles)).2 d roles
  unfold define
  dsimp only
  split
  · rw [hvoid]
    exact hdeclare
  · refine .trans ?_ (bind_extends _ _ _ _)
    rw [hvoid]
    exact hdeclare

end Definitions

section Items

variable {k m : Nat} (a : Analysis) {ds : List Declaration} {n : NodeId}

theorem effect_addField (struct field : SymbolId) (depth : Nat) : Effect k m a (a.addField struct depth field) := by
  unfold addField
  dsimp only
  split
  · exact effect_report a _
  · refine effect_setSymbols a fun h => ?_
    have hmodify := h.modify struct (·.setField (a.symbols.get field).name field) ⟨rfl, .inl rfl, fun _ => rfl, fun _ => rfl⟩
    exact hmodify.trans (hmodify.sound.record _ _)

theorem effect_openStruct (tag : Lexeme) (hk : k ≤ n.index) (hm : n.index < m) :
    Effect k m a (a.openStruct n tag).2 := by
  unfold openStruct
  dsimp only
  split
  · exact (effect_setSymbols a fun h => (h.structOrPlaceholder tag).1).trans (effect_report _ _)
  · refine .trans (effect_setSymbols a fun h => ?_) (effect_decorate _ _ hk hm)
    obtain ⟨hevolves, -, hattrs⟩ := h.structOrPlaceholder tag
    have hfree : ((a.symbols.structOrPlaceholder tag).2.get (a.symbols.structOrPlaceholder tag).1).attrs.roles.isBindable =
        false := by rw [hattrs]; rfl
    have hmodify := hevolves.sound.modify (a.symbols.structOrPlaceholder tag).1
      (fun s => { s with
        loc := tag.loc, block := (a.symbols.structOrPlaceholder tag).2.currentBlock, fields := some [] })
      ⟨rfl, .inl rfl, fun hrole => by simp [hfree] at hrole, fun hrole => by simp [hfree] at hrole⟩
    exact hevolves.trans (hmodify.trans (hmodify.sound.record _ _))

theorem effect_enterBlock : Effect k m a a.enterBlock.2 := effect_setSymbols a fun h => h.enterBlock

theorem effect_exitBlock : Effect k m a a.exitBlock := effect_setSymbols a fun h => h.exitBlock

theorem effect_setBlock (block : Nat) (hk : k ≤ n.index) (hm : n.index < m) :
    Effect k m a (a.setBlock n block) := effect_decorate a _ hk hm

theorem effect_matchPrototype (definition prototype : SymbolId) (params : List SymbolId) :
    Effect k m a (a.matchPrototype definition prototype params) := by
  have hmodify : Effect k m a (a.setSymbols (a.symbols.modify prototype fun s =>
      { s with attrs := { s.attrs with roles := { s.attrs.roles with prototype := false } } })) :=
    effect_setSymbols a fun h => h.modify prototype _ (.settle _)
  unfold matchPrototype
  dsimp only
  split
  · exact hmodify.trans (effect_report _ _)
  · exact hmodify

theorem effect_defineFields (struct : SymbolId) (depth : Nat)
    (hds : ∀ d ∈ ds, Declaration.Within k m d) : Effect k m a (defineFields struct depth ds a) := by
  induction ds generalizing a with
  | nil => exact .refl _ _ _
  | cons d ds ih =>
    obtain ⟨hd, hds⟩ := List.forall_mem_cons.mp hds
    have hdefine : Effect k m a (a.define d { field := true }).2 := effect_define a (.inl rfl) hd
    exact (hdefine.trans (effect_addField _ _ _ _)).trans (ih _ hds)

theorem effect_defineParams (hds : ∀ d ∈ ds, Declaration.Within k m d) :
    Effect k m a (defineParams ds a).2 := by
  induction ds generalizing a with
  | nil => exact .refl _ _ _
  | cons d ds ih =>
    obtain ⟨hd, hds⟩ := List.forall_mem_cons.mp hds
    have hdefine : Effect k m a (a.define d { var := true, param := true, lvalue := true }).2 :=
      effect_define a (.inr rfl) hd
    exact hdefine.trans (ih _ hds)

theorem effect_defineStructAs {name : NodeId} (tag : Lexeme) {fields : List Declaration}
    (hk : k ≤ name.index) (hm : name.index < m) (hfields : ∀ d ∈ fields, Declaration.Within k m d) :
    Effect k m a (a.defineStructAs n name tag fields) := by
  have hopen : Effect k m a (a.openStruct name tag).2 := effect_openStruct a tag hk hm
  unfold defineStructAs
  split
  · rename_i b hb
    rwa [hb] at hopen
  · rename_i id b hb
    rw [hb] at hopen
    exact (hopen.trans (effect_defineFields b _ _ hfields)).trans (effect_queue _ _)

theorem effect_openFunction {d : Declaration} {paramList : NodeId} {params : List Declaration} {roles : Roles}
    (hrole : roles.isBindable = true) (hd : d.Within k m) (hk : k ≤ paramList.index) (hm : paramList.index < m)
    (hparams : ∀ d ∈ params, Declaration.Within k m d) :
    Effect k m a (a.openFunction d paramList params roles) := by
  let a₁ : Analysis := (a.define d roles).2
  have h₁ : Effect k m a a₁ := effect_define a (.inr hrole) hd
  let a₂ : Analysis := a₁.enterBlock.2.setBlock paramList a₁.enterBlock.1
  have h₂ : Effect k m a₁ a₂ := (effect_enterBlock a₁).trans (effect_setBlock _ _ hk hm)
  let a₃ : Analysis := (defineParams params a₂).2
  have h₃ : Effect k m a₂ a₃ := effect_defineParams a₂ hparams
  let a₄ : Analysis := a₃.setSymbols
    (a₃.symbols.modify (a.define d roles).1.symbol fun s => { s with params := some (defineParams params a₂).1 })
  have h₄ : Effect k m a₃ a₄ := effect_setSymbols a₃ fun h => h.modify _ _ ⟨rfl, .inl rfl, fun _ => rfl, fun _ => rfl⟩
  have h := h₁.trans (h₂.trans (h₃.trans h₄))
  unfold openFunction
  dsimp only
  split
  · exact h.trans (effect_matchPrototype a₄ _ _ _)
  · exact h

end Items

theorem effect_queueGlobal {k m : Nat} (n : NodeId) (a : Analysis) : Effect k m a (a.queueGlobal n) := by
  unfold queueGlobal
  split
  · exact effect_queue a _
  · exact .refl _ _ _

theorem effect_chains : ChainsItem Effect where
  refl := .refl
  trans := .trans
  mono h hk hm := .mono h hk hm
  place a _ _ hk hm := effect_place a _ hk hm
  refer a _ _ hk hm := effect_refer a _ hk hm
  apply a _ _ hk hm := effect_apply a _ hk hm
  setAttrs a _ _ := effect_decorate a _
  useStruct a _ tag := effect_useStruct a tag false
  queueString a _ := effect_queue a _
  setBlock a _ := effect_setBlock a
  enterBlock := effect_enterBlock
  exitBlock := effect_exitBlock
  define a _ := effect_define a (.inr rfl)
  queueGlobal a n := effect_queueGlobal n a
  defineStructAs a _ _ tag _ hfields hk hm := effect_defineStructAs a tag hk hm hfields
  openFunction a _ _ _ _ hrole hd hparams hk hm := effect_openFunction a hrole hd hk hm hparams
  recordBlank a := effect_setSymbols a fun h => h.recordBlank
  queueFunction a _ := effect_queue a _

end Analysis

open Analysis

namespace Expr

theorem analyze_effect (e : Expr) (k : Nat) (a : Analysis) : Effect k (k + e.size) a (e.analyze k a) :=
  e.chain effect_chains.toChainsExpr k a

theorem analyzeAll_effect (es : List Expr) (k : Nat) (a : Analysis) : Effect k (k + sizes es) a (analyzeAll k es a) :=
  chainAll effect_chains.toChainsExpr es k a

end Expr

namespace Decl

theorem place_effect (d : Decl) (k : Nat) (tag : Tag) (a : Analysis) : Effect k (k + d.size) a (d.place k tag a) :=
  d.chain_place effect_chains.toChainsExpr k tag a

end Decl

namespace Stmt

theorem analyze_effect (s : Stmt) (k : Nat) (a : Analysis) : Effect k (k + s.size) a (s.analyze k a) :=
  s.chain effect_chains.toChainsStmt k a

theorem analyzeAll_effect (ss : List Stmt) (k : Nat) (a : Analysis) : Effect k (k + sizes ss) a (analyzeAll k ss a) :=
  chainAll effect_chains.toChainsStmt ss k a

end Stmt

namespace Item

theorem openFunction_effect (d : Decl) (params : List Decl) (roles : Roles) (hrole : roles.isBindable = true) (k : Nat)
    (a : Analysis) : Effect k (k + (d.size + 1 + Decl.sizes params)) a
      (a.openFunction (d.declaration k) ⟨k + d.size⟩ (Decl.declarations (k + d.size + 1) params) roles) :=
  chain_openFunction effect_chains d params _ hrole k a

theorem analyze_effect (i : Item) (k : Nat) (a : Analysis) : Effect k (k + i.size) a (i.analyze k a) :=
  i.chain effect_chains k a

theorem analyzeAll_effect (is : List Item) (k : Nat) (a : Analysis) : Effect k (k + sizes is) a (analyzeAll k is a) :=
  chainAll effect_chains is k a

end Item

theorem Program.prefix_log_analyze (items : List Item) (log : Log) : log.toList <+: (analyze items log).log.toList :=
  (effect_place (k := 0) (m := 1) { log } .root (Nat.zero_le _) Nat.zero_lt_one).log.trans (Item.analyzeAll_effect items 1 _).log

end OcCompiler
