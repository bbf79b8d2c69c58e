import OcCompiler.Proofs.TableChanges

/-! Which blocks are open while a program is analyzed. Blocks are numbered in the order in which they are opened, and
    each construct closes all blocks that it opens. -/

namespace OcCompiler

open Analysis

namespace SymbolTable

/-- The same blocks are open in both, and `count` blocks were opened in between. -/
structure Opens (count : Nat) (s s' : SymbolTable) : Prop where
  openBlocks : s'.openBlocks = s.openBlocks
  nextBlock : s'.nextBlock = s.nextBlock + count

variable {s s' s'' : SymbolTable} {m n : Nat}

theorem Opens.refl (s : SymbolTable) : Opens 0 s s := ⟨rfl, rfl⟩

theorem Opens.trans (h : Opens m s s') (h' : Opens n s' s'') : Opens (m + n) s s'' :=
  ⟨h'.openBlocks.trans h.openBlocks, by rw [h'.nextBlock, h.nextBlock, Nat.add_assoc]⟩

theorem Opens.still (h : Opens n s s') (h' : Opens 0 s' s'') : Opens n s s'' := h.trans h'

theorem Opens.currentBlock (h : Opens n s s') : s'.currentBlock = s.currentBlock :=
  (List.cons.inj h.openBlocks).1

theorem Opens.closed (h : Opens n s.enterBlock s') : Opens (n + 1) s s'.exitBlock.2 := by
  have hnext : s'.exitBlock.2.nextBlock = s'.nextBlock := by
    unfold exitBlock
    split <;> rfl
  refine ⟨?_, by rw [hnext, h.nextBlock]; simp only [enterBlock]; omega⟩
  have hblocks : s'.outer.map Scope.block = s.openBlocks := (List.cons.inj h.openBlocks).2
  unfold exitBlock
  split
  · rename_i houter
    rw [houter] at hblocks
    cases hblocks
  · rename_i around outer houter
    rw [houter] at hblocks
    exact hblocks

theorem Local.opens (h : Local s s') : Opens 0 s s' := ⟨h.frame.openBlocks, h.nextBlock⟩

end SymbolTable

open SymbolTable (Opens)

theorem Analysis.opens_openFunction (a : Analysis) (d : Declaration) (paramList : NodeId) (params : List Declaration)
    (roles : Roles) :
    ∃ s, Opens 0 a.symbols s ∧ Opens 0 s.enterBlock (a.openFunction d paramList params roles).symbols := by
  obtain ⟨s, hs, hparams⟩ := a.local_openFunction d paramList params roles
  exact ⟨s, hs.opens, hparams.opens⟩

@[simp] theorem Decl.symbols_place (d : Decl) (k : Nat) (tag : Tag) (a : Analysis) : (d.place k tag a).symbols = a.symbols := by
  unfold Decl.place
  split <;> simp

@[simp] theorem Decl.symbols_placeAll (ds : List Decl) (k : Nat) (tag : Tag) (a : Analysis) :
    (Decl.placeAll k tag ds a).symbols = a.symbols := by
  induction ds generalizing k a with
  | nil => rfl
  | cons d ds ih => rw [Decl.placeAll, ih, Decl.symbols_place]

@[simp] theorem Item.symbols_placeHead (k : Nat) (d : Decl) (params : List Decl) (a : Analysis) :
    (placeHead k d params a).symbols = a.symbols := by
  simp [placeHead]

theorem Analysis.opens_chains : ChainsExpr fun _ _ a b => Opens 0 a.symbols b.symbols where
  refl _ _ _ := .refl _
  trans := .trans
  mono h _ _ := h
  place _ _ _ _ _ := by simpa using Opens.refl _
  refer _ _ _ _ _ := by simpa using Opens.refl _
  apply _ _ _ _ _ := by simpa using Opens.refl _
  setAttrs _ _ _ _ _ := .refl _
  useStruct a n tag _ _ := (plain_useStruct a n tag false).toLocal.opens
  queueString _ _ := .refl _

theorem Expr.opens_analyze (e : Expr) (k : Nat) (a : Analysis) : Opens 0 a.symbols (e.analyze k a).symbols :=
  e.chain opens_chains k a

namespace Stmt

mutual

/-- How many blocks a statement opens: one for each pair of braces. -/
def blocks : Stmt → Nat
  | .block _ body => blocksAll body + 1
  | .whileLoop _ _ body => body.blocks
  | .ifThen _ _ yes => yes.blocks
  | .ifElse _ _ yes no => yes.blocks + no.blocks
  | .empty _ | .varDecl .. | .returnValue .. | .returnVoid _ | .expr _ => 0

def blocksAll : List Stmt → Nat
  | [] => 0
  | s :: ss => s.blocks + blocksAll ss

end

end Stmt

theorem Analysis.symbols_queueGlobal (a : Analysis) (n : NodeId) : (a.queueGlobal n).symbols = a.symbols := by
  unfold queueGlobal
  split <;> rfl

mutual

theorem Stmt.opens_analyze (s : Stmt) (k : Nat) (a : Analysis) : Opens s.blocks a.symbols (s.analyze k a).symbols := by
  cases s with
  | block brace body =>
    rw [analyze, blocks]
    exact (Stmt.opens_analyzeAll body (k + 1) (a.enterBlock.2.setBlock ⟨k⟩ a.enterBlock.1)).closed
  | empty semicolon | returnVoid mark =>
    rw [analyze, blocks, symbols_place]
    exact .refl _
  | varDecl d equals init =>
    rw [analyze, blocks]
    have hinit := init.opens_analyze (k + d.size + 1) (d.place k .declName (a.place ⟨k + d.size⟩ .varDecl))
    rw [Decl.symbols_place, symbols_place] at hinit
    simpa [symbols_queueGlobal] using hinit.trans (local_define _ (d.declaration k) { var := true, lvalue := true }).opens
  | whileLoop mark cond body =>
    rw [analyze, blocks]
    simpa using (cond.opens_analyze (k + 1) (a.place ⟨k⟩ .whileLoop)).trans (Stmt.opens_analyze body _ _)
  | ifThen mark cond yes =>
    rw [analyze, blocks]
    simpa using (cond.opens_analyze (k + 1) (a.place ⟨k⟩ .ifThen)).trans (Stmt.opens_analyze yes _ _)
  | ifElse mark cond yes no =>
    rw [analyze, blocks]
    simpa using ((cond.opens_analyze (k + 1) (a.place ⟨k⟩ .ifElse)).trans (Stmt.opens_analyze yes _ _)).trans
      (Stmt.opens_analyze no _ _)
  | returnValue mark value =>
    rw [analyze, blocks]
    simpa using value.opens_analyze (k + 1) (a.place ⟨k⟩ .returnValue)
  | expr e =>
    rw [analyze, blocks]
    exact e.opens_analyze k a

theorem Stmt.opens_analyzeAll (ss : List Stmt) (k : Nat) (a : Analysis) :
    Opens (blocksAll ss) a.symbols (analyzeAll k ss a).symbols := by
  match ss with
  | [] => exact .refl _
  | s :: ss =>
    rw [analyzeAll, blocksAll]
    exact (Stmt.opens_analyze s k a).trans (Stmt.opens_analyzeAll ss _ _)

end

namespace Item

/-- How many blocks an item opens. The body of a function shares one with the parameters. -/
def blocks : Item → Nat
  | .struct .. => 0
  | .function _ _ _ _ body => Stmt.blocksAll body + 1
  | .prototype .. => 1
  | .stmt s => s.blocks

theorem symbols_enterBody (k : Nat) (n : NodeId) (d : Decl) (params : List Decl) (body : List Stmt) (a : Analysis) :
    Opens 0 a.symbols (enterBody k n d params body a).symbols := by
  unfold enterBody
  dsimp only
  show Opens 0 a.symbols (placeHead k d params _).symbols
  rw [symbols_placeHead]
  split <;> exact ⟨rfl, rfl⟩

theorem opens_analyze (i : Item) (k : Nat) (a : Analysis) : Opens i.blocks a.symbols (i.analyze k a).symbols := by
  cases i with
  | struct mark tag fields =>
    rw [analyze, Decl.symbols_placeAll, symbols_place]
    simpa [blocks] using
      (plain_defineStructAs (a.place ⟨k⟩ .struct) ⟨k⟩ ⟨k + 1⟩ tag (Decl.declarations (k + 2) fields)).toLocal.opens
  | function d paren params brace body =>
    rw [analyze_function]
    simp only [leaveBody, symbols_apply]
    generalize (⟨k + d.size + 1 + Decl.sizes params + 1 + Stmt.sizes body⟩ : NodeId) = n
    obtain ⟨s, hs, hparams⟩ := opens_openFunction (a.place n .function) (d.declaration k) ⟨k + d.size⟩
      (Decl.declarations (k + d.size + 1) params) { function := true }
    have hbody := (hparams.trans (symbols_enterBody k n d params body _)).trans
      (Stmt.opens_analyzeAll body (k + d.size + 1 + Decl.sizes params + 1) _)
    rw [symbols_place] at hs
    have hclosed := hs.trans hbody.closed
    simpa [blocks, exitBlock, setSymbols] using hclosed
  | prototype d paren params semicolon =>
    rw [analyze]
    obtain ⟨s, hs, hparams⟩ := opens_openFunction
      (a.place ⟨k + d.size + 1 + Decl.sizes params + 1⟩ .prototype) (d.declaration k) ⟨k + d.size⟩
      (Decl.declarations (k + d.size + 1) params) { function := true, prototype := true }
    rw [symbols_place] at hs
    have hclosed := hs.trans hparams.closed
    simpa [blocks, exitBlock, setSymbols] using hclosed
  | stmt s =>
    rw [analyze, blocks]
    exact s.opens_analyze k a

end Item

end OcCompiler
