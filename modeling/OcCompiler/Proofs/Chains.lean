import OcCompiler.Proofs.Symbols
import OcCompiler.Proofs.Walk

/-! The analysis of a construct is a chain of small changes to the nodes of the construct. A relation of analyses that
    can be chained and that holds of every such change holds of the whole. -/

namespace OcCompiler

def Declaration.Within (k m : Nat) (d : Declaration) : Prop :=
  (k ≤ d.typeNode.index ∧ d.typeNode.index < m) ∧ k ≤ d.nameNode.index ∧ d.nameNode.index < m

namespace Decl

theorem declaration_within (d : Decl) {k m j : Nat} (hk : m ≤ k := by omega) (hj : k + d.size ≤ j := by omega) :
    (d.declaration k).Within m j := by
  have := d.two_le_size
  refine ⟨⟨?_, ?_⟩, ?_, ?_⟩ <;> dsimp only [declaration] <;> omega

theorem declarations_within (ds : List Decl) {k m j : Nat} (hk : m ≤ k := by omega) (hj : k + sizes ds ≤ j := by omega) :
    ∀ d ∈ declarations k ds, d.Within m j := by
  induction ds generalizing k with
  | nil => intro d hd; cases hd
  | cons d ds ih =>
    rw [sizes] at hj
    exact List.forall_mem_cons.mpr ⟨d.declaration_within hk (by omega), ih (by omega) (by omega)⟩

end Decl

namespace Analysis

/-- A relation of what there is before and after some work on the nodes from `k` up to `m`. -/
structure Chains (R : Nat → Nat → Analysis → Analysis → Prop) : Prop where
  refl (k m : Nat) (a : Analysis) : R k m a a
  trans {k m : Nat} {a b c : Analysis} (h : R k m a b) (h' : R k m b c) : R k m a c
  mono {k m k' m' : Nat} {a b : Analysis} (h : R k m a b) (hk : k' ≤ k := by omega) (hm : m ≤ m' := by omega) :
    R k' m' a b

/-- The relation holds of what is done to analyze an expression. -/
structure ChainsExpr (R : Nat → Nat → Analysis → Analysis → Prop) : Prop extends Chains R where
  place {k m : Nat} (a : Analysis) {n : NodeId} (tag : Tag) (hk : k ≤ n.index := by dsimp only; omega)
    (hm : n.index < m := by dsimp only; omega) : R k m a (a.place n tag)
  refer {k m : Nat} (a : Analysis) {n : NodeId} (x : Lexeme) (hk : k ≤ n.index := by dsimp only; omega)
    (hm : n.index < m := by dsimp only; omega) : R k m a (a.refer n x)
  apply {k m : Nat} (a : Analysis) {n : NodeId} (v : Verdict) (hk : k ≤ n.index := by dsimp only; omega)
    (hm : n.index < m := by dsimp only; omega) : R k m a (a.apply n v)
  setAttrs {k m : Nat} (a : Analysis) {n : NodeId} (attrs : Attributes) (hk : k ≤ n.index := by dsimp only; omega)
    (hm : n.index < m := by dsimp only; omega) : R k m a (a.setAttrs n attrs)
  useStruct {k m : Nat} (a : Analysis) {n : NodeId} (tag : Lexeme) (hk : k ≤ n.index := by dsimp only; omega)
    (hm : n.index < m := by dsimp only; omega) : R k m a (a.useStruct n tag false)
  queueString {k m : Nat} (a : Analysis) (n : NodeId) :
    R k m a { a with queues.strings := a.queues.strings.push n }

structure ChainsStmt (R : Nat → Nat → Analysis → Analysis → Prop) : Prop extends ChainsExpr R where
  setBlock {k m : Nat} (a : Analysis) {n : NodeId} (block : Nat) (hk : k ≤ n.index := by dsimp only; omega)
    (hm : n.index < m := by dsimp only; omega) : R k m a (a.setBlock n block)
  enterBlock {k m : Nat} (a : Analysis) : R k m a a.enterBlock.2
  exitBlock {k m : Nat} (a : Analysis) : R k m a a.exitBlock
  define {k m : Nat} (a : Analysis) {d : Declaration} (hd : d.Within k m) :
    R k m a (a.define d { var := true, lvalue := true }).2
  queueGlobal {k m : Nat} (a : Analysis) (n : NodeId) : R k m a (a.queueGlobal n)

structure ChainsItem (R : Nat → Nat → Analysis → Analysis → Prop) : Prop extends ChainsStmt R where
  defineStructAs {k m : Nat} (a : Analysis) (n : NodeId) {name : NodeId} (tag : Lexeme) {fields : List Declaration}
    (hfields : ∀ d ∈ fields, d.Within k m) (hk : k ≤ name.index := by dsimp only; omega)
    (hm : name.index < m := by dsimp only; omega) : R k m a (a.defineStructAs n name tag fields)
  openFunction {k m : Nat} (a : Analysis) {d : Declaration} {paramList : NodeId} {params : List Declaration}
    {roles : Roles} (hrole : roles.isBindable = true) (hd : d.Within k m) (hparams : ∀ d ∈ params, d.Within k m)
    (hk : k ≤ paramList.index := by dsimp only; omega) (hm : paramList.index < m := by dsimp only; omega) :
    R k m a (a.openFunction d paramList params roles)
  recordBlank {k m : Nat} (a : Analysis) : R k m a (a.setSymbols a.symbols.recordBlank)
  queueFunction {k m : Nat} (a : Analysis) (n : NodeId) :
    R k m a { a with queues.functions := a.queues.functions.push n }

end Analysis

open Analysis

variable {R : Nat → Nat → Analysis → Analysis → Prop}

mutual

theorem Expr.chain (hR : ChainsExpr R) (e : Expr) (k : Nat) (a : Analysis) : R k (k + e.size) a (e.analyze k a) := by
  cases e with
  | name x =>
    rw [analyze, size_name]
    exact hR.trans (hR.place a _) (hR.refer _ x)
  | constant c lexeme =>
    rw [analyze, size_constant]
    dsimp only
    split
    · exact hR.trans (hR.place a _) (hR.queueString _ _)
    · exact hR.place a _
  | unary op mark operand =>
    rw [analyze, size_unary]
    exact hR.trans (hR.trans (hR.place a _) (hR.mono (Expr.chain hR operand (k + 1) _))) (hR.apply _ _)
  | binary op left mark right =>
    rw [analyze, size_binary]
    refine hR.trans (hR.trans ?_ (hR.mono (Expr.chain hR right (k + left.size + 1) _))) (hR.apply _ _)
    exact hR.trans (hR.place a _) (hR.mono (Expr.chain hR left k _))
  | call callee paren args =>
    rw [analyze, size_call]
    refine hR.trans (hR.trans ?_ (hR.mono (Expr.chainAll hR args (k + 2) _))) (hR.apply _ _)
    exact hR.trans (hR.trans (hR.place a _) (hR.place _ _)) (hR.refer _ callee)
  | index base bracket subscript =>
    rw [analyze, size_index]
    refine hR.trans (hR.trans ?_ (hR.mono (Expr.chain hR subscript (k + base.size + 1) _))) (hR.apply _ _)
    exact hR.trans (hR.place a _) (hR.mono (Expr.chain hR base k _))
  | select object dot field =>
    rw [analyze, size_select]
    refine hR.trans (hR.trans (hR.trans ?_ (hR.place _ _)) (hR.setAttrs _ _)) (hR.apply _ _)
    exact hR.trans (hR.place a _) (hR.mono (Expr.chain hR object k _))
  | newStruct mark tag =>
    rw [analyze, size_newStruct]
    exact hR.trans (hR.trans (hR.trans (hR.place a _) (hR.place _ _)) (hR.useStruct _ _)) (hR.setAttrs _ _)
  | newString mark count =>
    rw [analyze, size_newString]
    exact hR.trans (hR.trans (hR.place a _) (hR.mono (Expr.chain hR count (k + 1) _))) (hR.apply _ _)
  | newArray element mark count =>
    rw [size_newArray]
    have hcount : R k (k + (count.size + 2)) a
        (count.analyze (k + 2) ((a.place ⟨k + 1⟩ .newArray).place ⟨k⟩ element.tag)) :=
      hR.trans (hR.trans (hR.place a _) (hR.place _ _)) (hR.mono (Expr.chain hR count (k + 2) _))
    cases element with
    | struct tag =>
      rw [analyze]
      exact hR.trans (hR.trans hcount (hR.useStruct _ _)) (hR.apply _ _)
    | scalar s lexeme =>
      rw [analyze]
      exact hR.trans hcount (hR.apply _ _)

theorem Expr.chainAll (hR : ChainsExpr R) (es : List Expr) (k : Nat) (a : Analysis) :
    R k (k + sizes es) a (analyzeAll k es a) := by
  match es with
  | [] => exact hR.refl _ _ _
  | e :: es =>
    rw [analyzeAll, sizes]
    exact hR.trans (hR.mono (Expr.chain hR e k a)) (hR.mono (Expr.chainAll hR es (k + e.size) _))

end

theorem Decl.chain_place (hR : ChainsExpr R) (d : Decl) (k : Nat) (tag : Tag) (a : Analysis) :
    R k (k + d.size) a (d.place k tag a) := by
  obtain ⟨base, mark, name⟩ := d
  cases mark with
  | some mark =>
    show R k (k + 3) a (((a.place ⟨k + 2⟩ .array).place ⟨k⟩ base.tag).place ⟨k + 1⟩ tag)
    exact hR.trans (hR.trans (hR.place a _) (hR.place _ _)) (hR.place _ _)
  | none =>
    show R k (k + 2) a ((a.place ⟨k⟩ base.tag).place ⟨k + 1⟩ tag)
    exact hR.trans (hR.place a _) (hR.place _ _)

theorem Decl.chain_placeAll (hR : ChainsExpr R) (ds : List Decl) (k : Nat) (tag : Tag) (a : Analysis) :
    R k (k + sizes ds) a (placeAll k tag ds a) := by
  induction ds generalizing k a with
  | nil => exact hR.refl _ _ _
  | cons d ds ih =>
    rw [placeAll, sizes]
    exact hR.trans (hR.mono (d.chain_place hR k tag a)) (hR.mono (ih _ _))

mutual

theorem Stmt.chain (hR : ChainsStmt R) (s : Stmt) (k : Nat) (a : Analysis) : R k (k + s.size) a (s.analyze k a) := by
  have hexpr := hR.toChainsExpr
  cases s with
  | block brace body =>
    rw [analyze, size_block]
    refine hR.trans (hR.trans ?_ (hR.mono (Stmt.chainAll hR body (k + 1) _))) (hR.exitBlock _)
    exact hR.trans (hR.enterBlock a) (hR.setBlock _ _)
  | empty semicolon =>
    rw [analyze, size_empty]
    exact hR.place a _
  | varDecl d equals init =>
    rw [analyze, size_varDecl]
    refine hR.trans (hR.trans (hR.trans ?_ (hR.define _ ?_)) (hR.queueGlobal _ _)) (hR.apply _ _)
    · refine hR.trans ?_ (hR.mono (init.chain hexpr (k + d.size + 1) _))
      exact hR.trans (hR.place a _) (hR.mono (d.chain_place hexpr k .declName _))
    · exact d.declaration_within (Nat.le_refl k) (by omega)
  | whileLoop mark cond body =>
    rw [analyze, size_whileLoop]
    refine hR.trans (hR.trans ?_ (hR.mono (Stmt.chain hR body (k + 1 + cond.size) _))) (hR.apply _ _)
    exact hR.trans (hR.place a _) (hR.mono (cond.chain hexpr (k + 1) _))
  | ifThen mark cond yes =>
    rw [analyze, size_ifThen]
    refine hR.trans (hR.trans ?_ (hR.mono (Stmt.chain hR yes (k + 1 + cond.size) _))) (hR.apply _ _)
    exact hR.trans (hR.place a _) (hR.mono (cond.chain hexpr (k + 1) _))
  | ifElse mark cond yes no =>
    rw [analyze, size_ifElse]
    refine hR.trans (hR.trans ?_ (hR.mono (Stmt.chain hR no (k + 1 + cond.size + yes.size) _))) (hR.apply _ _)
    refine hR.trans ?_ (hR.mono (Stmt.chain hR yes (k + 1 + cond.size) _))
    exact hR.trans (hR.place a _) (hR.mono (cond.chain hexpr (k + 1) _))
  | returnValue mark value =>
    rw [analyze, size_returnValue]
    exact hR.trans (hR.place a _) (hR.mono (value.chain hexpr (k + 1) _))
  | returnVoid mark =>
    rw [analyze, size_returnVoid]
    exact hR.place a _
  | expr e =>
    rw [analyze, size_expr]
    exact e.chain hexpr k a

theorem Stmt.chainAll (hR : ChainsStmt R) (ss : List Stmt) (k : Nat) (a : Analysis) :
    R k (k + sizes ss) a (analyzeAll k ss a) := by
  match ss with
  | [] => exact hR.refl _ _ _
  | s :: ss =>
    rw [analyzeAll, sizes]
    exact hR.trans (hR.mono (Stmt.chain hR s k a)) (hR.mono (Stmt.chainAll hR ss (k + s.size) _))

end

namespace Item

theorem chain_placeHead (hR : ChainsExpr R) (d : Decl) (params : List Decl) (k : Nat) (a : Analysis) :
    R k (k + (d.size + 1 + Decl.sizes params)) a (placeHead k d params a) :=
  hR.trans (hR.trans (hR.mono (d.chain_place hR k .declName a)) (hR.place _ _))
    (hR.mono (Decl.chain_placeAll hR params (k + d.size + 1) .declName _))

theorem chain_openFunction (hR : ChainsItem R) (d : Decl) (params : List Decl) (roles : Roles)
    (hrole : roles.isBindable = true) (k : Nat) (a : Analysis) : R k (k + (d.size + 1 + Decl.sizes params)) a
      (a.openFunction (d.declaration k) ⟨k + d.size⟩ (Decl.declarations (k + d.size + 1) params) roles) :=
  hR.openFunction a hrole (d.declaration_within (Nat.le_refl k) (by omega))
    (Decl.declarations_within params)

theorem chain (hR : ChainsItem R) (i : Item) (k : Nat) (a : Analysis) : R k (k + i.size) a (i.analyze k a) := by
  have hexpr := hR.toChainsExpr
  cases i with
  | struct mark tag fields =>
    rw [analyze, size_struct]
    refine hR.trans (hR.trans ?_ (hR.place _ _)) (hR.mono (Decl.chain_placeAll hexpr fields (k + 2) .field _))
    exact hR.trans (hR.place a _) (hR.defineStructAs _ _ tag (Decl.declarations_within fields))
  | function d paren params brace body =>
    rw [analyze, size_function]
    have hblank (b : Analysis) : R k (k + (d.size + 1 + Decl.sizes params + 1 + Stmt.sizes body + 1)) b
        (if body.any Stmt.isVarDecl then b.setSymbols b.symbols.recordBlank else b) := by
      split
      · exact hR.recordBlank b
      · exact hR.refl _ _ _
    refine hR.trans (hR.trans ?_ (hR.exitBlock _)) (hR.apply _ _)
    refine hR.trans (hR.trans ?_ (hR.setBlock _ _))
      (hR.mono (Stmt.chainAll hR.toChainsStmt body (k + d.size + 1 + Decl.sizes params + 1) _))
    refine hR.trans (hR.trans (hR.trans ?_ (hblank _)) (hR.queueFunction _ _)) (hR.mono (chain_placeHead hexpr d params k _))
    exact hR.trans (hR.place a _) (hR.mono (chain_openFunction hR d params _ rfl k _))
  | prototype d paren params semicolon =>
    rw [analyze, size_prototype]
    refine hR.trans (hR.trans ?_ (hR.mono (chain_placeHead hexpr d params k _))) (hR.exitBlock _)
    exact hR.trans (hR.place a _) (hR.mono (chain_openFunction hR d params _ rfl k _))
  | stmt s =>
    rw [analyze, size_stmt]
    exact s.chain hR.toChainsStmt k a

theorem chainAll (hR : ChainsItem R) (is : List Item) (k : Nat) (a : Analysis) :
    R k (k + sizes is) a (analyzeAll k is a) := by
  induction is generalizing k a with
  | nil => exact hR.refl _ _ _
  | cons i is ih =>
    rw [analyzeAll, sizes]
    exact hR.trans (hR.mono (i.chain hR k a)) (hR.mono (ih _ _))

end Item

end OcCompiler
