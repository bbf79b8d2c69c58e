import OcCompiler.Analysis.Resolve
import OcCompiler.Proofs.Building
import OcCompiler.Proofs.Judgement

/-! The numbers of the nodes that stand for a construct whose first node has number `k`, and what it means for a
    tree to show the construct: one equation for each constructor. -/

namespace OcCompiler

/-! ### Where the nodes of a construct are -/

def Sapling.lead : Sapling → Nat
  | .node _ _ before _ => sizes before
  | .spent _ => 0

theorem Sapling.Live.top_eq {s : Sapling} (h : s.Live) (k : Nat) : s.top k = some ⟨k + s.lead⟩ := by
  cases s with
  | node tag lexeme before after => rfl
  | spent lexeme => exact h.elim

theorem Sapling.Live.depth_pos {s : Sapling} (h : s.Live) : 0 < s.depth := by
  cases s with
  | node tag lexeme before after => simp [depth]
  | spent lexeme => exact h.elim

def Sapling.tag : Sapling → Tag
  | .node tag _ _ _ => tag
  | .spent _ => .released

theorem Tree.Shows.tag_top {t : Tree} {p : Option NodeId} {k : Nat} {s : Sapling} (h : t.Shows p k s) :
    t.tag ⟨k + s.lead⟩ = s.tag := by
  cases s with
  | node tag lexeme before after =>
    simp only [Tree.Shows] at h
    simp only [Sapling.lead, Sapling.tag, Tree.tag, h.1]
  | spent lexeme =>
    simp only [Tree.Shows] at h
    simp [Sapling.lead, Sapling.tag, Tree.tag, h]

namespace Decl

def size (d : Decl) : Nat :=
  match d.mark with
  | some _ => 3
  | none => 2

/-- The topmost node of a declaration: its array mark, or else its type. -/
def topNode (k : Nat) (d : Decl) : NodeId :=
  match d.mark with
  | some _ => ⟨k + 2⟩
  | none => ⟨k⟩

/-- A declaration as the analysis takes it. The type has the first node and the name the second. -/
def declaration (k : Nat) (d : Decl) : Declaration :=
  ⟨d.base.base, ⟨k⟩, d.base.lexeme, d.mark.isSome, ⟨k + 1⟩, d.name⟩

def sizes : List Decl → Nat
  | [] => 0
  | d :: ds => d.size + sizes ds

def topNodes (k : Nat) : List Decl → List NodeId
  | [] => []
  | d :: ds => d.topNode k :: topNodes (k + d.size) ds

def declarations (k : Nat) : List Decl → List Declaration
  | [] => []
  | d :: ds => d.declaration k :: declarations (k + d.size) ds

end Decl

namespace Expr

def size (e : Expr) : Nat := e.sapling.size

def topNode (k : Nat) (e : Expr) : NodeId := ⟨k + e.sapling.lead⟩

def sizes : List Expr → Nat
  | [] => 0
  | e :: es => e.size + sizes es

def topNodes (k : Nat) : List Expr → List NodeId
  | [] => []
  | e :: es => e.topNode k :: topNodes (k + e.size) es

end Expr

namespace Stmt

def size (s : Stmt) : Nat := s.sapling.size

def topNode (k : Nat) (s : Stmt) : NodeId := ⟨k + s.sapling.lead⟩

def sizes : List Stmt → Nat
  | [] => 0
  | s :: ss => s.size + sizes ss

def topNodes (k : Nat) : List Stmt → List NodeId
  | [] => []
  | s :: ss => s.topNode k :: topNodes (k + s.size) ss

end Stmt

namespace Item

def size (i : Item) : Nat := i.sapling.size

def topNode (k : Nat) (i : Item) : NodeId := ⟨k + i.sapling.lead⟩

def sizes : List Item → Nat
  | [] => 0
  | i :: is => i.size + sizes is

def topNodes (k : Nat) : List Item → List NodeId
  | [] => []
  | i :: is => i.topNode k :: topNodes (k + i.size) is

end Item

@[simp] theorem Sapling.top_leaf (k : Nat) (tag : Tag) (lexeme : Lexeme) : (leaf tag lexeme).top k = some ⟨k⟩ := by
  simp [leaf, top, sizes]

@[simp] theorem Sapling.size_leaf (tag : Tag) (lexeme : Lexeme) : (leaf tag lexeme).size = 1 := by
  simp [leaf, size, sizes]

attribute [local simp] Sapling.size Sapling.sizes Sapling.lead Sapling.tops Tree.Shows Tree.ShowsAll TypeName.sapling
  Expr.sapling Expr.size Stmt.sapling Stmt.size Item.size

namespace Decl

theorem two_le_size (d : Decl) : 2 ≤ d.size := by
  unfold size
  split <;> simp

theorem size_sapling (d : Decl) (tag : Tag) : (d.sapling tag).size = d.size := by
  obtain ⟨base, mark, name⟩ := d
  cases mark <;> simp [sapling, size]

theorem top_sapling (k : Nat) (d : Decl) (tag : Tag) : (d.sapling tag).top k = some (d.topNode k) := by
  obtain ⟨base, mark, name⟩ := d
  cases mark <;> simp [sapling, topNode, Sapling.top]

theorem sizes_saplings (ds : List Decl) (tag : Tag) : Sapling.sizes (ds.map (·.sapling tag)) = sizes ds := by
  induction ds with
  | nil => rfl
  | cons d ds ih => simp [sizes, ih, size_sapling]

theorem tops_saplings (k : Nat) (ds : List Decl) (tag : Tag) :
    Sapling.tops k (ds.map (·.sapling tag)) = topNodes k ds := by
  induction ds generalizing k with
  | nil => rfl
  | cons d ds ih => simp [topNodes, ih, size_sapling, top_sapling]

end Decl

namespace Expr

theorem top_sapling (k : Nat) (e : Expr) : e.sapling.top k = some (e.topNode k) := e.live_sapling.top_eq k

theorem sizes_saplings (es : List Expr) : Sapling.sizes (saplings es) = sizes es := by
  induction es with
  | nil => rfl
  | cons e es ih => simp [saplings, sizes, ih]

theorem tops_saplings (k : Nat) (es : List Expr) : Sapling.tops k (saplings es) = topNodes k es := by
  induction es generalizing k with
  | nil => rfl
  | cons e es ih => simp [saplings, topNodes, ih, top_sapling]

section Sizes

variable (op : UnaryOp) (op' : BinaryOp) (x y : Lexeme) (e e' : Expr)

@[simp] theorem size_name : (name x).size = 1 := by simp

@[simp] theorem size_constant (c : Constant) : (constant c x).size = 1 := by
  simp

@[simp] theorem size_unary : (unary op x e).size = e.size + 1 := by
  simp; omega

@[simp] theorem size_binary : (binary op' e x e').size = e.size + 1 + e'.size := by
  simp

@[simp] theorem size_call (args : List Expr) : (call x y args).size = sizes args + 2 := by
  simp [sizes_saplings]; omega

@[simp] theorem size_index : (index e x e').size = e.size + 1 + e'.size := by
  simp

@[simp] theorem size_select : (select e x y).size = e.size + 2 := by
  simp

@[simp] theorem size_newStruct : (newStruct x y).size = 2 := by
  simp

@[simp] theorem size_newString : (newString x e).size = e.size + 1 := by
  simp; omega

@[simp] theorem size_newArray (element : TypeName) : (newArray element x e).size = e.size + 2 := by
  simp; omega

end Sizes

section TopNodes

variable (k : Nat) (op : UnaryOp) (op' : BinaryOp) (x y : Lexeme) (e e' : Expr)

@[simp] theorem topNode_name : (name x).topNode k = ⟨k⟩ := rfl

@[simp] theorem topNode_constant (c : Constant) : (constant c x).topNode k = ⟨k⟩ := rfl

@[simp] theorem topNode_unary : (unary op x e).topNode k = ⟨k⟩ := rfl

@[simp] theorem topNode_binary : (binary op' e x e').topNode k = ⟨k + e.size⟩ := by
  simp [topNode]

@[simp] theorem topNode_call (args : List Expr) : (call x y args).topNode k = ⟨k + 1⟩ := by
  simp [topNode]

@[simp] theorem topNode_index : (index e x e').topNode k = ⟨k + e.size⟩ := by
  simp [topNode]

@[simp] theorem topNode_select : (select e x y).topNode k = ⟨k + e.size⟩ := by
  simp [topNode]

@[simp] theorem topNode_newStruct : (newStruct x y).topNode k = ⟨k⟩ := rfl

@[simp] theorem topNode_newString : (newString x e).topNode k = ⟨k⟩ := rfl

@[simp] theorem topNode_newArray (element : TypeName) : (newArray element x e).topNode k = ⟨k + 1⟩ := by
  cases element <;> rfl

end TopNodes

theorem topNode_bounds (k : Nat) (e : Expr) : k ≤ (e.topNode k).index ∧ (e.topNode k).index < k + e.size :=
  Sapling.top_bounds (e.top_sapling k)

end Expr

namespace Stmt

theorem top_sapling (k : Nat) (s : Stmt) : s.sapling.top k = some (s.topNode k) := s.live_sapling.top_eq k

theorem sizes_saplings (ss : List Stmt) : Sapling.sizes (saplings ss) = sizes ss := by
  induction ss with
  | nil => rfl
  | cons s ss ih => simp [saplings, sizes, ih]

section Sizes

variable (x : Lexeme) (e : Expr) (s s' : Stmt)

@[simp] theorem size_block (body : List Stmt) : (block x body).size = sizes body + 1 := by
  simp [sizes_saplings]; omega

@[simp] theorem size_empty : (empty x).size = 1 := by
  simp

@[simp] theorem size_varDecl (d : Decl) : (varDecl d x e).size = d.size + 1 + e.size := by
  simp [Decl.size_sapling]

@[simp] theorem size_whileLoop : (whileLoop x e s).size = 1 + e.size + s.size := by
  simp; omega

@[simp] theorem size_ifThen : (ifThen x e s).size = 1 + e.size + s.size := by
  simp; omega

@[simp] theorem size_ifElse : (ifElse x e s s').size = 1 + e.size + s.size + s'.size := by
  simp; omega

@[simp] theorem size_returnValue : (returnValue x e).size = e.size + 1 := by
  simp; omega

@[simp] theorem size_returnVoid : (returnVoid x).size = 1 := by
  simp

@[simp] theorem size_expr : (expr e).size = e.size := by
  simp

end Sizes

theorem topNode_varDecl (k : Nat) (d : Decl) (equals : Lexeme) (init : Expr) :
    (varDecl d equals init).topNode k = ⟨k + d.size⟩ := by
  simp [topNode, Decl.size_sapling]

theorem tops_saplings (k : Nat) (ss : List Stmt) : Sapling.tops k (saplings ss) = topNodes k ss := by
  induction ss generalizing k with
  | nil => rfl
  | cons s ss ih => simp [saplings, topNodes, ih, top_sapling]

end Stmt

namespace Item

theorem top_sapling (k : Nat) (i : Item) : i.sapling.top k = some (i.topNode k) := i.live_sapling.top_eq k

theorem size_params (paren : Lexeme) (params : List Decl) :
    (paramsSapling paren params).size = 1 + Decl.sizes params := by
  simp [paramsSapling, Decl.sizes_saplings]

theorem size_block (brace : Lexeme) (body : List Stmt) :
    (Stmt.block brace body).sapling.size = 1 + Stmt.sizes body := by
  simp [Stmt.sizes_saplings]

@[simp] theorem size_struct (mark tag : Lexeme) (fields : List Decl) :
    (struct mark tag fields).size = 2 + Decl.sizes fields := by
  simp [sapling, structSapling, Decl.sizes_saplings]
  omega

@[simp] theorem size_function (d : Decl) (paren brace : Lexeme) (params : List Decl) (body : List Stmt) :
    (function d paren params brace body).size = d.size + 1 + Decl.sizes params + 1 + Stmt.sizes body + 1 := by
  simp only [size, sapling, Sapling.size, Sapling.sizes, Decl.size_sapling, size_params, size_block]
  omega

@[simp] theorem size_prototype (d : Decl) (paren semicolon : Lexeme) (params : List Decl) :
    (prototype d paren params semicolon).size = d.size + 1 + Decl.sizes params + 1 + 1 := by
  simp only [size, sapling, Sapling.size, Sapling.sizes, Decl.size_sapling, size_params]
  omega

@[simp] theorem size_stmt (s : Stmt) : (stmt s).size = s.size := by
  simp [sapling]

theorem topNode_function (k : Nat) (d : Decl) (paren brace : Lexeme) (params : List Decl) (body : List Stmt) :
    (function d paren params brace body).topNode k = ⟨k + d.size + 1 + Decl.sizes params + 1 + Stmt.sizes body⟩ := by
  simp only [topNode, sapling, Sapling.lead, Sapling.sizes, Decl.size_sapling, size_params, size_block, NodeId.mk.injEq]
  omega

theorem topNode_prototype (k : Nat) (d : Decl) (paren semicolon : Lexeme) (params : List Decl) :
    (prototype d paren params semicolon).topNode k = ⟨k + d.size + 1 + Decl.sizes params + 1⟩ := by
  simp only [topNode, sapling, Sapling.lead, Sapling.sizes, Decl.size_sapling, size_params, Sapling.size,
    NodeId.mk.injEq]
  omega

theorem sizes_saplings (is : List Item) : Sapling.sizes (is.map sapling) = sizes is := by
  induction is with
  | nil => rfl
  | cons i is ih => simp [sizes, ih]

theorem tops_saplings (k : Nat) (is : List Item) : Sapling.tops k (is.map sapling) = topNodes k is := by
  induction is generalizing k with
  | nil => rfl
  | cons i is ih => simp [topNodes, ih, top_sapling]

end Item

/-! ### What it means to show a construct -/

section Shows

variable {t : Tree} {p : Option NodeId} {k : Nat}

@[simp] theorem Sapling.shows_leaf {tag : Tag} {lexeme : Lexeme} :
    t.Shows p k (.leaf tag lexeme) ↔ t.node ⟨k⟩ = ⟨tag, lexeme, [], p⟩ := by
  simp [leaf, sizes, tops]

namespace Decl

variable {base : TypeName} {tag : Tag} {name : Lexeme}

theorem shows_marked {mark : Lexeme} :
    t.Shows p k (sapling ⟨base, some mark, name⟩ tag) ↔
      t.node ⟨k + 2⟩ = ⟨.array, mark, [⟨k⟩, ⟨k + 1⟩], p⟩ ∧
        t.node ⟨k⟩ = ⟨base.tag, base.lexeme, [], some ⟨k + 2⟩⟩ ∧
        t.node ⟨k + 1⟩ = ⟨tag, name, [], some ⟨k + 2⟩⟩ := by
  simp [sapling]

theorem shows_bare :
    t.Shows p k (sapling ⟨base, none, name⟩ tag) ↔
      t.node ⟨k⟩ = ⟨base.tag, base.lexeme, [⟨k + 1⟩], p⟩ ∧ t.node ⟨k + 1⟩ = ⟨tag, name, [], some ⟨k⟩⟩ := by
  simp [sapling]

end Decl

namespace Expr

variable {mark : Lexeme} {count : Expr}

theorem shows_unary {op : UnaryOp} {e : Expr} :
    t.Shows p k (sapling (.unary op mark e)) ↔
      t.node ⟨k⟩ = ⟨.unary op, mark, [e.topNode (k + 1)], p⟩ ∧ t.Shows (some ⟨k⟩) (k + 1) e.sapling := by
  simp [top_sapling]

theorem shows_binary {op : BinaryOp} {l r : Expr} :
    t.Shows p k (sapling (.binary op l mark r)) ↔
      t.node ⟨k + l.size⟩ = ⟨.binary op, mark, [l.topNode k, r.topNode (k + l.size + 1)], p⟩ ∧
        t.Shows (some ⟨k + l.size⟩) k l.sapling ∧ t.Shows (some ⟨k + l.size⟩) (k + l.size + 1) r.sapling := by
  simp [top_sapling]

theorem shows_call {callee paren : Lexeme} {args : List Expr} :
    t.Shows p k (sapling (.call callee paren args)) ↔
      t.node ⟨k + 1⟩ = ⟨.call, paren, ⟨k⟩ :: topNodes (k + 2) args, p⟩ ∧
        t.node ⟨k⟩ = ⟨.name, callee, [], some ⟨k + 1⟩⟩ ∧ t.ShowsAll (some ⟨k + 1⟩) (k + 2) (saplings args) := by
  simp [tops_saplings]

theorem shows_index {base subscript : Expr} {bracket : Lexeme} :
    t.Shows p k (sapling (.index base bracket subscript)) ↔
      t.node ⟨k + base.size⟩ = ⟨.index, bracket, [base.topNode k, subscript.topNode (k + base.size + 1)], p⟩ ∧
        t.Shows (some ⟨k + base.size⟩) k base.sapling ∧
        t.Shows (some ⟨k + base.size⟩) (k + base.size + 1) subscript.sapling := by
  simp [top_sapling]

theorem shows_select {object : Expr} {dot field : Lexeme} :
    t.Shows p k (sapling (.select object dot field)) ↔
      t.node ⟨k + object.size⟩ = ⟨.select, dot, [object.topNode k, ⟨k + object.size + 1⟩], p⟩ ∧
        t.Shows (some ⟨k + object.size⟩) k object.sapling ∧
        t.node ⟨k + object.size + 1⟩ = ⟨.field, field, [], some ⟨k + object.size⟩⟩ := by
  simp [top_sapling]

theorem shows_newStruct {tag : Lexeme} :
    t.Shows p k (sapling (.newStruct mark tag)) ↔
      t.node ⟨k⟩ = ⟨.newStruct, mark, [⟨k + 1⟩], p⟩ ∧ t.node ⟨k + 1⟩ = ⟨.typeName, tag, [], some ⟨k⟩⟩ := by
  simp

theorem shows_newString :
    t.Shows p k (sapling (.newString mark count)) ↔
      t.node ⟨k⟩ = ⟨.newString, mark, [count.topNode (k + 1)], p⟩ ∧ t.Shows (some ⟨k⟩) (k + 1) count.sapling := by
  simp [top_sapling]

theorem shows_newArray {element : TypeName} :
    t.Shows p k (sapling (.newArray element mark count)) ↔
      t.node ⟨k + 1⟩ = ⟨.newArray, mark, [⟨k⟩, count.topNode (k + 2)], p⟩ ∧
        t.node ⟨k⟩ = ⟨element.tag, element.lexeme, [], some ⟨k + 1⟩⟩ ∧
        t.Shows (some ⟨k + 1⟩) (k + 2) count.sapling := by
  simp [top_sapling]

end Expr

namespace Stmt

variable {mark : Lexeme} {cond : Expr}

theorem shows_block {brace : Lexeme} {body : List Stmt} :
    t.Shows p k (sapling (.block brace body)) ↔
      t.node ⟨k⟩ = ⟨.block, brace, topNodes (k + 1) body, p⟩ ∧
        t.ShowsAll (some ⟨k⟩) (k + 1) (saplings body) := by
  simp [tops_saplings]

theorem shows_varDecl {d : Decl} {equals : Lexeme} {init : Expr} :
    t.Shows p k (sapling (.varDecl d equals init)) ↔
      t.node ⟨k + d.size⟩ = ⟨.varDecl, equals, [d.topNode k, init.topNode (k + d.size + 1)], p⟩ ∧
        t.Shows (some ⟨k + d.size⟩) k (d.sapling .declName) ∧
        t.Shows (some ⟨k + d.size⟩) (k + d.size + 1) init.sapling := by
  simp [Decl.size_sapling, Decl.top_sapling, Expr.top_sapling]

theorem shows_whileLoop {body : Stmt} :
    t.Shows p k (sapling (.whileLoop mark cond body)) ↔
      t.node ⟨k⟩ = ⟨.whileLoop, mark, [cond.topNode (k + 1), body.topNode (k + 1 + cond.size)], p⟩ ∧
        t.Shows (some ⟨k⟩) (k + 1) cond.sapling ∧ t.Shows (some ⟨k⟩) (k + 1 + cond.size) body.sapling := by
  simp [Expr.top_sapling, top_sapling]

theorem shows_ifThen {yes : Stmt} :
    t.Shows p k (sapling (.ifThen mark cond yes)) ↔
      t.node ⟨k⟩ = ⟨.ifThen, mark, [cond.topNode (k + 1), yes.topNode (k + 1 + cond.size)], p⟩ ∧
        t.Shows (some ⟨k⟩) (k + 1) cond.sapling ∧ t.Shows (some ⟨k⟩) (k + 1 + cond.size) yes.sapling := by
  simp [Expr.top_sapling, top_sapling]

theorem shows_ifElse {yes no : Stmt} :
    t.Shows p k (sapling (.ifElse mark cond yes no)) ↔
      t.node ⟨k⟩ = ⟨.ifElse, mark, [cond.topNode (k + 1), yes.topNode (k + 1 + cond.size),
          no.topNode (k + 1 + cond.size + yes.size)], p⟩ ∧
        t.Shows (some ⟨k⟩) (k + 1) cond.sapling ∧ t.Shows (some ⟨k⟩) (k + 1 + cond.size) yes.sapling ∧
        t.Shows (some ⟨k⟩) (k + 1 + cond.size + yes.size) no.sapling := by
  simp [Expr.top_sapling, top_sapling]

theorem shows_returnValue {value : Expr} :
    t.Shows p k (sapling (.returnValue mark value)) ↔
      t.node ⟨k⟩ = ⟨.returnValue, mark, [value.topNode (k + 1)], p⟩ ∧
        t.Shows (some ⟨k⟩) (k + 1) value.sapling := by
  simp [Expr.top_sapling]

end Stmt

namespace Item

variable {params : List Decl} {paren : Lexeme} {d : Decl}

theorem shows_struct {mark tag : Lexeme} {fields : List Decl} :
    t.Shows p k (sapling (.struct mark tag fields)) ↔
      t.node ⟨k⟩ = ⟨.struct, mark, ⟨k + 1⟩ :: Decl.topNodes (k + 2) fields, p⟩ ∧
        t.node ⟨k + 1⟩ = ⟨.typeName, tag, [], some ⟨k⟩⟩ ∧
        t.ShowsAll (some ⟨k⟩) (k + 2) (fields.map (·.sapling .field)) := by
  simp [sapling, structSapling, Decl.tops_saplings]

theorem shows_params :
    t.Shows p k (paramsSapling paren params) ↔
      t.node ⟨k⟩ = ⟨.paramList, paren, Decl.topNodes (k + 1) params, p⟩ ∧
        t.ShowsAll (some ⟨k⟩) (k + 1) (params.map (·.sapling .declName)) := by
  simp [paramsSapling, Decl.tops_saplings]

theorem shows_function {brace : Lexeme} {body : List Stmt} {list block n : NodeId}
    (hlist : list = ⟨k + d.size⟩) (hblock : block = ⟨k + d.size + 1 + Decl.sizes params⟩)
    (hn : n = ⟨k + d.size + 1 + Decl.sizes params + 1 + Stmt.sizes body⟩) :
    t.Shows p k (sapling (.function d paren params brace body)) ↔
      t.node n = ⟨.function, ⟨"<<FUNCTION>>", d.loc⟩, [d.topNode k, list, block], p⟩ ∧
        t.Shows (some n) k (d.sapling .declName) ∧ t.Shows (some n) list.index (paramsSapling paren params) ∧
        t.Shows (some n) block.index (Stmt.block brace body).sapling := by
  have hparams : ∀ k, (paramsSapling paren params).top k = some ⟨k⟩ := fun k => by
    simp [paramsSapling, Sapling.top]
  have hbody : ∀ k, (Stmt.block brace body).sapling.top k = some ⟨k⟩ := fun k => by
    simp [Sapling.top]
  subst hlist hblock hn
  simp [-Stmt.sapling, sapling, Decl.size_sapling, Decl.top_sapling, size_params, size_block, hparams, hbody, Nat.add_assoc]

theorem shows_prototype {semicolon : Lexeme} {list n : NodeId}
    (hlist : list = ⟨k + d.size⟩) (hn : n = ⟨k + d.size + 1 + Decl.sizes params + 1⟩) :
    t.Shows p k (sapling (.prototype d paren params semicolon)) ↔
      t.node n = ⟨.prototype, ⟨"<<PROTOTYPE>>", d.loc⟩, [d.topNode k, list], p⟩ ∧
        t.Shows (some n) k (d.sapling .declName) ∧ t.Shows (some n) list.index (paramsSapling paren params) ∧
        t.node ⟨k + d.size + 1 + Decl.sizes params⟩ = ⟨.released, semicolon, [], none⟩ := by
  have hparams : ∀ k, (paramsSapling paren params).top k = some ⟨k⟩ := fun k => by
    simp [paramsSapling, Sapling.top]
  have hspent : ∀ k, (Sapling.spent semicolon).top k = none := fun _ => rfl
  subst hlist hn
  simp [sapling, Decl.size_sapling, Decl.top_sapling, size_params, hparams, hspent, Nat.add_assoc]

end Item

end Shows

end OcCompiler
