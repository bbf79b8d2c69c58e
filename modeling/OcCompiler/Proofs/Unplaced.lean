import OcCompiler.Proofs.Planting

/-! Programs without their places: `unplaced` forgets where every lexeme stands and keeps all else. Trees that show
    programs which differ in places only differ in places only. -/

namespace OcCompiler

/-! ### Lexemes, tokens and constructs -/

def Lexeme.unplaced (x : Lexeme) : Lexeme := ⟨x.text, {}⟩

@[simp] theorem Lexeme.text_unplaced (x : Lexeme) : x.unplaced.text = x.text := rfl

theorem Lexeme.text_eq_of_unplaced {x y : Lexeme} (h : x.unplaced = y.unplaced) : x.text = y.text := by
  simpa [unplaced] using h

def Token.unplaced (t : Token) : Token := ⟨t.kind, t.lexeme.unplaced⟩

theorem Token.unplaced_eq_iff {t u : Token} :
    t.unplaced = u.unplaced ↔ t.kind = u.kind ∧ t.lexeme.unplaced = u.lexeme.unplaced := by
  simp [unplaced]

def TypeName.unplaced : TypeName → TypeName
  | .scalar s x => .scalar s x.unplaced
  | .struct tag => .struct tag.unplaced

def Decl.unplaced (d : Decl) : Decl := ⟨d.base.unplaced, d.mark.map Lexeme.unplaced, d.name.unplaced⟩

mutual

def Expr.unplaced : Expr → Expr
  | .name x => .name x.unplaced
  | .constant c x => .constant c x.unplaced
  | .unary op mark e => .unary op mark.unplaced e.unplaced
  | .binary op left mark right => .binary op left.unplaced mark.unplaced right.unplaced
  | .call callee paren args => .call callee.unplaced paren.unplaced (Expr.unplacedAll args)
  | .index base bracket subscript => .index base.unplaced bracket.unplaced subscript.unplaced
  | .select object dot field => .select object.unplaced dot.unplaced field.unplaced
  | .newStruct mark tag => .newStruct mark.unplaced tag.unplaced
  | .newString mark size => .newString mark.unplaced size.unplaced
  | .newArray element mark size => .newArray element.unplaced mark.unplaced size.unplaced

def Expr.unplacedAll : List Expr → List Expr
  | [] => []
  | e :: es => e.unplaced :: Expr.unplacedAll es

end

mutual

def Stmt.unplaced : Stmt → Stmt
  | .block brace body => .block brace.unplaced (Stmt.unplacedAll body)
  | .empty x => .empty x.unplaced
  | .varDecl d equals init => .varDecl d.unplaced equals.unplaced init.unplaced
  | .whileLoop mark cond body => .whileLoop mark.unplaced cond.unplaced body.unplaced
  | .ifThen mark cond yes => .ifThen mark.unplaced cond.unplaced yes.unplaced
  | .ifElse mark cond yes no => .ifElse mark.unplaced cond.unplaced yes.unplaced no.unplaced
  | .returnValue mark value => .returnValue mark.unplaced value.unplaced
  | .returnVoid mark => .returnVoid mark.unplaced
  | .expr e => .expr e.unplaced

def Stmt.unplacedAll : List Stmt → List Stmt
  | [] => []
  | s :: ss => s.unplaced :: Stmt.unplacedAll ss

end

def Item.unplaced : Item → Item
  | .struct mark tag fields => .struct mark.unplaced tag.unplaced (fields.map Decl.unplaced)
  | .function d paren params brace body =>
    .function d.unplaced paren.unplaced (params.map Decl.unplaced) brace.unplaced (Stmt.unplacedAll body)
  | .prototype d paren params semicolon =>
    .prototype d.unplaced paren.unplaced (params.map Decl.unplaced) semicolon.unplaced
  | .stmt s => .stmt s.unplaced

namespace Sapling

mutual

def unplaced : Sapling → Sapling
  | .node tag lexeme before after => .node tag lexeme.unplaced (unplacedAll before) (unplacedAll after)
  | .spent lexeme => .spent lexeme.unplaced

def unplacedAll : List Sapling → List Sapling
  | [] => []
  | s :: ss => s.unplaced :: unplacedAll ss

end

theorem unplaced_leaf (tag : Tag) (lexeme : Lexeme) : (leaf tag lexeme).unplaced = leaf tag lexeme.unplaced := rfl

mutual

@[simp] theorem size_unplaced (s : Sapling) : s.unplaced.size = s.size := by
  match s with
  | .node tag lexeme before after => rw [unplaced, size, size, sizes_unplacedAll before, sizes_unplacedAll after]
  | .spent lexeme => rfl

@[simp] theorem sizes_unplacedAll (ss : List Sapling) : sizes (unplacedAll ss) = sizes ss := by
  match ss with
  | [] => rfl
  | s :: ss => rw [unplacedAll, sizes, sizes, size_unplaced s, sizes_unplacedAll ss]

end

@[simp] theorem tops_unplacedAll (k : Nat) (ss : List Sapling) : tops k (unplacedAll ss) = tops k ss := by
  induction ss generalizing k with
  | nil => rfl
  | cons s ss ih =>
    rw [unplacedAll, tops, tops, ih, size_unplaced]
    cases s with
    | node tag lexeme before after => rw [unplaced, top, top, sizes_unplacedAll]
    | spent lexeme => rfl

theorem unplacedAll_map {α : Type} (f : α → Sapling) (xs : List α) :
    unplacedAll (xs.map f) = xs.map fun x => (f x).unplaced := by
  induction xs with
  | nil => rfl
  | cons x xs ih => rw [List.map_cons, unplacedAll, ih, List.map_cons]

end Sapling

/-! ### The saplings of constructs -/

theorem TypeName.tag_unplaced (b : TypeName) : b.unplaced.tag = b.tag := by cases b <;> rfl

theorem TypeName.lexeme_unplaced (b : TypeName) : b.unplaced.lexeme = b.lexeme.unplaced := by cases b <;> rfl

theorem TypeName.unplaced_sapling (b : TypeName) : b.sapling.unplaced = b.unplaced.sapling := by
  rw [sapling, sapling, Sapling.unplaced_leaf, b.tag_unplaced, b.lexeme_unplaced]

theorem Decl.loc_unplaced (d : Decl) : d.unplaced.loc = {} := by
  obtain ⟨base, mark, name⟩ := d
  cases mark with
  | none => cases base <;> rfl
  | some mark => rfl

theorem Decl.unplaced_sapling (d : Decl) (nameTag : Tag) : (d.sapling nameTag).unplaced = d.unplaced.sapling nameTag := by
  obtain ⟨base, mark, name⟩ := d
  cases mark with
  | none => cases base <;> rfl
  | some mark => cases base <;> rfl

theorem Decl.unplacedAll_saplings (ds : List Decl) (nameTag : Tag) :
    Sapling.unplacedAll (ds.map (·.sapling nameTag)) = (ds.map unplaced).map (·.sapling nameTag) := by
  simp [Sapling.unplacedAll_map, Decl.unplaced_sapling]

mutual

theorem Expr.unplaced_sapling (e : Expr) : e.sapling.unplaced = e.unplaced.sapling := by
  cases e with
  | name | constant | newStruct => rfl
  | unary op mark e | newString mark e =>
    simp only [sapling, unplaced, Sapling.unplaced, Sapling.unplacedAll, e.unplaced_sapling]
  | binary op l mark r | index l mark r | newArray l mark r =>
    simp only [sapling, unplaced, Sapling.unplaced, Sapling.unplacedAll, l.unplaced_sapling, r.unplaced_sapling]
  | call callee paren args =>
    simp only [sapling, unplaced, Sapling.unplaced, Sapling.unplacedAll, Sapling.unplaced_leaf,
      Expr.unplacedAll_saplings args]
  | select e dot field =>
    simp only [sapling, unplaced, Sapling.unplaced, Sapling.unplacedAll, Sapling.unplaced_leaf, e.unplaced_sapling]

theorem Expr.unplacedAll_saplings (es : List Expr) : Sapling.unplacedAll (saplings es) = saplings (unplacedAll es) := by
  match es with
  | [] => rfl
  | e :: es => rw [saplings, Sapling.unplacedAll, e.unplaced_sapling, Expr.unplacedAll_saplings es, unplacedAll, saplings]

end

mutual

theorem Stmt.unplaced_sapling (s : Stmt) : s.sapling.unplaced = s.unplaced.sapling := by
  cases s with
  | empty | returnVoid => rfl
  | block brace body => simp only [sapling, unplaced, Sapling.unplaced, Sapling.unplacedAll, Stmt.unplacedAll_saplings body]
  | varDecl d equals init =>
    simp only [sapling, unplaced, Sapling.unplaced, Sapling.unplacedAll, d.unplaced_sapling, init.unplaced_sapling]
  | whileLoop mark cond s | ifThen mark cond s =>
    simp only [sapling, unplaced, Sapling.unplaced, Sapling.unplacedAll, cond.unplaced_sapling, s.unplaced_sapling]
  | ifElse mark cond yes no =>
    simp only [sapling, unplaced, Sapling.unplaced, Sapling.unplacedAll, cond.unplaced_sapling, yes.unplaced_sapling,
      no.unplaced_sapling]
  | returnValue mark e => simp only [sapling, unplaced, Sapling.unplaced, Sapling.unplacedAll, e.unplaced_sapling]
  | expr e => simp only [sapling, unplaced, e.unplaced_sapling]

theorem Stmt.unplacedAll_saplings (ss : List Stmt) : Sapling.unplacedAll (saplings ss) = saplings (unplacedAll ss) := by
  match ss with
  | [] => rfl
  | s :: ss => rw [saplings, Sapling.unplacedAll, s.unplaced_sapling, Stmt.unplacedAll_saplings ss, unplacedAll, saplings]

end

namespace Item

theorem unplaced_structSapling (mark tag : Lexeme) (fields : List Decl) :
    (structSapling mark tag fields).unplaced = structSapling mark.unplaced tag.unplaced (fields.map Decl.unplaced) := by
  simp only [structSapling, Sapling.unplaced, Sapling.unplacedAll, Sapling.unplaced_leaf, Decl.unplacedAll_saplings]

theorem unplaced_paramsSapling (paren : Lexeme) (params : List Decl) :
    (paramsSapling paren params).unplaced = paramsSapling paren.unplaced (params.map Decl.unplaced) := by
  simp only [paramsSapling, Sapling.unplaced, Sapling.unplacedAll, Decl.unplacedAll_saplings]

theorem unplaced_sapling (i : Item) : i.sapling.unplaced = i.unplaced.sapling := by
  cases i with
  | struct mark tag fields => exact unplaced_structSapling mark tag fields
  | function d paren params brace body =>
    simp only [sapling, unplaced, Sapling.unplaced, Sapling.unplacedAll, d.unplaced_sapling, unplaced_paramsSapling,
      Stmt.unplaced_sapling, Lexeme.unplaced, d.loc_unplaced, Stmt.unplaced]
  | prototype d paren params semicolon =>
    simp only [sapling, unplaced, Sapling.unplaced, Sapling.unplacedAll, d.unplaced_sapling, unplaced_paramsSapling,
      Lexeme.unplaced, d.loc_unplaced]
  | stmt s => exact s.unplaced_sapling

end Item

def Node.unplaced (x : Node) : Node := { x with lexeme := x.lexeme.unplaced }

namespace Tree

def unplaced (t : Tree) : Tree := ⟨t.nodes.map Node.unplaced⟩

variable (t : Tree)

@[simp] theorem size_unplaced : t.unplaced.size = t.size := by simp [unplaced, size]

@[simp] theorem node_unplaced (n : NodeId) : t.unplaced.node n = (t.node n).unplaced := by
  simp only [node, unplaced, Array.getD_eq_getD_getElem?, Array.getElem?_map]
  cases t.nodes[n.index]? with
  | none => rfl
  | some x => rfl

@[simp] theorem tag_unplaced (n : NodeId) : t.unplaced.tag n = t.tag n := by rw [tag, node_unplaced]; rfl

@[simp] theorem children_unplaced (n : NodeId) : t.unplaced.children n = t.children n := by
  rw [children, node_unplaced]
  rfl

@[simp] theorem parent_unplaced (n : NodeId) : t.unplaced.parent n = t.parent n := by rw [parent, node_unplaced]; rfl

theorem lexeme_unplaced (n : NodeId) : t.unplaced.lexeme n = (t.lexeme n).unplaced := by rw [lexeme, node_unplaced]; rfl

mutual

theorem Shows.unplaced {t : Tree} {p : Option NodeId} {k : Nat} (s : Sapling) (h : t.Shows p k s) :
    t.unplaced.Shows p k s.unplaced := by
  match s with
  | .node tag lexeme before after =>
    rw [Shows] at h
    rw [Sapling.unplaced, Shows]
    simp only [Sapling.sizes_unplacedAll, Sapling.tops_unplacedAll, node_unplaced, h.1]
    exact ⟨rfl, ShowsAll.unplaced before h.2.1, ShowsAll.unplaced after h.2.2⟩
  | .spent lexeme =>
    rw [Shows] at h
    rw [Sapling.unplaced, Shows, node_unplaced, h]
    rfl

theorem ShowsAll.unplaced {t : Tree} {p : Option NodeId} {k : Nat} (ss : List Sapling) (h : t.ShowsAll p k ss) :
    t.unplaced.ShowsAll p k (Sapling.unplacedAll ss) := by
  match ss with
  | [] => trivial
  | s :: ss =>
    rw [ShowsAll] at h
    rw [Sapling.unplacedAll, ShowsAll, Sapling.size_unplaced]
    exact ⟨Shows.unplaced s h.1, ShowsAll.unplaced ss h.2⟩

end

end Tree

end OcCompiler
