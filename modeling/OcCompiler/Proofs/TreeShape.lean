import OcCompiler.Proofs.Layout
import OcCompiler.Proofs.Places
import OcCompiler.Proofs.TreeLinks

/-! The shape of a tree that was read. Every node has the children that its tag calls for, the walk from the root meets
    exactly the nodes that were not released, and the released ones are the semicolons of the prototypes. -/

namespace OcCompiler

namespace Tag

def isExpr : Tag → Bool
  | .name | .constant _ | .unary _ | .binary _ | .call | .index | .select | .newStruct | .newString | .newArray => true
  | _ => false

def isStmt : Tag → Bool
  | .block | .semicolon | .varDecl | .whileLoop | .ifThen | .ifElse | .returnValue | .returnVoid => true
  | tag => tag.isExpr

def isItem : Tag → Bool
  | .struct | .function | .prototype => true
  | tag => tag.isStmt

def isBase : Tag → Bool
  | .scalar _ | .typeName => true
  | _ => false

end Tag

namespace Tree

def IsLeaf (t : Tree) (tag : Tag) (n : NodeId) : Prop := t.tag n = tag ∧ t.children n = []

def IsBase (t : Tree) (n : NodeId) : Prop := (t.tag n).isBase = true ∧ t.children n = []

/-- A declaration of a name: a type with the name below it, or an array mark with the type and the name below it. -/
def IsDecl (t : Tree) (nameTag : Tag) (n : NodeId) : Prop :=
  match t.tag n, t.children n with
  | .array, [base, name] => t.IsBase base ∧ t.IsLeaf nameTag name
  | tag, [name] => tag.isBase = true ∧ t.IsLeaf nameTag name
  | _, _ => False

/-- What the children of a node with the given tag must be. -/
def Suits (t : Tree) : Tag → List NodeId → Prop
  | .root, items => ∀ i ∈ items, (t.tag i).isItem = true
  | .struct, tag :: fields => t.IsLeaf .typeName tag ∧ ∀ f ∈ fields, t.IsDecl .field f
  | .function, [decl, params, body] => t.IsDecl .declName decl ∧ t.tag params = .paramList ∧ t.tag body = .block
  | .prototype, [decl, params] => t.IsDecl .declName decl ∧ t.tag params = .paramList
  | .paramList, params => ∀ d ∈ params, t.IsDecl .declName d
  | .block, body => ∀ s ∈ body, (t.tag s).isStmt = true
  | .varDecl, [decl, init] => t.IsDecl .declName decl ∧ (t.tag init).isExpr = true
  | .array, [base, name] => t.IsBase base ∧ (t.IsLeaf .declName name ∨ t.IsLeaf .field name)
  | .scalar _, [name] | .typeName, [name] => t.IsLeaf .declName name ∨ t.IsLeaf .field name
  | .whileLoop, [cond, s] | .ifThen, [cond, s] => (t.tag cond).isExpr = true ∧ (t.tag s).isStmt = true
  | .ifElse, [cond, yes, no] =>
    (t.tag cond).isExpr = true ∧ (t.tag yes).isStmt = true ∧ (t.tag no).isStmt = true
  | .binary _, [left, right] | .index, [left, right] => (t.tag left).isExpr = true ∧ (t.tag right).isExpr = true
  | .unary _, [e] | .newString, [e] | .returnValue, [e] => (t.tag e).isExpr = true
  | .newStruct, [tag] => t.IsLeaf .typeName tag
  | .newArray, [base, size] => t.IsBase base ∧ (t.tag size).isExpr = true
  | .call, callee :: args => t.IsLeaf .name callee ∧ ∀ e ∈ args, (t.tag e).isExpr = true
  | .select, [object, field] => (t.tag object).isExpr = true ∧ t.IsLeaf .field field
  | .scalar _, [] | .typeName, [] | .declName, [] | .field, [] | .name, [] | .constant _, [] | .returnVoid, []
  | .semicolon, [] => True
  | _, _ => False

def Fits (t : Tree) (n : NodeId) : Prop := t.Suits (t.tag n) (t.children n)

/-- The node fits and is no prototype. All nodes but those of a prototype are so. -/
structure Plain (t : Tree) (n : NodeId) : Prop where
  fits : t.Fits n
  tag_ne : t.tag n ≠ .prototype

variable {t : Tree} {n : NodeId} {p : Option NodeId} {x : Lexeme} {b : TypeName}

theorem fits_of_node {x : Node} (hnode : t.node n = x) (h : t.Suits x.tag x.children) : t.Fits n := by
  rw [Fits, tag, children, hnode]
  exact h

theorem plain_of_node {x : Node} (hnode : t.node n = x) (h : t.Suits x.tag x.children)
    (htag : x.tag ≠ .prototype) : t.Plain n :=
  ⟨fits_of_node hnode h, by rwa [tag, hnode]⟩

theorem isLeaf_of_node {tag : Tag} (hnode : t.node n = ⟨tag, x, [], p⟩) : t.IsLeaf tag n :=
  ⟨congrArg Node.tag hnode, congrArg Node.children hnode⟩

theorem isBase_of_node (hnode : t.node n = ⟨b.tag, x, [], p⟩) :
    t.IsBase n := by
  obtain ⟨htag, hchildren⟩ := isLeaf_of_node hnode
  refine ⟨?_, hchildren⟩
  rw [htag]
  cases b <;> rfl

theorem plain_of_base (hnode : t.node n = ⟨b.tag, x, [], p⟩) : t.Plain n := by
  cases b with
  | scalar s y => exact plain_of_node hnode trivial nofun
  | struct tag => exact plain_of_node hnode trivial nofun

theorem Fits.tag_ne (h : t.Fits n) : t.tag n ≠ .released := by
  intro htag
  rw [Fits, htag] at h
  exact h

end Tree

section Shapes

variable {t : Tree} {p : Option NodeId} {k : Nat} {i : Nat}
variable {nameTag : Tag} {params : List Decl} {paren : Lexeme}

open Tree

theorem Decl.isDecl_topNode (d : Decl) (h : t.Shows p k (d.sapling nameTag)) :
    t.IsDecl nameTag (d.topNode k) := by
  obtain ⟨base, mark, name⟩ := d
  cases mark with
  | some mark =>
    obtain ⟨hnode, hbase, hname⟩ := Decl.shows_marked.mp h
    show t.IsDecl nameTag ⟨k + 2⟩
    rw [IsDecl, tag, children, hnode]
    exact ⟨isBase_of_node hbase, isLeaf_of_node hname⟩
  | none =>
    obtain ⟨hnode, hname⟩ := Decl.shows_bare.mp h
    show t.IsDecl nameTag ⟨k⟩
    rw [IsDecl, tag, children, hnode]
    cases base with
    | scalar s x => exact ⟨rfl, isLeaf_of_node hname⟩
    | struct x => exact ⟨rfl, isLeaf_of_node hname⟩

theorem Decl.plain (d : Decl) (h : t.Shows p k (d.sapling nameTag))
    (hname : nameTag = .declName ∨ nameTag = .field) (hlow : k ≤ i) (hhigh : i < k + d.size) : t.Plain ⟨i⟩ := by
  have hleaf {n : NodeId} {x : Lexeme} {p : Option NodeId} (hnode : t.node n = ⟨nameTag, x, [], p⟩) :
      t.IsLeaf .declName n ∨ t.IsLeaf .field n := by
    rcases hname with rfl | rfl
    · exact .inl (isLeaf_of_node hnode)
    · exact .inr (isLeaf_of_node hnode)
  have hplain {n : NodeId} {x : Lexeme} {p : Option NodeId} (hnode : t.node n = ⟨nameTag, x, [], p⟩) : t.Plain n := by
    rcases hname with rfl | rfl
    · exact plain_of_node hnode trivial (by simp)
    · exact plain_of_node hnode trivial (by simp)
  obtain ⟨base, mark, name⟩ := d
  cases mark with
  | some mark =>
    obtain ⟨hnode, hbase, hname⟩ := Decl.shows_marked.mp h
    simp only [size] at hlow hhigh
    obtain rfl | rfl | rfl : i = k ∨ i = k + 1 ∨ i = k + 2 := by omega
    · exact plain_of_base hbase
    · exact hplain hname
    · exact plain_of_node hnode ⟨isBase_of_node hbase, hleaf hname⟩ (by simp)
  | none =>
    obtain ⟨hnode, hname⟩ := Decl.shows_bare.mp h
    simp only [size] at hlow hhigh
    obtain rfl | rfl : i = k ∨ i = k + 1 := by omega
    · cases base with
      | scalar s x | struct x => exact plain_of_node hnode (hleaf hname) (by simp [TypeName.tag])
    · exact hplain hname

theorem Decl.isDecl_topNodes (ds : List Decl) (h : t.ShowsAll p k (ds.map (·.sapling nameTag))) :
    ∀ n ∈ topNodes k ds, t.IsDecl nameTag n := by
  induction ds generalizing k with
  | nil => exact List.forall_mem_nil _
  | cons d ds ih =>
    rw [List.map_cons, ShowsAll, size_sapling] at h
    rw [topNodes, List.forall_mem_cons]
    exact ⟨d.isDecl_topNode h.1, ih h.2⟩

theorem Decl.plainAll (ds : List Decl) (h : t.ShowsAll p k (ds.map (·.sapling nameTag)))
    (hname : nameTag = .declName ∨ nameTag = .field) (hlow : k ≤ i) (hhigh : i < k + sizes ds) : t.Plain ⟨i⟩ := by
  induction ds generalizing k with
  | nil =>
    rw [sizes] at hhigh
    omega
  | cons d ds ih =>
    rw [List.map_cons, ShowsAll, size_sapling] at h
    rw [sizes] at hhigh
    by_cases hi : i < k + d.size
    · exact d.plain h.1 hname hlow hi
    · exact ih h.2 (by omega) (by omega)

theorem Expr.isExpr_topNode (e : Expr) (h : t.Shows p k e.sapling) : (t.tag (e.topNode k)).isExpr = true := by
  rw [topNode, h.tag_top]
  cases e <;> rfl

theorem Expr.isExpr_topNodes (es : List Expr) (h : t.ShowsAll p k (saplings es)) :
    ∀ n ∈ topNodes k es, (t.tag n).isExpr = true := by
  induction es generalizing k with
  | nil => exact List.forall_mem_nil _
  | cons e es ih =>
    rw [saplings, ShowsAll] at h
    rw [topNodes, List.forall_mem_cons]
    exact ⟨e.isExpr_topNode h.1, ih h.2⟩

mutual

theorem Expr.plain (e : Expr) {p : Option NodeId} {k : Nat} {i : Nat} (h : t.Shows p k e.sapling) (hlow : k ≤ i)
    (hhigh : i < k + e.size) : t.Plain ⟨i⟩ := by
  cases e with
  | name x | constant c x =>
    obtain rfl : i = k := by simp at hhigh; omega
    exact plain_of_node (Sapling.shows_leaf.mp h) trivial nofun
  | unary op mark e =>
    obtain ⟨hnode, he⟩ := Expr.shows_unary.mp h
    rw [size_unary] at hhigh
    rcases Nat.eq_or_lt_of_le hlow with rfl | hlt
    · exact plain_of_node hnode (e.isExpr_topNode he) nofun
    · exact e.plain he hlt (by omega)
  | binary op l mark r =>
    obtain ⟨hnode, hl, hr⟩ := Expr.shows_binary.mp h
    rw [size_binary] at hhigh
    rcases Nat.lt_trichotomy i (k + l.size) with hlt | rfl | hgt
    · exact l.plain hl hlow hlt
    · exact plain_of_node hnode ⟨l.isExpr_topNode hl, r.isExpr_topNode hr⟩ nofun
    · exact r.plain hr hgt (by omega)
  | call callee paren args =>
    obtain ⟨hnode, hcallee, hargs⟩ := Expr.shows_call.mp h
    rw [size_call] at hhigh
    obtain rfl | rfl | hlt : i = k ∨ i = k + 1 ∨ k + 2 ≤ i := by omega
    · exact plain_of_node hcallee trivial nofun
    · exact plain_of_node hnode ⟨isLeaf_of_node hcallee, Expr.isExpr_topNodes args hargs⟩ nofun
    · exact Expr.plainAll args hargs hlt (by omega)
  | index l mark r =>
    obtain ⟨hnode, hl, hr⟩ := Expr.shows_index.mp h
    rw [size_index] at hhigh
    rcases Nat.lt_trichotomy i (k + l.size) with hlt | rfl | hgt
    · exact l.plain hl hlow hlt
    · exact plain_of_node hnode ⟨l.isExpr_topNode hl, r.isExpr_topNode hr⟩ nofun
    · exact r.plain hr hgt (by omega)
  | select e dot field =>
    obtain ⟨hnode, he, hfield⟩ := Expr.shows_select.mp h
    rw [size_select] at hhigh
    obtain hlt | rfl | rfl : i < k + e.size ∨ i = k + e.size ∨ i = k + e.size + 1 := by omega
    · exact e.plain he hlow hlt
    · exact plain_of_node hnode ⟨e.isExpr_topNode he, isLeaf_of_node hfield⟩ nofun
    · exact plain_of_node hfield trivial nofun
  | newStruct mark tag =>
    obtain ⟨hnode, htag⟩ := Expr.shows_newStruct.mp h
    rw [size_newStruct] at hhigh
    obtain rfl | rfl : i = k ∨ i = k + 1 := by omega
    · exact plain_of_node hnode (isLeaf_of_node htag) nofun
    · exact plain_of_node htag trivial nofun
  | newString mark e =>
    obtain ⟨hnode, he⟩ := Expr.shows_newString.mp h
    rw [size_newString] at hhigh
    rcases Nat.eq_or_lt_of_le hlow with rfl | hlt
    · exact plain_of_node hnode (e.isExpr_topNode he) nofun
    · exact e.plain he hlt (by omega)
  | newArray element mark e =>
    obtain ⟨hnode, hbase, he⟩ := Expr.shows_newArray.mp h
    rw [size_newArray] at hhigh
    obtain rfl | rfl | hlt : i = k ∨ i = k + 1 ∨ k + 2 ≤ i := by omega
    · exact plain_of_base hbase
    · exact plain_of_node hnode ⟨isBase_of_node hbase, e.isExpr_topNode he⟩ nofun
    · exact e.plain he hlt (by omega)

theorem Expr.plainAll (es : List Expr) {p : Option NodeId} {k : Nat} {i : Nat} (h : t.ShowsAll p k (saplings es))
    (hlow : k ≤ i) (hhigh : i < k + sizes es) : t.Plain ⟨i⟩ := by
  match es with
  | [] =>
    rw [sizes] at hhigh
    omega
  | e :: es =>
    rw [saplings, ShowsAll] at h
    rw [sizes] at hhigh
    by_cases hi : i < k + e.size
    · exact e.plain h.1 hlow hi
    · exact Expr.plainAll es h.2 (Nat.le_of_not_lt hi) (by rwa [← Nat.add_assoc] at hhigh)

end

theorem Stmt.isStmt_topNode (s : Stmt) (h : t.Shows p k s.sapling) : (t.tag (s.topNode k)).isStmt = true := by
  rw [topNode, h.tag_top]
  cases s with
  | expr e => cases e <;> rfl
  | _ => rfl

theorem Stmt.isStmt_topNodes (ss : List Stmt) (h : t.ShowsAll p k (saplings ss)) :
    ∀ n ∈ topNodes k ss, (t.tag n).isStmt = true := by
  induction ss generalizing k with
  | nil => exact List.forall_mem_nil _
  | cons s ss ih =>
    rw [saplings, ShowsAll] at h
    rw [topNodes, List.forall_mem_cons]
    exact ⟨s.isStmt_topNode h.1, ih h.2⟩

mutual

theorem Stmt.plain (s : Stmt) {p : Option NodeId} {k : Nat} {i : Nat} (h : t.Shows p k s.sapling) (hlow : k ≤ i)
    (hhigh : i < k + s.size) : t.Plain ⟨i⟩ := by
  cases s with
  | block brace body =>
    obtain ⟨hnode, hbody⟩ := Stmt.shows_block.mp h
    rw [size_block] at hhigh
    rcases Nat.eq_or_lt_of_le hlow with rfl | hlt
    · exact plain_of_node hnode (Stmt.isStmt_topNodes body hbody) nofun
    · exact Stmt.plainAll body hbody hlt (by omega)
  | empty mark | returnVoid mark =>
    obtain rfl : i = k := by simp at hhigh; omega
    exact plain_of_node (Sapling.shows_leaf.mp h) trivial nofun
  | varDecl d equals init =>
    obtain ⟨hnode, hd, hinit⟩ := Stmt.shows_varDecl.mp h
    rw [size_varDecl] at hhigh
    rcases Nat.lt_trichotomy i (k + d.size) with hlt | rfl | hgt
    · exact d.plain hd (.inl rfl) hlow hlt
    · exact plain_of_node hnode ⟨d.isDecl_topNode hd, init.isExpr_topNode hinit⟩ nofun
    · exact init.plain hinit hgt (by omega)
  | whileLoop mark cond body =>
    obtain ⟨hnode, hcond, hbody⟩ := Stmt.shows_whileLoop.mp h
    rw [size_whileLoop] at hhigh
    obtain rfl | ⟨hlt, hlt'⟩ | hgt : i = k ∨ (k + 1 ≤ i ∧ i < k + 1 + cond.size) ∨ k + 1 + cond.size ≤ i := by omega
    · exact plain_of_node hnode ⟨cond.isExpr_topNode hcond, body.isStmt_topNode hbody⟩ nofun
    · exact cond.plain hcond hlt hlt'
    · exact body.plain hbody hgt (by omega)
  | ifThen mark cond yes =>
    obtain ⟨hnode, hcond, hyes⟩ := Stmt.shows_ifThen.mp h
    rw [size_ifThen] at hhigh
    obtain rfl | ⟨hlt, hlt'⟩ | hgt : i = k ∨ (k + 1 ≤ i ∧ i < k + 1 + cond.size) ∨ k + 1 + cond.size ≤ i := by omega
    · exact plain_of_node hnode ⟨cond.isExpr_topNode hcond, yes.isStmt_topNode hyes⟩ nofun
    · exact cond.plain hcond hlt hlt'
    · exact yes.plain hyes hgt (by omega)
  | ifElse mark cond yes no =>
    obtain ⟨hnode, hcond, hyes, hno⟩ := Stmt.shows_ifElse.mp h
    rw [size_ifElse] at hhigh
    obtain rfl | ⟨hlt, hlt'⟩ | hgt : i = k ∨ (k + 1 ≤ i ∧ i < k + 1 + cond.size) ∨ k + 1 + cond.size ≤ i := by omega
    · exact plain_of_node hnode ⟨cond.isExpr_topNode hcond, yes.isStmt_topNode hyes, no.isStmt_topNode hno⟩ nofun
    · exact cond.plain hcond hlt hlt'
    · by_cases hi : i < k + 1 + cond.size + yes.size
      · exact yes.plain hyes hgt hi
      · exact no.plain hno (Nat.le_of_not_lt hi) (by omega)
  | returnValue mark e =>
    obtain ⟨hnode, he⟩ := Stmt.shows_returnValue.mp h
    rw [size_returnValue] at hhigh
    rcases Nat.eq_or_lt_of_le hlow with rfl | hlt
    · exact plain_of_node hnode (e.isExpr_topNode he) nofun
    · exact e.plain he hlt (by omega)
  | expr e => exact e.plain h hlow (by rwa [size_expr] at hhigh)

theorem Stmt.plainAll (ss : List Stmt) {p : Option NodeId} {k : Nat} {i : Nat} (h : t.ShowsAll p k (saplings ss))
    (hlow : k ≤ i) (hhigh : i < k + sizes ss) : t.Plain ⟨i⟩ := by
  match ss with
  | [] =>
    rw [sizes] at hhigh
    omega
  | s :: ss =>
    rw [saplings, ShowsAll] at h
    rw [sizes] at hhigh
    by_cases hi : i < k + s.size
    · exact s.plain h.1 hlow hi
    · exact Stmt.plainAll ss h.2 (Nat.le_of_not_lt hi) (by rwa [← Nat.add_assoc] at hhigh)

end

/-- What a node of a program is: a plain one, the semicolon that was given up for a prototype, or the prototype right
    behind it. -/
inductive Tree.Role (t : Tree) (tokens : List Token) : Nat → Prop
  | plain {i : Nat} (h : t.Plain ⟨i⟩) : Role t tokens i
  | semicolon {i : Nat} {x : Lexeme} (hnode : t.node ⟨i⟩ = ⟨.released, x, [], none⟩) (hx : ⟨.punct ';', x⟩ ∈ tokens)
      (hnext : t.tag ⟨i + 1⟩ = .prototype) : Role t tokens i
  | prototype {i : Nat} (hfits : t.Fits ⟨i + 1⟩) (htag : t.tag ⟨i + 1⟩ = .prototype) (hprev : t.tag ⟨i⟩ = .released) :
      Role t tokens (i + 1)

theorem Tree.Role.mono {tokens tokens' : List Token} (h : t.Role tokens i) (hsub : tokens ⊆ tokens') : t.Role tokens' i := by
  cases h with
  | plain h => exact .plain h
  | semicolon hnode hx hnext => exact .semicolon hnode (hsub hx) hnext
  | prototype hfits htag hprev => exact .prototype hfits htag hprev

theorem Item.isItem_topNode (it : Item) (h : t.Shows p k it.sapling) : (t.tag (it.topNode k)).isItem = true := by
  rw [topNode, h.tag_top]
  cases it with
  | stmt s =>
    cases s with
    | expr e => cases e <;> rfl
    | _ => rfl
  | _ => rfl

theorem Item.isItem_topNodes (is : List Item) (h : t.ShowsAll p k (is.map sapling)) :
    ∀ n ∈ topNodes k is, (t.tag n).isItem = true := by
  induction is generalizing k with
  | nil => exact List.forall_mem_nil _
  | cons it is ih =>
    rw [List.map_cons, ShowsAll] at h
    rw [topNodes, List.forall_mem_cons]
    exact ⟨it.isItem_topNode h.1, ih h.2⟩

theorem Item.plain_params (h : t.Shows p k (paramsSapling paren params)) (hlow : k ≤ i)
    (hhigh : i < k + 1 + Decl.sizes params) : t.Plain ⟨i⟩ := by
  obtain ⟨hnode, hparams⟩ := shows_params.mp h
  rcases Nat.eq_or_lt_of_le hlow with rfl | hlt
  · exact plain_of_node hnode (Decl.isDecl_topNodes params hparams) nofun
  · exact Decl.plainAll params hparams (.inl rfl) hlt hhigh

theorem Item.tag_params (h : t.Shows p k (paramsSapling paren params)) :
    t.tag ⟨k⟩ = .paramList :=
  congrArg Node.tag (shows_params.mp h).1

theorem Item.role (it : Item) (h : t.Shows p k it.sapling) (hlow : k ≤ i) (hhigh : i < k + it.size) : t.Role it.tokens i := by
  cases it with
  | struct mark tag fields =>
    obtain ⟨hnode, htag, hfields⟩ := shows_struct.mp h
    rw [size_struct] at hhigh
    refine .plain ?_
    obtain rfl | rfl | hlt : i = k ∨ i = k + 1 ∨ k + 2 ≤ i := by omega
    · exact plain_of_node hnode ⟨isLeaf_of_node htag, Decl.isDecl_topNodes fields hfields⟩ nofun
    · exact plain_of_node htag trivial nofun
    · exact Decl.plainAll fields hfields (.inr rfl) hlt (by omega)
  | function d paren params brace body =>
    obtain ⟨hnode, hd, hparams, hbody⟩ := (shows_function rfl rfl rfl).mp h
    rw [size_function] at hhigh
    refine .plain ?_
    by_cases hdecl : i < k + d.size
    · exact d.plain hd (.inl rfl) hlow hdecl
    by_cases hlist : i < k + d.size + 1 + Decl.sizes params
    · exact plain_params hparams (Nat.le_of_not_lt hdecl) hlist
    by_cases hblock : i < k + d.size + 1 + Decl.sizes params + 1 + Stmt.sizes body
    · exact Stmt.plain (.block brace body) hbody (Nat.le_of_not_lt hlist) (by rw [Stmt.size_block]; simp only; omega)
    obtain rfl : i = k + d.size + 1 + Decl.sizes params + 1 + Stmt.sizes body := by omega
    have htag : t.tag ⟨k + d.size + 1 + Decl.sizes params⟩ = .block := congrArg Node.tag (Stmt.shows_block.mp hbody).1
    exact plain_of_node hnode ⟨d.isDecl_topNode hd, tag_params hparams, htag⟩ nofun
  | prototype d paren params semicolon =>
    obtain ⟨hnode, hd, hparams, hspent⟩ := (shows_prototype rfl rfl).mp h
    have htag : t.tag ⟨k + d.size + 1 + Decl.sizes params + 1⟩ = .prototype := congrArg Node.tag hnode
    rw [size_prototype] at hhigh
    by_cases hdecl : i < k + d.size
    · exact .plain (d.plain hd (.inl rfl) hlow hdecl)
    by_cases hlist : i < k + d.size + 1 + Decl.sizes params
    · exact .plain (plain_params hparams (Nat.le_of_not_lt hdecl) hlist)
    obtain rfl | rfl : i = k + d.size + 1 + Decl.sizes params ∨ i = k + d.size + 1 + Decl.sizes params + 1 := by omega
    · exact .semicolon hspent (by simp [tokens]) htag
    · exact .prototype (fits_of_node hnode ⟨d.isDecl_topNode hd, tag_params hparams⟩) htag (congrArg Node.tag hspent)
  | stmt s => exact .plain (s.plain h hlow (by rwa [size_stmt] at hhigh))

theorem Item.roles (is : List Item) (h : t.ShowsAll p k (is.map sapling)) (hlow : k ≤ i) (hhigh : i < k + sizes is) :
    t.Role (Program.tokens is) i := by
  induction is generalizing k with
  | nil =>
    rw [sizes] at hhigh
    omega
  | cons it is ih =>
    rw [List.map_cons, ShowsAll] at h
    rw [sizes] at hhigh
    rw [Program.tokens, List.flatMap_cons]
    by_cases hi : i < k + it.size
    · exact (it.role h.1 hlow hi).mono (List.subset_append_left _ _)
    · have hrole := ih h.2 (Nat.le_of_not_lt hi) (by rwa [← Nat.add_assoc] at hhigh)
      exact hrole.mono (List.subset_append_right _ _)

end Shapes

namespace Tree

variable {t : Tree} {tokens : List Token} {i : Nat} {items : List Item}

/-- The tree of a program: the walk and the links say the same, what was released is one semicolon in front of each
    prototype, and every other node has the children that its tag calls for. -/
structure WellShaped (t : Tree) (tokens : List Token) : Prop where
  tag_root : t.tag .root = .root
  nodup_walk : (t.walk .root).Nodup
  mem_walk : ∀ n, n ∈ t.walk .root ↔ n.index < t.size ∧ t.tag n ≠ .released
  mem_children : ∀ n p, n ∈ t.children p ↔ t.parent n = some p
  released_iff : ∀ n, n.index < t.size → (t.tag n = .released ↔ t.tag ⟨n.index + 1⟩ = .prototype)
  released_free : ∀ n, n.index < t.size → t.tag n = .released →
    t.children n = [] ∧ t.parent n = none ∧ ⟨.punct ';', t.lexeme n⟩ ∈ tokens
  fits : ∀ n ∈ t.walk .root, t.Fits n

theorem mem_children_iff_parent {s : Sapling} (h : t.Shows none 0 s) (hsize : t.size = s.size) (n p : NodeId) :
    n ∈ t.children p ↔ t.parent n = some p := by
  constructor
  · intro hn
    by_cases hp : p.index < t.size
    · exact Shows.parent_of_mem_children s h (Nat.zero_le _) (by omega) hn
    · rw [children, node_eq_absent (Nat.le_of_not_lt hp)] at hn
      cases hn
  · intro hp
    by_cases hn : n.index < t.size
    · rcases Shows.mem_children_of_parent s h (Nat.zero_le _) (by omega) hp with ⟨-, hnone⟩ | hmem
      · cases hnone
      · exact hmem
    · rw [parent, node_eq_absent (Nat.le_of_not_lt hn)] at hp
      cases hp

theorem role_of_shows (h : t.Shows none 0 (Program.sapling items))
    (hsize : t.size = (Program.sapling items).size) (hi : i < t.size) : t.Role (Program.tokens items) i := by
  obtain ⟨hroot, hitems⟩ := shows_root.mp h
  rw [Item.tops_saplings] at hroot
  cases i with
  | zero => exact .plain (plain_of_node hroot (Item.isItem_topNodes items hitems) nofun)
  | succ i =>
    refine Item.roles items hitems (by omega) ?_
    rw [hsize, Program.sapling, Sapling.size, Item.sizes_saplings, Sapling.sizes] at hi
    omega

theorem released_iff_of_roles (hroles : ∀ i < t.size, t.Role tokens i) (hi : i < t.size) :
    t.tag ⟨i⟩ = .released ↔ t.tag ⟨i + 1⟩ = .prototype := by
  constructor
  · intro htag
    cases hroles i hi with
    | plain h => exact absurd htag h.fits.tag_ne
    | semicolon hnode hx hnext => exact hnext
    | prototype hfits => exact absurd htag hfits.tag_ne
  · intro htag
    have hnext : i + 1 < t.size := by
      by_contra hout
      rw [tag, node_eq_absent (Nat.le_of_not_lt hout)] at htag
      cases htag
    cases hroles (i + 1) hnext with
    | plain h => exact absurd htag h.tag_ne
    | semicolon hnode =>
      rw [tag, hnode] at htag
      cases htag
    | prototype hfits htag hprev => exact hprev

theorem released_free_of_role (hrole : t.Role tokens i) (htag : t.tag ⟨i⟩ = .released) :
    t.children ⟨i⟩ = [] ∧ t.parent ⟨i⟩ = none ∧ ⟨.punct ';', t.lexeme ⟨i⟩⟩ ∈ tokens := by
  cases hrole with
  | plain h => exact absurd htag h.fits.tag_ne
  | semicolon hnode hx =>
    rw [children, parent, lexeme, hnode]
    exact ⟨rfl, rfl, hx⟩
  | prototype hfits => exact absurd htag hfits.tag_ne

theorem fits_of_role (hrole : t.Role tokens i) (htag : t.tag ⟨i⟩ ≠ .released) : t.Fits ⟨i⟩ := by
  cases hrole with
  | plain h => exact h.fits
  | semicolon hnode => exact absurd (congrArg Node.tag hnode) htag
  | prototype hfits => exact hfits

theorem wellShaped_of_parse {read : List Token} {root : NodeId} (hread : empty.parse read = (.ok root, t))
    (htokens : Program.tokens (Program.ofTokens read).items ⊆ tokens) : t.WellShaped tokens := by
  obtain ⟨-, h, hsize⟩ := parse_shows hread
  have hsound := (parse_grows hread).2.bears.sound.1
  generalize (Program.ofTokens read).items = items at h hsize hsound htokens
  have hroles (i : Nat) (hi : i < t.size) : t.Role tokens i := (role_of_shows h hsize hi).mono htokens
  have hwalk : t.walk .root = (Program.sapling items).walk 0 := by
    rw [← Shows.walkWithin (Program.sapling items) h (Sapling.depth_le_size _), ← hsize]
    exact (List.flatMap_singleton _ _).symm
  have hmem (n : NodeId) : n ∈ t.walk .root ↔ n.index < t.size ∧ t.tag n ≠ .released := by
    rw [hwalk]
    constructor
    · intro hn
      have hbounds := Sapling.walk_bounds _ hn
      exact ⟨by omega, (Shows.mem_walk_iff _ h hsound hbounds.1 hbounds.2).mp hn⟩
    · rintro ⟨hn, htag⟩
      exact (Shows.mem_walk_iff _ h hsound (Nat.zero_le _) (by omega)).mpr htag
  exact {
    tag_root := congrArg Node.tag (shows_root.mp h).1
    nodup_walk := hwalk ▸ Sapling.nodup_walk 0 _
    mem_walk := hmem
    mem_children := mem_children_iff_parent h hsize
    released_iff := fun n hn => released_iff_of_roles hroles hn
    released_free := fun n hn htag => released_free_of_role (hroles n.index hn) htag
    fits := fun n hn => fits_of_role (hroles n.index ((hmem n).mp hn).1) ((hmem n).mp hn).2 }

/-- A node that a step of building returns: it is live and detached, the nodes that were there before it are as they
    were, and each later one has the children that its tag calls for, unless it was given up for a prototype. -/
structure Fresh (t : Tree) (n : NodeId) (u : Tree) : Prop where
  live : u.tag n ≠ .released
  detached : u.parent n = none
  old : ∀ m, m.index < t.size → u.node m = t.node m
  fits : ∀ m, t.size ≤ m.index → m.index < u.size → u.tag m ≠ .released → u.Fits m

/-- A step of building returns a fresh node, or it breaks off at a token that does not fit. -/
def Adds {α : Type} (t : Tree) : EStateM.Result ParseError Tree (NodeId × α) → Prop
  | .ok (n, _) u => t.Fresh n u
  | .error e _ => ∃ expected found, e = .unexpected expected found

theorem Grows.fresh {u : Tree} {n : NodeId} {s : Sapling} (h : t.Grows s n u)
    (hfits : ∀ m, t.size ≤ m.index → m.index < t.size + s.size → u.tag m ≠ .released → u.Fits m) : t.Fresh n u where
  live := h.bears.shows.1.tag_top_ne h.bears.sound.1 h.top
  detached := h.bears.shows.1.parent_top h.top
  old := h.bears.grown.old
  fits m hlow hhigh := hfits m hlow (h.size_eq ▸ hhigh)

theorem adds_of_alongside {α : Type} {P : Cursor → Prop} {good : α → NodeId → Tree → Prop}
    {p : Except Failure (α × { r : Cursor // P r })}
    {b : EStateM.Result ParseError Tree (NodeId × { r : Cursor // P r })} (h : Alongside good p b)
    (hfresh : ∀ x n u, good x n u → t.Fresh n u) : t.Adds b := by
  cases h with
  | ok h => exact hfresh _ _ _ h
  | error => exact ⟨_, _, rfl⟩

/-- Reading a list that closes with the end of the file makes no link that is refused, and if it comes to the end of the
    list, then the tree is well shaped. -/
theorem wellShaped_parse (hclosed : tokens.getLast?.map Token.kind = some .endOfFile) :
    (∀ e t, empty.parse tokens ≠ (.error (.link e), t)) ∧
      (∀ n t, empty.parse tokens = (.ok n, t) → n = .root ∧ t.WellShaped tokens) ∧
      ∀ (c : Cursor) (t : Tree), t.Adds (Build.item c t) ∧ t.Adds (Build.stmt c t) ∧ (∀ level, t.Adds (Build.expr level c t)) ∧
        t.Adds (Build.decl .declName c t) ∧ t.Adds (Build.decl .field c t) := by
  refine ⟨fun e t h => ?_, fun n t h => ?_, fun c t => ?_⟩
  · obtain ⟨expected, found, he⟩ := unexpected_of_parse h
    cases he
  · obtain ⟨last, hlast, hkind⟩ := Option.map_eq_some_iff.mp hclosed
    have hsub := Program.tokens_sublist ⟨last, List.mem_of_getLast? hlast, hkind⟩ h
    exact ⟨(parse_shows h).1, wellShaped_of_parse h hsub.subset⟩
  · have hdecl (nameTag : Tag) (hname : nameTag = .declName ∨ nameTag = .field) : t.Adds (Build.decl nameTag c t) := by
      have hlive : nameTag ≠ .released := by rcases hname with rfl | rfl <;> decide
      refine adds_of_alongside (Build.along_decl nameTag hlive c t) fun d n u h => h.fresh fun m hlow hhigh _ => ?_
      exact (d.plain h.bears.shows.1 hname hlow (by rwa [Decl.size_sapling] at hhigh)).fits
    refine ⟨?_, ?_, fun level => ?_, hdecl _ (.inl rfl), hdecl _ (.inr rfl)⟩
    · refine adds_of_alongside (Build.along_item c t) fun i n u h => h.fresh fun m hlow hhigh hlive => ?_
      exact fits_of_role (i.role h.bears.shows.1 hlow hhigh) hlive
    · exact adds_of_alongside (Build.along_stmt c t) fun s n u h => h.fresh fun m hlow hhigh _ =>
        (s.plain h.bears.shows.1 hlow hhigh).fits
    · exact adds_of_alongside (Build.along_expr level c t) fun e n u h => h.fresh fun m hlow hhigh _ =>
        (e.plain h.bears.shows.1 hlow hhigh).fits

/-- Two prototypes around a function: their semicolons are the nodes at 4 and 31. -/
theorem wellShaped_parse_prototypes :
    ∃ tokens t, tokens.getLast?.map Token.kind = some .endOfFile ∧ empty.parse tokens = (.ok .root, t) ∧
      (List.range t.size).filter (fun i => t.tag ⟨i⟩ = .released) = [4, 31] ∧ t.WellShaped tokens := by
  have hread : passes ("int f(); int g(int[] a) \x7b if (a[0] > 1) return f(); else return -1; \x7d " ++
      "void h(string s);") (fun s t => s.tokens.getLast?.map Token.kind = some .endOfFile ∧
        (List.range t.size).filter (fun i => t.tag ⟨i⟩ = .released) = [4, 31]) = true := by
    decide +kernel
  obtain ⟨s, n, t, -, h, hread⟩ := exists_of_passes hread
  obtain ⟨hclosed, hreleased⟩ := of_decide_eq_true hread
  obtain ⟨hroot, hshape⟩ := (wellShaped_parse hclosed).2.1 n t h
  exact ⟨s.tokens, t, hclosed, hroot ▸ h, hreleased, hshape⟩

end Tree

end OcCompiler
