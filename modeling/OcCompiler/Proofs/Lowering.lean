import OcCompiler.Oil.OfAnalysis
import OcCompiler.Proofs.WalkAgrees

/-! Emission as a recursion on the program. A construct whose nodes start at number `k` is emitted by `lower c k`; on a
    tree that shows the construct, the walk from node to node emits the same. -/

namespace OcCompiler

open Oil

def Oil.Context.variableAt (c : Context) (n : NodeId) (x : Lexeme) : Variable :=
  ⟨x.text, (c.analysis.decoration n).block⟩

namespace Expr

mutual

def lower (c : Context) (k : Nat) : Expr → Emit Operand
  | .name x => return .var (c.variableAt ⟨k⟩ x)
  | .constant q lexeme => return c.constant q lexeme.text
  | .unary op mark e => do
    let operand ← e.lower c (k + 1)
    c.compute ⟨k⟩ (.unary op (Context.unarySpelling op mark.text) operand)
  | .binary op left mark right => do
    let l ← left.lower c k
    let r ← right.lower c (k + left.size + 1)
    match op with
    | .assign => do
      Emit.write (.assign l r)
      return l
    | op => c.compute ⟨k + left.size⟩ (.binary op mark.text l r)
  | .call callee _ args => do
    let values ← lowerAll c (k + 2) args
    let f : Operand := .var (c.variableAt ⟨k⟩ callee)
    if (← c.typeOf ⟨k + 1⟩).isVoid then
      Emit.write (.perform f values)
      return .nothing
    else c.compute ⟨k + 1⟩ (.call f values)
  | .index base _ subscript => do
    let b ← base.lower c k
    let s ← subscript.lower c (k + base.size + 1)
    c.address ⟨k + base.size⟩ (.element b s)
  | .select object dot field => do
    match (← c.typeOf (object.topNode k)).structTag? with
    | none => Emit.fail (.notStruct dot.loc)
    | some tag =>
      let base ← object.lower c k
      c.address ⟨k + object.size⟩ (.field base tag field.text)
  | .newStruct _ tag => c.compute ⟨k⟩ (.allocate (.constant (.literal .int) "1") (.struct tag.text))
  | .newString _ count => do
    let n ← count.lower c (k + 1)
    c.compute ⟨k⟩ (.allocate n .char)
  | .newArray _ _ count => do
    let n ← count.lower c (k + 2)
    match ← c.typeOf ⟨k + 1⟩ with
    | .array element => c.compute ⟨k + 1⟩ (.allocate n (.ofBase element))
    | other => Emit.fail (.arrayTyped other)

def lowerAll (c : Context) (k : Nat) : List Expr → Emit (List Operand)
  | [] => return []
  | e :: es => do
    let first ← e.lower c k
    let rest ← lowerAll c (k + e.size) es
    return first :: rest

end

end Expr

namespace Stmt

mutual

def lower (c : Context) (k : Nat) : Stmt → Emit Unit
  | .block _ body => lowerAll c (k + 1) body
  | .empty _ => return
  | .varDecl d _ init => do
    let value ← init.lower c (k + d.size + 1)
    let v := c.variableAt ⟨k + 1⟩ d.name
    if v.block = globalBlock then Emit.write (.assign (.var v) value)
    else Emit.write (.declare (.ofType (← c.typeOf ⟨k + 1⟩)) v value)
  | .whileLoop mark cond body => do
    Emit.write (.label ⟨.loop, mark.loc⟩)
    let condition ← cond.lower c (k + 1)
    Emit.write (.jumpUnless condition ⟨.exit, mark.loc⟩)
    body.lower c (k + 1 + cond.size)
    Emit.write (.jump ⟨.loop, mark.loc⟩)
    Emit.write (.label ⟨.exit, mark.loc⟩)
  | .ifThen mark cond yes => do
    let condition ← cond.lower c (k + 1)
    Emit.write (.jumpUnless condition ⟨.join, mark.loc⟩)
    yes.lower c (k + 1 + cond.size)
    Emit.write (.label ⟨.join, mark.loc⟩)
  | .ifElse mark cond yes no => do
    let condition ← cond.lower c (k + 1)
    Emit.write (.jumpUnless condition ⟨.otherwise, mark.loc⟩)
    yes.lower c (k + 1 + cond.size)
    Emit.write (.jump ⟨.join, mark.loc⟩)
    Emit.write (.label ⟨.otherwise, mark.loc⟩)
    no.lower c (k + 1 + cond.size + yes.size)
    Emit.write (.label ⟨.join, mark.loc⟩)
  | .returnValue _ value => do
    let v ← value.lower c (k + 1)
    Emit.write (.returnValue v)
  | .returnVoid _ => Emit.write .returnVoid
  | .expr e => discard (e.lower c k)

def lowerAll (c : Context) (k : Nat) : List Stmt → Emit Unit
  | [] => return
  | s :: ss => do
    s.lower c k
    lowerAll c (k + s.size) ss

end

end Stmt

namespace Decl

def lowerField (c : Context) (k : Nat) (d : Decl) : Except Fault (Storage × String) := do
  return (.ofType (← c.typeOf ⟨k + 1⟩), d.name.text)

def lowerParam (c : Context) (k : Nat) (d : Decl) : Except Fault (Storage × Variable) := do
  return (.ofType (← c.typeOf ⟨k + 1⟩), c.variableAt ⟨k + 1⟩ d.name)

def forEach {α : Type} (f : Nat → Decl → Except Fault α) (k : Nat) : List Decl → Except Fault (List α)
  | [] => return []
  | d :: ds => do
    let first ← f k d
    let rest ← forEach f (k + d.size) ds
    return first :: rest

end Decl

def Item.lowerFunction (c : Context) (k : Nat) (d : Decl) (params : List Decl) (body : List Stmt) (next : Nat) :
    Except Fault (Function × Nat) := do
  let type ← c.typeOf ⟨k + 1⟩
  let lowered ← Decl.forEach (Decl.lowerParam c) (k + d.size + 1) params
  let emitted ← Stmt.lowerAll c (k + d.size + 1 + Decl.sizes params + 1) body next
  return ({ result := .ofType type, name := d.name.text, params := lowered, body := emitted.code }, emitted.next)

@[simp] theorem Oil.Emit.liftM_ok {α : Type} (x : α) : (liftM (Except.ok x : Except Fault α) : Emit α) = pure x := rfl

attribute [local simp] Context.expr Context.stmt Context.named Context.variableAt Expr.lower Stmt.lower Tree.tag Tree.text
  Tree.lexeme Tree.loc Tree.child Tree.children Expr.sapling Expr.saplings Stmt.sapling Stmt.saplings Sapling.leaf Sapling.depth
  Sapling.depths

section Expressions

variable {c : Context}

mutual

theorem expr_eq_lower (e : Expr) {depth k : Nat} {p : Option NodeId} (h : c.tree.Shows p k e.sapling)
    (hdepth : e.sapling.depth ≤ depth) : c.expr depth (e.topNode k) = e.lower c k := by
  obtain ⟨d, rfl⟩ : ∃ d, depth = d + 1 := by
    have hpos := e.live_sapling.depth_pos
    exact ⟨depth - 1, by omega⟩
  cases e with
  | name x | constant q lexeme =>
    have hnode := Sapling.shows_leaf.mp h
    simp [hnode]
  | unary op mark operand =>
    obtain ⟨hnode, hoperand⟩ := Expr.shows_unary.mp h
    simp at hdepth
    simp [hnode, expr_eq_lower operand hoperand (by omega : _ ≤ d)]
  | binary op left mark right =>
    obtain ⟨hnode, hleft, hright⟩ := Expr.shows_binary.mp h
    simp at hdepth
    have ihl := expr_eq_lower left hleft (by omega : _ ≤ d)
    have ihr := expr_eq_lower right hright (by omega : _ ≤ d)
    cases op <;>
      simp [hnode, ihl, ihr]
  | call callee paren args =>
    obtain ⟨hnode, hcallee, hargs⟩ := Expr.shows_call.mp h
    simp at hdepth
    obtain ⟨d, rfl⟩ : ∃ e, d = e + 1 := ⟨d - 1, by omega⟩
    have hname : c.expr (d + 1) ⟨k⟩ = pure (.var (c.variableAt ⟨k⟩ callee)) := by
      simp [hcallee]
    rw [Expr.topNode_call, Context.expr, Expr.lower]
    simp only [Tree.tag, Tree.children, hnode, hname, pure_bind, exprs_eq_lower args hargs (by omega : _ ≤ d + 1)]
  | index base bracket subscript =>
    obtain ⟨hnode, hbase, hsubscript⟩ := Expr.shows_index.mp h
    simp at hdepth
    simp [hnode, expr_eq_lower base hbase (by omega : _ ≤ d), expr_eq_lower subscript hsubscript (by omega : _ ≤ d)]
  | select object dot field =>
    obtain ⟨hnode, hobject, hfield⟩ := Expr.shows_select.mp h
    simp at hdepth
    rw [Expr.topNode_select, Context.expr]
    simp only [Tree.tag, Tree.child, Tree.children, Tree.text, Tree.loc, Tree.lexeme, hnode, hfield, pure_bind,
      List.getElem?_cons_zero, List.getElem?_cons_succ, Oil.Emit.liftM_ok, expr_eq_lower object hobject (by omega : _ ≤ d)]
    rfl
  | newStruct mark tag =>
    obtain ⟨hnode, htag⟩ := Expr.shows_newStruct.mp h
    simp [hnode, htag]
  | newString mark count =>
    obtain ⟨hnode, hcount⟩ := Expr.shows_newString.mp h
    simp at hdepth
    simp [hnode, expr_eq_lower count hcount (by omega : _ ≤ d)]
  | newArray element mark count =>
    obtain ⟨hnode, -, hcount⟩ := Expr.shows_newArray.mp h
    simp at hdepth
    rw [Expr.topNode_newArray, Context.expr]
    simp only [Tree.tag, Tree.child, Tree.children, hnode, pure_bind, List.getElem?_cons_zero, List.getElem?_cons_succ,
      Oil.Emit.liftM_ok, expr_eq_lower count hcount (by omega : _ ≤ d)]
    rfl

theorem exprs_eq_lower (es : List Expr) {depth k : Nat} {p : Option NodeId}
    (h : c.tree.ShowsAll p k (Expr.saplings es)) (hdepth : Sapling.depths (Expr.saplings es) ≤ depth) :
    (Expr.topNodes k es).mapM (fun n => c.expr depth n) = Expr.lowerAll c k es := by
  match es, h with
  | [], _ => simp [Expr.topNodes, Expr.lowerAll]
  | e :: es, ⟨he, hes⟩ =>
    simp at hdepth
    have ihs : (Expr.topNodes (k + e.size) es).mapM (fun n => c.expr depth n) = Expr.lowerAll c (k + e.size) es :=
      exprs_eq_lower es hes (by omega)
    rw [Expr.topNodes, Expr.lowerAll, List.mapM_cons, expr_eq_lower e he (by omega), ihs]

end

end Expressions

section Statements

variable {c : Context}

mutual

theorem stmt_eq_lower (s : Stmt) {depth k : Nat} {p : Option NodeId} (h : c.tree.Shows p k s.sapling)
    (hdepth : s.sapling.depth ≤ depth) : c.stmt depth (s.topNode k) = s.lower c k := by
  obtain ⟨d, rfl⟩ : ∃ d, depth = d + 1 := by
    have hpos := s.live_sapling.depth_pos
    exact ⟨depth - 1, by omega⟩
  cases s with
  | block brace body =>
    obtain ⟨hnode, hbody⟩ := Stmt.shows_block.mp h
    simp at hdepth
    show c.stmt (d + 1) ⟨k⟩ = _
    simp [hnode, stmts_eq_lower body hbody (by omega : _ ≤ d)]
  | empty semicolon | returnVoid mark =>
    have hnode := Sapling.shows_leaf.mp h
    show c.stmt (d + 1) ⟨k⟩ = _
    simp [hnode]
  | varDecl decl equals init =>
    obtain ⟨hnode, hdecl, hinit⟩ := Stmt.shows_varDecl.mp h
    simp at hdepth
    rw [Stmt.topNode_varDecl]
    simp [-Tree.lexeme, hnode, Analysis.declParts_topNode decl hdecl, Analysis.lexeme_name decl hdecl, expr_eq_lower init hinit (by omega : _ ≤ d)]
    rfl
  | whileLoop mark cond body =>
    obtain ⟨hnode, hcond, hbody⟩ := Stmt.shows_whileLoop.mp h
    simp at hdepth
    show c.stmt (d + 1) ⟨k⟩ = _
    simp [hnode, expr_eq_lower cond hcond (by omega : _ ≤ d), stmt_eq_lower body hbody (by omega : _ ≤ d)]
  | ifThen mark cond yes =>
    obtain ⟨hnode, hcond, hyes⟩ := Stmt.shows_ifThen.mp h
    simp at hdepth
    show c.stmt (d + 1) ⟨k⟩ = _
    simp [hnode, expr_eq_lower cond hcond (by omega : _ ≤ d), stmt_eq_lower yes hyes (by omega : _ ≤ d)]
  | ifElse mark cond yes no =>
    obtain ⟨hnode, hcond, hyes, hno⟩ := Stmt.shows_ifElse.mp h
    simp at hdepth
    show c.stmt (d + 1) ⟨k⟩ = _
    simp [hnode, expr_eq_lower cond hcond (by omega : _ ≤ d), stmt_eq_lower yes hyes (by omega : _ ≤ d), stmt_eq_lower no hno (by omega : _ ≤ d)]
  | returnValue mark value =>
    obtain ⟨hnode, hvalue⟩ := Stmt.shows_returnValue.mp h
    simp at hdepth
    show c.stmt (d + 1) ⟨k⟩ = _
    simp [hnode, expr_eq_lower value hvalue (by omega : _ ≤ d)]
  | expr e =>
    have he : c.tree.Shows p k e.sapling := h
    have htag : c.tree.tag (e.topNode k) = e.sapling.tag := he.tag_top
    have hlower := expr_eq_lower e he hdepth
    show c.stmt (d + 1) (e.topNode k) = _
    rw [Context.stmt, Stmt.lower, ← hlower]
    simp only [htag]
    cases e <;> rfl

theorem stmts_eq_lower (ss : List Stmt) {depth k : Nat} {p : Option NodeId}
    (h : c.tree.ShowsAll p k (Stmt.saplings ss)) (hdepth : Sapling.depths (Stmt.saplings ss) ≤ depth) :
    (Stmt.topNodes k ss).forM (fun n => c.stmt depth n) = Stmt.lowerAll c k ss := by
  match ss, h with
  | [], _ => rfl
  | s :: ss, ⟨hs, hss⟩ =>
    simp at hdepth
    have ihs : (Stmt.topNodes (k + s.size) ss).forM (fun n => c.stmt depth n) = Stmt.lowerAll c (k + s.size) ss :=
      stmts_eq_lower ss hss (by omega)
    rw [List.forM_eq_forM] at ihs ⊢
    rw [Stmt.topNodes, Stmt.lowerAll, List.forM_cons, stmt_eq_lower s hs (by omega), ihs]

end

end Statements

section Declarations

variable {c : Context} {p : Option NodeId} {k : Nat}

theorem mapM_decls {α : Type} {tag : Tag} {g : NodeId → Except Fault α} {f : Nat → Decl → Except Fault α}
    (hg : ∀ (k : Nat) (d : Decl), c.tree.Shows p k (d.sapling tag) → g (d.topNode k) = f k d) (ds : List Decl)
    (h : c.tree.ShowsAll p k (ds.map (·.sapling tag))) : (Decl.topNodes k ds).mapM g = Decl.forEach f k ds := by
  induction ds generalizing k with
  | nil => rfl
  | cons d ds ih =>
    obtain ⟨hd, hds⟩ := h
    rw [Decl.size_sapling] at hds
    rw [Decl.topNodes, List.mapM_cons, hg k d hd, ih hds]
    rfl

theorem structRecord_eq_lower {mark tag : Lexeme} {fields : List Decl}
    (h : c.tree.Shows p k (Item.struct mark tag fields).sapling) :
    c.structRecord ⟨k⟩ = do return { tag := tag.text, fields := ← Decl.forEach (Decl.lowerField c) (k + 2) fields } := by
  obtain ⟨hnode, htag, hfields⟩ := Item.shows_struct.mp h
  unfold Context.structRecord
  simp only [Tree.child, Tree.children, Tree.text, Tree.lexeme, hnode, htag, List.getElem?_cons_zero, ok_bind,
    List.tail_cons]
  rw [mapM_decls (fun j d hd => ?_) fields hfields]
  have hname := Analysis.lexeme_name d hd
  rw [Tree.lexeme] at hname
  simp only [Analysis.declParts_topNode d hd, ok_bind, hname]
  rfl

theorem globalVariable_eq_lower {d : Decl} {equals : Lexeme} {init : Expr}
    (h : c.tree.Shows p k (Stmt.varDecl d equals init).sapling) :
    c.globalVariable ⟨k + d.size⟩ = do return { storage := .ofType (← c.typeOf ⟨k + 1⟩), name := d.name.text } := by
  obtain ⟨hnode, hdecl, -⟩ := Stmt.shows_varDecl.mp h
  unfold Context.globalVariable
  simp only [Tree.child, Tree.children, hnode, List.getElem?_cons_zero, ok_bind, Analysis.declParts_topNode d hdecl,
    Tree.text, Analysis.lexeme_name d hdecl]

theorem function_eq_lower {d : Decl} {paren brace : Lexeme} {params : List Decl} {body : List Stmt}
    (h : c.tree.Shows p k (Item.function d paren params brace body).sapling)
    (hdepth : Sapling.depths (Stmt.saplings body) ≤ c.tree.size) (next : Nat) :
    c.function ((Item.function d paren params brace body).topNode k) next = Item.lowerFunction c k d params body next := by
  obtain ⟨hnode, hdecl, hparams, hblock⟩ := (Item.shows_function rfl rfl rfl).mp h
  obtain ⟨hlist, hparams⟩ := Item.shows_params.mp hparams
  obtain ⟨hbrace, hbody⟩ := Stmt.shows_block.mp hblock
  have hmap : (Decl.topNodes (k + d.size + 1) params).mapM (fun decl => do
      let parts ← c.tree.declParts decl
      let type ← c.typeOf parts.name
      return (Storage.ofType type, c.named parts.name)) = Decl.forEach (Decl.lowerParam c) (k + d.size + 1) params := by
    refine mapM_decls (fun j x hx => ?_) params hparams
    simp only [Analysis.declParts_topNode x hx, ok_bind, Context.named, Tree.text, Analysis.lexeme_name x hx]
    rfl
  rw [Item.topNode_function]
  unfold Context.function Item.lowerFunction
  simp only [Tree.child, Tree.children, Tree.text, hnode, hlist, hbrace, List.getElem?_cons_zero, List.getElem?_cons_succ,
    ok_bind, Analysis.declParts_topNode d hdecl, Analysis.lexeme_name d hdecl, hmap, Context.stmts,
    stmts_eq_lower body hbody hdepth]

end Declarations

namespace Item

variable {is : List Item} {i : Item}

def placed (k : Nat) : List Item → List (Nat × Item)
  | [] => []
  | i :: is => (k, i) :: placed (k + i.size) is

def isFunction : Item → Bool
  | .function .. => true
  | _ => false

def stmt? : Item → Option Stmt
  | .stmt s => some s
  | _ => none

/-- The statements outside all functions, with the numbers of their first nodes. -/
def entry (k : Nat) (is : List Item) : List (Nat × Stmt) := (placed k is).filterMap fun p => p.2.stmt?.map (p.1, ·)

theorem mem_entry_iff {k : Nat} {p : Nat × Stmt} :
    p ∈ entry k is ↔ ∃ j i, (j, i) ∈ placed k is ∧ ∃ s, i = .stmt s ∧ p = (j, s) := by
  simp only [entry, List.mem_filterMap, Prod.exists, Option.map_eq_some_iff]
  refine exists_congr fun j => exists_congr fun i => and_congr_right fun _ => exists_congr fun s => ?_
  cases i <;> simp [stmt?, eq_comm]

theorem filterMap_placed {α : Type} {keep : Item → Bool} {g : Item → Option α} (hg : ∀ i, keep i = false → g i = none)
    (k : Nat) (is : List Item) : ((placed k is).filter (keep ·.2)).filterMap (fun p => g p.2) = is.filterMap g := by
  induction is generalizing k with
  | nil => rfl
  | cons i is ih =>
    cases hi : keep i with
    | true => simp [placed, hi, List.filterMap_cons, ih]
    | false => simp [placed, hi, hg i hi, ih]

theorem shows_of_mem_placed {t : Tree} {p : Option NodeId} {k j : Nat}
    (h : t.ShowsAll p k (is.map sapling)) (hi : (j, i) ∈ placed k is) : t.Shows p j i.sapling := by
  induction is generalizing k with
  | nil => cases hi
  | cons x is ih =>
    obtain ⟨hx, hrest⟩ := h
    rcases List.mem_cons.mp hi with heq | hi
    · cases heq
      exact hx
    · exact ih hrest hi

theorem depth_le_of_mem_placed {k j : Nat} (hi : (j, i) ∈ placed k is) :
    i.sapling.depth ≤ Sapling.depths (is.map sapling) := by
  induction is generalizing k with
  | nil => cases hi
  | cons x is ih =>
    rw [List.map_cons, Sapling.depths]
    rcases List.mem_cons.mp hi with heq | hi
    · cases heq
      exact Nat.le_max_left _ _
    · exact Nat.le_trans (ih hi) (Nat.le_max_right _ _)

end Item

theorem entryStmts_eq_lower {c : Context} {p : Option NodeId} {k : Nat} (is : List Item)
    (h : c.tree.ShowsAll p k (is.map Item.sapling)) (hdepth : Sapling.depths (is.map Item.sapling) ≤ c.tree.size) :
    c.stmts ((Item.topNodes k is).filter fun n =>
      c.tree.tag n ≠ .struct ∧ c.tree.tag n ≠ .function ∧ c.tree.tag n ≠ .prototype) =
      (Item.entry k is).forM fun q => q.2.lower c q.1 := by
  unfold Context.stmts
  rw [List.forM_eq_forM, List.forM_eq_forM]
  induction is generalizing k with
  | nil => rfl
  | cons i is ih =>
    obtain ⟨hi, his⟩ := h
    rw [List.map_cons, Sapling.depths] at hdepth
    have ih := ih his (by omega)
    rw [← Item.size] at ih
    have htag := hi.tag_top
    rw [← Item.topNode] at htag
    rw [Item.topNodes, List.filter_cons, htag]
    cases i with
    | struct mark tag fields => exact ih
    | function d paren params brace body => exact ih
    | prototype d paren params semicolon => exact ih
    | stmt s =>
      have hcond : (Item.stmt s).sapling.tag ≠ .struct ∧ (Item.stmt s).sapling.tag ≠ .function ∧
          (Item.stmt s).sapling.tag ≠ .prototype := by
        cases s with
        | expr e => cases e <;> simp [Item.sapling, Stmt.sapling, Expr.sapling, Sapling.leaf, Sapling.tag]
        | _ => simp [Item.sapling, Stmt.sapling, Sapling.leaf, Sapling.tag]
      have hentry : Item.entry k (.stmt s :: is) = (k, s) :: Item.entry (k + (Item.stmt s).size) is := rfl
      have hs : c.stmt c.tree.size ((Item.stmt s).topNode k) = s.lower c k :=
        stmt_eq_lower s hi (Nat.le_trans (Nat.le_max_left _ _) hdepth)
      rw [if_pos (by simpa using hcond), List.forM_cons, hentry, List.forM_cons, hs, ← ih]

end OcCompiler
