import OcCompiler.Proofs.Effect

/-! On a tree that shows a construct, the walk from node to node meets no fault and comes to the same as the recursion
    on the construct. -/

namespace OcCompiler

@[simp] theorem ok_bind {ε α β : Type} (x : α) (f : α → Except ε β) : (Except.ok x >>= f) = f x := rfl

theorem forall₂_of_mapM {ε α β : Type} {f : α → Except ε β} {xs : List α} {ys : List β} (h : xs.mapM f = .ok ys) :
    List.Forall₂ (fun x y => f x = .ok y) xs ys := by
  induction xs generalizing ys with
  | nil =>
    cases h
    exact .nil
  | cons x xs ih =>
    rw [List.mapM_cons] at h
    obtain ⟨y, hy, h⟩ := bind_eq_ok_iff.mp h
    obtain ⟨rest, hrest, h⟩ := bind_eq_ok_iff.mp h
    cases h
    exact .cons hy (ih hrest)

theorem foldlM_congr {m : Type → Type} [Monad m] {α β : Type} {f g : β → α → m β} {xs : List α}
    (h : ∀ x ∈ xs, ∀ b, f b x = g b x) (b : β) : xs.foldlM f b = xs.foldlM g b := by
  induction xs generalizing b with
  | nil => rfl
  | cons x xs ih =>
    rw [List.foldlM_cons, List.foldlM_cons, h x List.mem_cons_self b]
    exact bind_congr fun b => ih (fun y hy => h y (List.mem_cons_of_mem _ hy)) b

namespace Analysis

mutual

theorem visitWithin_eq {t : Tree} {p : Option NodeId} {k d d' : Nat} {n : NodeId} (s : Sapling) (h : t.Shows p k s)
    (hn : s.top k = some n) (hd : s.depth ≤ d) (hd' : s.depth ≤ d') (a : Analysis) :
    visitWithin t d n a = visitWithin t d' n a := by
  match s with
  | .node tag lexeme before after =>
    obtain ⟨hnode, hbefore, hafter⟩ := h
    cases hn
    rw [Sapling.depth] at hd hd'
    obtain ⟨e, rfl⟩ : ∃ e, d = e + 1 := ⟨d - 1, by omega⟩
    obtain ⟨e', rfl⟩ : ∃ e', d' = e' + 1 := ⟨d' - 1, by omega⟩
    have hchildren (m : NodeId) (hm : m ∈ t.children ⟨k + Sapling.sizes before⟩) (a : Analysis) :
        visitWithin t e m a = visitWithin t e' m a := by
      rw [Tree.children, hnode, List.mem_append] at hm
      rcases hm with hm | hm
      · exact visitsWithin_eq before hbefore hm (by omega) (by omega) a
      · exact visitsWithin_eq after hafter hm (by omega) (by omega) a
    simp only [visitWithin, foldlM_congr hchildren]
  | .spent lexeme => cases hn

theorem visitsWithin_eq {t : Tree} {p : Option NodeId} {k d d' : Nat} {n : NodeId} (ss : List Sapling)
    (h : t.ShowsAll p k ss) (hn : n ∈ Sapling.tops k ss) (hd : Sapling.depths ss ≤ d) (hd' : Sapling.depths ss ≤ d')
    (a : Analysis) : visitWithin t d n a = visitWithin t d' n a := by
  match ss, h with
  | s :: ss, ⟨hs, hss⟩ =>
    rw [Sapling.depths] at hd hd'
    rcases List.mem_append.mp hn with hn | hn
    · exact visitWithin_eq s hs (Option.mem_toList.mp hn) (by omega) (by omega) a
    · exact visitsWithin_eq ss hss hn (by omega) (by omega) a

end

def Visits (t : Tree) (n : NodeId) (f : Analysis → Analysis) : Prop :=
  ∃ m, ∀ depth ≥ m, ∀ a, visitWithin t depth n a = .ok (f a)

def VisitsAll (t : Tree) (ns : List NodeId) (f : Analysis → Analysis) : Prop :=
  ∃ m, ∀ depth ≥ m, ∀ a, ns.foldlM (fun a child => visitWithin t depth child a) a = .ok (f a)

def opens : Tag → Bool
  | .struct | .function | .prototype | .block => true
  | _ => false

def settles : Tag → Bool
  | .name | .newStruct | .newArray | .constant (.literal .string) | .varDecl => true
  | _ => false

/-- The nodes with these tags are placed before their children and judged after them, and that is all. -/
def isPlain : Tag → Bool
  | .select => false
  | tag => !opens tag && !settles tag

section Node

variable {t : Tree} {n : NodeId} {x : Node} {e f g h : Analysis → Analysis} {opened : Bool} {v : Analysis → Verdict}

theorem VisitsAll.nil : VisitsAll t [] id := ⟨0, fun _ _ _ => rfl⟩

theorem Visits.cons {ns : List NodeId} (hfirst : Visits t n f) (hrest : VisitsAll t ns g) : VisitsAll t (n :: ns) (g ∘ f) := by
  obtain ⟨m, hfirst⟩ := hfirst
  obtain ⟨m', hrest⟩ := hrest
  refine ⟨max m m', fun depth hdepth a => ?_⟩
  rw [List.foldlM_cons, hfirst depth (by omega) a, ok_bind, hrest depth (by omega) (f a)]
  rfl

theorem enter_of_not_opens (hnode : t.node n = x) (hopens : opens x.tag = false) (a : Analysis) :
    a.enter t n = .ok (false, a.place n x.tag) := by
  have htag : t.tag n = x.tag := by rw [Tree.tag, hnode]
  unfold enter
  rw [htag]
  split
  · simp_all [opens]
  · simp_all [opens]
  · simp_all [opens]
  · simp_all [opens]
  · rfl

theorem settle_of_not_settles (hnode : t.node n = x) (hsettles : settles x.tag = false) (a : Analysis) :
    a.settle t n = .ok a := by
  have htag : t.tag n = x.tag := by rw [Tree.tag, hnode]
  unfold settle
  rw [htag]
  split
  · simp_all [settles]
  · simp_all [settles]
  · simp_all [settles]
  · simp_all [settles]
  · simp_all [settles]
  · rfl

theorem check_eq_ok (hnode : t.node n = x) (hselect : x.tag ≠ .select) {a : Analysis} {v : Verdict}
    (hverdict : a.verdict t n = .ok v) : a.check t n = .ok (a.apply n v) := by
  have htag : t.tag n ≠ .select := by rwa [Tree.tag, hnode]
  rw [check, hverdict, ok_bind, if_neg htag]
  rfl

theorem check_silent (hnode : t.node n = x) (hselect : x.tag ≠ .select) (hverdict : ∀ a, verdict t a n = .ok {}) (a : Analysis) :
    a.check t n = .ok a :=
  check_eq_ok hnode hselect (hverdict a)

theorem Visits.step (hnode : t.node n = x) (henter : ∀ a : Analysis, a.enter t n = .ok (opened, e a))
    (hchildren : VisitsAll t x.children f)
    (hsettle : ∀ a : Analysis, a.settle t n = .ok (g a)) (hcheck : ∀ a : Analysis, a.check t n = .ok (h a)) :
    Visits t n fun a => h (if opened then (g (f (e a))).exitBlock else g (f (e a))) := by
  obtain ⟨m, hchildren⟩ := hchildren
  refine ⟨m + 1, fun depth hdepth a => ?_⟩
  obtain ⟨d, rfl⟩ : ∃ d, depth = d + 1 := ⟨depth - 1, by omega⟩
  have hkids : t.children n = x.children := by rw [Tree.children, hnode]
  rw [visitWithin, henter]
  simp only [ok_bind, hkids, hchildren d (by omega), leave, hsettle]
  exact hcheck _

theorem Visits.congr (hf : Visits t n f) (hg : ∀ a, g a = f a) : Visits t n g :=
  funext hg ▸ hf

theorem Visits.closed (hnode : t.node n = x) (hopens : opens x.tag = false) (hchildren : VisitsAll t x.children f)
    (hsettle : ∀ a : Analysis, a.settle t n = .ok (g a)) (hcheck : ∀ a : Analysis, a.check t n = .ok (h a)) :
    Visits t n fun a => h (g (f (a.place n x.tag))) :=
  .step hnode (enter_of_not_opens hnode hopens) hchildren hsettle hcheck

theorem Visits.judged (hnode : t.node n = x) (hplain : isPlain x.tag = true) (hchildren : VisitsAll t x.children f)
    (hverdict : ∀ a : Analysis, a.verdict t n = .ok (v a)) :
    Visits t n fun a => (f (a.place n x.tag)).apply n (v (f (a.place n x.tag))) := by
  have hselect : x.tag ≠ .select := by
    intro h
    rw [h] at hplain
    cases hplain
  have htag : opens x.tag = false ∧ settles x.tag = false := by
    unfold isPlain at hplain
    split at hplain
    · cases hplain
    · simpa using hplain
  exact .closed hnode htag.1 hchildren (settle_of_not_settles hnode htag.2) fun a => check_eq_ok hnode hselect (hverdict a)

theorem Visits.placed (hnode : t.node n = x) (hplain : isPlain x.tag = true) (hchildren : VisitsAll t x.children f)
    (hverdict : ∀ a, verdict t a n = .ok {}) : Visits t n fun a => f (a.place n x.tag) :=
  .judged hnode hplain hchildren hverdict

theorem Visits.leaf {tag : Tag} {lexeme : Lexeme} {parent : Option NodeId} (hnode : t.node n = ⟨tag, lexeme, [], parent⟩)
    (hplain : isPlain tag = true) (hverdict : ∀ a, verdict t a n = .ok {}) : Visits t n (·.place n tag) :=
  .placed hnode hplain .nil hverdict

end Node

attribute [local simp] verdict Tree.tag Tree.lexeme Tree.text Tree.child Tree.children

section Expressions

variable {t : Tree} {k : Nat} {p : Option NodeId}

theorem visits_name {x : Lexeme} (hnode : t.node ⟨k⟩ = ⟨.name, x, [], p⟩) :
    Visits t ⟨k⟩ fun a => (a.place ⟨k⟩ .name).refer ⟨k⟩ x := by
  have hsettle (a : Analysis) : a.settle t ⟨k⟩ = .ok (a.refer ⟨k⟩ x) := by
    simp [settle, reference, hnode]
  exact .closed hnode rfl .nil hsettle (check_silent hnode (by simp) (by simp [hnode]))

theorem baseType?_tag (b : TypeName) : b.tag.baseType? b.lexeme.text = some b.base := by
  cases b <;> rfl

theorem visits_base {b : TypeName} {n : NodeId} (hnode : t.node n = ⟨b.tag, b.lexeme, [], p⟩) : Visits t n (·.place n b.tag) := by
  cases b with
  | scalar | struct => exact .leaf hnode rfl (by simp [hnode, TypeName.tag])

mutual

theorem visits_expr (e : Expr) {k : Nat} {p : Option NodeId} (h : t.Shows p k e.sapling) :
    Visits t (e.topNode k) (e.analyze k) := by
  cases e with
  | name x =>
    exact visits_name (Sapling.shows_leaf.mp h)
  | constant c lexeme =>
    have hnode := Sapling.shows_leaf.mp h
    have hsettle (a : Analysis) : a.settle t ⟨k⟩ =
        .ok (if c = .literal .string then { a with queues.strings := a.queues.strings.push ⟨k⟩ } else a) := by
      simp only [settle, Tree.tag, hnode]
      split <;> simp_all
    exact (Visits.closed hnode rfl .nil hsettle (check_silent hnode (by simp) (by simp [hnode]))).congr fun a => by rw [Expr.analyze]; rfl
  | unary op mark e =>
    obtain ⟨hnode, he⟩ := Expr.shows_unary.mp h
    exact (Visits.judged (v := (·.operandVerdict (Typing.operand op) (e.topNode (k + 1)) mark)) hnode rfl
      ((visits_expr e he).cons .nil) (by simp [hnode])).congr fun a => by rw [Expr.analyze]; rfl
  | binary op left mark right =>
    obtain ⟨hnode, hleft, hright⟩ := Expr.shows_binary.mp h
    rw [Expr.topNode_binary]
    exact (Visits.judged (v := (·.binaryVerdict op (left.topNode k) (right.topNode (k + left.size + 1)) mark)) hnode rfl
      ((visits_expr left hleft).cons ((visits_expr right hright).cons .nil))
      (by simp [hnode])).congr fun a => by rw [Expr.analyze]; rfl
  | call callee paren args =>
    obtain ⟨hnode, hcallee, hargs⟩ := Expr.shows_call.mp h
    exact (Visits.judged (v := (·.callVerdict ⟨k⟩ (Expr.topNodes (k + 2) args) callee)) hnode rfl
      ((visits_name hcallee).cons (visits_exprs args hargs))
      (by simp [hnode, hcallee])).congr fun a => by rw [Expr.analyze]; rfl
  | index base bracket subscript =>
    obtain ⟨hnode, hbase, hsubscript⟩ := Expr.shows_index.mp h
    rw [Expr.topNode_index]
    exact (Visits.judged (v := (·.indexVerdict (base.topNode k) (subscript.topNode (k + base.size + 1)) bracket)) hnode rfl
      ((visits_expr base hbase).cons ((visits_expr subscript hsubscript).cons .nil))
      (by simp [hnode])).congr fun a => by rw [Expr.analyze]; rfl
  | select object dot field =>
    obtain ⟨hnode, hobject, hfield⟩ := Expr.shows_select.mp h
    have hcheck (a : Analysis) : a.check t ⟨k + object.size⟩ = .ok ((a.markField ⟨k + object.size + 1⟩).apply
        ⟨k + object.size⟩ (a.selectVerdict (object.topNode k) dot field)) := by
      simp [check, hnode, hfield, Except.map]
    have hleaf := Visits.leaf hfield rfl (by simp [hfield])
    rw [Expr.topNode_select]
    refine (Visits.closed hnode rfl ((visits_expr object hobject).cons (hleaf.cons .nil)) (settle_of_not_settles hnode rfl) hcheck).congr fun a => by rw [Expr.analyze]; rfl
  | newStruct mark tag =>
    obtain ⟨hnode, htag⟩ := Expr.shows_newStruct.mp h
    have hsettle (a : Analysis) : a.settle t ⟨k⟩ =
        .ok ((a.useStruct ⟨k + 1⟩ tag false).setAttrs ⟨k⟩ (.typed (.struct tag.text) { vreg := true })) := by
      simp [settle, hnode, htag]
    exact (Visits.closed hnode rfl ((visits_base (b := .struct tag) htag).cons .nil) hsettle
      (check_silent hnode (by simp) (by simp [hnode]))).congr fun a => by rw [Expr.analyze]; rfl
  | newString mark count =>
    obtain ⟨hnode, hcount⟩ := Expr.shows_newString.mp h
    exact (Visits.judged (v := (·.operandVerdict .int (count.topNode (k + 1)) mark)) hnode rfl
      ((visits_expr count hcount).cons .nil) (by simp [hnode])).congr fun a => by rw [Expr.analyze]; rfl
  | newArray element mark count =>
    obtain ⟨hnode, helement, hcount⟩ := Expr.shows_newArray.mp h
    have hverdict (a : Analysis) : a.verdict t ⟨k + 1⟩ =
        .ok (a.newArrayVerdict element.base (count.topNode (k + 2)) mark) := by
      simp [hnode, helement, baseType?_tag]
      rfl
    have hsettle (a : Analysis) : a.settle t ⟨k + 1⟩ = .ok (match element with
        | .struct tag => a.useStruct ⟨k⟩ tag false
        | .scalar _ _ => a) := by
      cases element <;>
        simp [settle, hnode, helement, TypeName.tag, TypeName.lexeme]
    refine (Visits.closed hnode rfl ((visits_base helement).cons ((visits_expr count hcount).cons .nil)) hsettle
      fun a => check_eq_ok hnode (by simp) (hverdict a)).congr fun a => ?_
    cases element with
    | scalar | struct => rw [Expr.analyze]; rfl

theorem visits_exprs (es : List Expr) {k : Nat} {p : Option NodeId} (h : t.ShowsAll p k (Expr.saplings es)) :
    VisitsAll t (Expr.topNodes k es) (Expr.analyzeAll k es) := by
  match es, h with
  | [], _ => exact .nil
  | e :: es, ⟨he, hes⟩ =>
    exact (visits_expr e he).cons (visits_exprs es hes)

end

end Expressions

section Declarations

variable {t : Tree} {k : Nat} {p : Option NodeId} {nameTag : Tag}

theorem declParts_topNode (d : Decl) (h : t.Shows p k (d.sapling nameTag)) :
    t.declParts (d.topNode k) = .ok ⟨⟨k⟩, ⟨k + 1⟩, d.mark.isSome⟩ := by
  obtain ⟨base, mark, name⟩ := d
  cases mark with
  | some mark =>
    obtain ⟨hnode, hbase, hname⟩ := Decl.shows_marked.mp h
    simp [Tree.declParts, Decl.topNode, hnode]
  | none =>
    obtain ⟨hnode, hname⟩ := Decl.shows_bare.mp h
    have hmark : base.tag ≠ .array := by cases base <;> simp [TypeName.tag]
    simp [Tree.declParts, Decl.topNode, hnode, hmark]

theorem lexeme_name (d : Decl) (h : t.Shows p k (d.sapling nameTag)) : t.lexeme ⟨k + 1⟩ = d.name := by
  obtain ⟨base, mark, name⟩ := d
  cases mark with
  | some mark => rw [Tree.lexeme, (Decl.shows_marked.mp h).2.2]
  | none => rw [Tree.lexeme, (Decl.shows_bare.mp h).2]

theorem declaration_topNode (d : Decl) (h : t.Shows p k (d.sapling nameTag)) :
    t.declaration (d.topNode k) = .ok (d.declaration k) := by
  have hbase : t.tag ⟨k⟩ = d.base.tag ∧ t.lexeme ⟨k⟩ = d.base.lexeme := by
    obtain ⟨base, mark, name⟩ := d
    cases mark with
    | some mark => simp [(Decl.shows_marked.mp h).2.1]
    | none => simp [(Decl.shows_bare.mp h).1]
  simp only [Tree.declaration, declParts_topNode d h, ok_bind, Tree.text, hbase, baseType?_tag, lexeme_name d h]
  rfl

theorem declarations_topNodes (ds : List Decl) (h : t.ShowsAll p k (ds.map (·.sapling nameTag))) :
    (Decl.topNodes k ds).mapM t.declaration = .ok (Decl.declarations k ds) := by
  induction ds generalizing k with
  | nil => rfl
  | cons d ds ih =>
    obtain ⟨hd, hds⟩ := h
    rw [Decl.size_sapling] at hds
    simp only [Decl.topNodes, List.mapM_cons, declaration_topNode d hd, ih hds, ok_bind]
    rfl

theorem visits_decl (d : Decl) (h : t.Shows p k (d.sapling nameTag)) (hname : nameTag = .declName ∨ nameTag = .field) :
    Visits t (d.topNode k) (d.place k nameTag) := by
  have hleaf {q : NodeId} (hq : t.node ⟨k + 1⟩ = ⟨nameTag, d.name, [], some q⟩) : Visits t ⟨k + 1⟩ (·.place ⟨k + 1⟩ nameTag) := by
    rcases hname with rfl | rfl
    · exact .leaf hq rfl (by simp [hq])
    · exact .leaf hq rfl (by simp [hq])
  obtain ⟨base, mark, name⟩ := d
  cases mark with
  | some mark =>
    obtain ⟨hnode, hbase, hq⟩ := Decl.shows_marked.mp h
    exact .placed hnode rfl ((visits_base hbase).cons ((hleaf hq).cons .nil)) (by simp [hnode])
  | none =>
    obtain ⟨hnode, hq⟩ := Decl.shows_bare.mp h
    have hplain : isPlain base.tag = true := by cases base <;> rfl
    refine .placed hnode hplain ((hleaf hq).cons .nil) fun a => ?_
    cases base <;> simp [hnode, TypeName.tag]

theorem visits_decls (ds : List Decl) (h : t.ShowsAll p k (ds.map (·.sapling nameTag)))
    (hname : nameTag = .declName ∨ nameTag = .field) : VisitsAll t (Decl.topNodes k ds) (Decl.placeAll k nameTag ds) := by
  induction ds generalizing k with
  | nil => exact .nil
  | cons d ds ih =>
    obtain ⟨hd, hds⟩ := h
    rw [Decl.size_sapling] at hds
    exact (visits_decl d hd hname).cons (ih hds)

end Declarations

section Statements

variable {t : Tree} {k : Nat} {p : Option NodeId}

def IsLoose (t : Tree) (p : Option NodeId) : Prop := p.any (t.tag · = .function) = false

theorem isLoose_some {n : NodeId} {x : Node} (hnode : t.node n = x) (htag : x.tag ≠ .function) : IsLoose t (some n) := by
  simp [IsLoose, hnode, htag]

theorem visits_body {brace : Lexeme} {body : List Stmt} {q : NodeId}
    (hnode : t.node ⟨k⟩ = ⟨.block, brace, Stmt.topNodes (k + 1) body, some q⟩) (hq : t.tag q = .function)
    (hbody : VisitsAll t (Stmt.topNodes (k + 1) body) (Stmt.analyzeAll (k + 1) body)) :
    Visits t ⟨k⟩ fun a => Stmt.analyzeAll (k + 1) body (a.setBlock ⟨k⟩ a.symbols.currentBlock) := by
  have henter (a : Analysis) : a.enter t ⟨k⟩ = .ok (false, a.setBlock ⟨k⟩ a.symbols.currentBlock) := by
    simp only [Tree.tag] at hq
    simp [enter, isFunctionBody, Tree.parent, hnode, hq]
  exact .step hnode henter hbody (settle_of_not_settles hnode rfl) (check_silent hnode (by simp) (by simp [hnode]))

theorem verdict_of_condition {tag : Tag} {mark : Lexeme} {c : NodeId} {cs : List NodeId} (hnode : t.node ⟨k⟩ = ⟨tag, mark, c :: cs, p⟩)
    (htag : tag = .whileLoop ∨ tag = .ifThen ∨ tag = .ifElse) (a : Analysis) :
    a.verdict t ⟨k⟩ = .ok (a.operandVerdict .bool c mark) := by
  rcases htag with rfl | rfl | rfl <;> simp [hnode]

mutual

theorem visits_stmt (s : Stmt) {k : Nat} {p : Option NodeId} (h : t.Shows p k s.sapling) (hp : IsLoose t p) :
    Visits t (s.topNode k) (s.analyze k) := by
  cases s with
  | block brace body =>
    obtain ⟨hnode, hbody⟩ := Stmt.shows_block.mp h
    have henter (a : Analysis) : a.enter t ⟨k⟩ = .ok (true, a.enterBlock.2.setBlock ⟨k⟩ a.enterBlock.1) := by
      simp only [IsLoose, Tree.tag] at hp
      simp [enter, isFunctionBody, Tree.parent, hnode, hp]
    exact (Visits.step hnode henter (visits_stmts body hbody (isLoose_some hnode (by simp)))
      (settle_of_not_settles hnode rfl) (check_silent hnode (by simp) (by simp [hnode]))).congr fun a => by rw [Stmt.analyze]; rfl
  | empty semicolon | returnVoid mark =>
    have hnode := Sapling.shows_leaf.mp h
    exact (Visits.leaf hnode rfl (by simp [hnode])).congr fun a => by rw [Stmt.analyze]
  | varDecl d equals init =>
    obtain ⟨hnode, hd, hinit⟩ := Stmt.shows_varDecl.mp h
    have hsettle (a : Analysis) : a.settle t ⟨k + d.size⟩ =
        .ok ((a.define (d.declaration k) { var := true, lvalue := true }).2.queueGlobal ⟨k + d.size⟩) := by
      simp only [settle, Tree.tag, Tree.child, Tree.children, hnode, List.getElem?_cons_zero, ok_bind,
        declaration_topNode d hd]
      rfl
    have hverdict (a : Analysis) : a.verdict t ⟨k + d.size⟩ =
        .ok (a.variableVerdict ⟨k + 1⟩ (init.topNode (k + d.size + 1)) d.name equals) := by
      simp only [verdict, Tree.tag, Tree.child, Tree.children, hnode, List.getElem?_cons_zero, List.getElem?_cons_succ,
        ok_bind, declParts_topNode d hd, lexeme_name d hd]
      simp only [Tree.lexeme, hnode]
      rfl
    rw [Stmt.topNode_varDecl]
    exact (Visits.closed hnode rfl ((visits_decl d hd (.inl rfl)).cons ((visits_expr init hinit).cons .nil)) hsettle
      fun a => check_eq_ok hnode (by simp) (hverdict a)).congr fun a => by rw [Stmt.analyze]; rfl
  | whileLoop mark cond body =>
    obtain ⟨hnode, hcond, hbody⟩ := Stmt.shows_whileLoop.mp h
    have hbody := visits_stmt body hbody (isLoose_some hnode (by simp))
    exact (Visits.judged hnode rfl ((visits_expr cond hcond).cons (hbody.cons .nil))
      (verdict_of_condition hnode (by simp))).congr fun a => by rw [Stmt.analyze]; rfl
  | ifThen mark cond yes =>
    obtain ⟨hnode, hcond, hyes⟩ := Stmt.shows_ifThen.mp h
    have hyes := visits_stmt yes hyes (isLoose_some hnode (by simp))
    exact (Visits.judged hnode rfl ((visits_expr cond hcond).cons (hyes.cons .nil))
      (verdict_of_condition hnode (by simp))).congr fun a => by rw [Stmt.analyze]; rfl
  | ifElse mark cond yes no =>
    obtain ⟨hnode, hcond, hyes, hno⟩ := Stmt.shows_ifElse.mp h
    have hyes := visits_stmt yes hyes (isLoose_some hnode (by simp))
    have hno := visits_stmt no hno (isLoose_some hnode (by simp))
    exact (Visits.judged hnode rfl ((visits_expr cond hcond).cons (hyes.cons (hno.cons .nil)))
      (verdict_of_condition hnode (by simp))).congr fun a => by rw [Stmt.analyze]; rfl
  | returnValue mark value =>
    obtain ⟨hnode, hvalue⟩ := Stmt.shows_returnValue.mp h
    exact (Visits.placed hnode rfl ((visits_expr value hvalue).cons .nil)
      (by simp [hnode])).congr fun a => by rw [Stmt.analyze]; rfl
  | expr e => exact (visits_expr e h).congr fun a => by rw [Stmt.analyze]

theorem visits_stmts (ss : List Stmt) {k : Nat} {p : Option NodeId} (h : t.ShowsAll p k (Stmt.saplings ss))
    (hp : IsLoose t p) : VisitsAll t (Stmt.topNodes k ss) (Stmt.analyzeAll k ss) := by
  match ss, h with
  | [], _ => exact .nil
  | s :: ss, ⟨hs, hss⟩ => exact (visits_stmt s hs hp).cons (visits_stmts ss hss hp)

end

end Statements

section Returns

variable {t : Tree} {n : NodeId} {x : Node}

def isReturn (t : Tree) (n : NodeId) : Bool := t.tag n = .returnValue ∨ t.tag n = .returnVoid

/-- The return statements of subtrees are read off without fault and are `sites`, once no path is cut off. -/
def Returns (t : Tree) (ns : List NodeId) (sites : List ReturnSite) : Prop :=
  ∃ m, ∀ depth ≥ m, ((ns.flatMap (t.walkWithin depth)).filter (isReturn t)).mapM (returnSite t) = .ok sites

theorem Returns.nil : Returns t [] [] := ⟨0, fun _ _ => rfl⟩

theorem Returns.cons {ns : List NodeId} {sites sites' : List ReturnSite} (h : Returns t [n] sites) (h' : Returns t ns sites') :
    Returns t (n :: ns) (sites ++ sites') := by
  obtain ⟨m, h⟩ := h
  obtain ⟨m', h'⟩ := h'
  refine ⟨max m m', fun depth hdepth => ?_⟩
  have h := h depth (by omega)
  rw [List.flatMap_singleton] at h
  rw [List.flatMap_cons, List.filter_append, List.mapM_append, h, h' depth (by omega)]
  rfl

theorem Returns.node {own sites : List ReturnSite} (hnode : t.node n = x)
    (hown : ([n].filter (isReturn t)).mapM (returnSite t) = .ok own) (h : Returns t x.children sites) :
    Returns t [n] (own ++ sites) := by
  obtain ⟨m, h⟩ := h
  refine ⟨m + 1, fun depth hdepth => ?_⟩
  obtain ⟨d, rfl⟩ : ∃ d, depth = d + 1 := ⟨depth - 1, by omega⟩
  rw [List.flatMap_singleton, Tree.walkWithin, Tree.children, hnode, ← List.singleton_append, List.filter_append,
    List.mapM_append, hown, h d (by omega)]
  rfl

theorem Returns.below {sites : List ReturnSite} (hnode : t.node n = x) (htag : x.tag ≠ .returnValue ∧ x.tag ≠ .returnVoid)
    (h : Returns t x.children sites) : Returns t [n] sites := by
  have hown : ([n].filter (isReturn t)).mapM (returnSite t) = .ok [] := by
    simp [isReturn, hnode, htag]
    rfl
  exact .node hnode hown h

mutual

theorem returns_expr (e : Expr) {k : Nat} {p : Option NodeId} (h : t.Shows p k e.sapling) :
    Returns t [e.topNode k] [] := by
  cases e with
  | name | constant => exact .below (Sapling.shows_leaf.mp h) (by simp) .nil
  | unary op mark operand =>
    obtain ⟨hnode, hoperand⟩ := Expr.shows_unary.mp h
    exact .below hnode (by simp) (returns_expr operand hoperand)
  | binary op left mark right =>
    obtain ⟨hnode, hleft, hright⟩ := Expr.shows_binary.mp h
    exact .below hnode (by simp) ((returns_expr left hleft).cons (returns_expr right hright))
  | call callee paren args =>
    obtain ⟨hnode, hcallee, hargs⟩ := Expr.shows_call.mp h
    exact .below hnode (by simp) ((Returns.below hcallee (by simp) .nil).cons (returns_exprs args hargs))
  | index base bracket subscript =>
    obtain ⟨hnode, hbase, hsubscript⟩ := Expr.shows_index.mp h
    exact .below hnode (by simp) ((returns_expr base hbase).cons (returns_expr subscript hsubscript))
  | select object dot field =>
    obtain ⟨hnode, hobject, hfield⟩ := Expr.shows_select.mp h
    exact .below hnode (by simp) ((returns_expr object hobject).cons (.below hfield (by simp) .nil))
  | newStruct mark tag =>
    obtain ⟨hnode, htag⟩ := Expr.shows_newStruct.mp h
    exact .below hnode (by simp) (.below htag (by simp) .nil)
  | newString mark count =>
    obtain ⟨hnode, hcount⟩ := Expr.shows_newString.mp h
    exact .below hnode (by simp) (returns_expr count hcount)
  | newArray element mark count =>
    obtain ⟨hnode, helement, hcount⟩ := Expr.shows_newArray.mp h
    exact .below hnode (by simp)
      ((Returns.below helement (by cases element <;> simp [TypeName.tag]) .nil).cons (returns_expr count hcount))

theorem returns_exprs (es : List Expr) {k : Nat} {p : Option NodeId} (h : t.ShowsAll p k (Expr.saplings es)) :
    Returns t (Expr.topNodes k es) [] := by
  match es, h with
  | [], _ => exact .nil
  | e :: es, ⟨he, hes⟩ => exact (returns_expr e he).cons (returns_exprs es hes)

end

theorem returns_decl (d : Decl) {k : Nat} {p : Option NodeId} (h : t.Shows p k (d.sapling .declName)) :
    Returns t [d.topNode k] [] := by
  obtain ⟨base, mark, name⟩ := d
  have hbase : base.tag ≠ .returnValue ∧ base.tag ≠ .returnVoid := by cases base <;> simp [TypeName.tag]
  cases mark with
  | some mark =>
    obtain ⟨hnode, hb, hname⟩ := Decl.shows_marked.mp h
    exact .below hnode (by simp) ((Returns.below hb hbase .nil).cons (.below hname (by simp) .nil))
  | none =>
    obtain ⟨hnode, hname⟩ := Decl.shows_bare.mp h
    exact .below hnode hbase (.below hname (by simp) .nil)

mutual

theorem returns_stmt (s : Stmt) {k : Nat} {p : Option NodeId} (h : t.Shows p k s.sapling) :
    Returns t [s.topNode k] (s.returns k) := by
  cases s with
  | block brace body =>
    obtain ⟨hnode, hbody⟩ := Stmt.shows_block.mp h
    rw [Stmt.returns]
    exact .below hnode (by simp) (returns_stmts body hbody)
  | empty semicolon => exact .below (Sapling.shows_leaf.mp h) (by simp) .nil
  | varDecl d equals init =>
    obtain ⟨hnode, hd, hinit⟩ := Stmt.shows_varDecl.mp h
    rw [Stmt.topNode_varDecl, Stmt.returns]
    exact .below hnode (by simp) ((returns_decl d hd).cons (returns_expr init hinit))
  | whileLoop mark cond body =>
    obtain ⟨hnode, hcond, hbody⟩ := Stmt.shows_whileLoop.mp h
    rw [Stmt.returns]
    exact .below hnode (by simp) ((returns_expr cond hcond).cons (returns_stmt body hbody))
  | ifThen mark cond yes =>
    obtain ⟨hnode, hcond, hyes⟩ := Stmt.shows_ifThen.mp h
    rw [Stmt.returns]
    exact .below hnode (by simp) ((returns_expr cond hcond).cons (returns_stmt yes hyes))
  | ifElse mark cond yes no =>
    obtain ⟨hnode, hcond, hyes, hno⟩ := Stmt.shows_ifElse.mp h
    rw [Stmt.returns]
    exact .below hnode (by simp) ((returns_expr cond hcond).cons ((returns_stmt yes hyes).cons (returns_stmt no hno)))
  | returnValue mark value =>
    obtain ⟨hnode, hvalue⟩ := Stmt.shows_returnValue.mp h
    have hown : (List.filter (isReturn t) [⟨k⟩]).mapM (returnSite t) = .ok [⟨mark, some (value.topNode (k + 1))⟩] := by
      simp [isReturn, returnSite, hnode]
    rw [Stmt.returns]
    exact .node hnode hown (returns_expr value hvalue)
  | returnVoid mark =>
    have hnode := Sapling.shows_leaf.mp h
    have hown : (List.filter (isReturn t) [⟨k⟩]).mapM (returnSite t) = .ok [⟨mark, none⟩] := by
      simp [isReturn, returnSite, hnode]
    rw [Stmt.returns]
    exact .node hnode hown .nil
  | expr e => exact returns_expr e h

theorem returns_stmts (ss : List Stmt) {k : Nat} {p : Option NodeId} (h : t.ShowsAll p k (Stmt.saplings ss)) :
    Returns t (Stmt.topNodes k ss) (Stmt.returnsAll k ss) := by
  match ss, h with
  | [], _ => exact .nil
  | s :: ss, ⟨hs, hss⟩ => exact (returns_stmt s hs).cons (returns_stmts ss hss)

end

end Returns

section Items

variable {t : Tree} {k : Nat} {p : Option NodeId}
variable {params : List Decl} {d : Decl} {paren tag : Lexeme} {n : NodeId} {rest : List NodeId}

theorem tag_topNode_varDecl (s : Stmt) (h : t.Shows p k s.sapling) :
    decide (t.tag (s.topNode k) = .varDecl) = s.isVarDecl := by
  rw [Stmt.topNode, h.tag_top]
  cases s with
  | expr e => cases e <;> simp [Stmt.sapling, Expr.sapling, Sapling.leaf, Sapling.tag, Stmt.isVarDecl]
  | _ => simp [Stmt.sapling, Sapling.leaf, Sapling.tag, Stmt.isVarDecl]

theorem any_varDecl (ss : List Stmt) (h : t.ShowsAll p k (Stmt.saplings ss)) :
    (Stmt.topNodes k ss).any (t.tag · = .varDecl) = ss.any Stmt.isVarDecl := by
  induction ss generalizing k with
  | nil => rfl
  | cons s ss ih =>
    obtain ⟨hs, hss⟩ := h
    rw [Stmt.topNodes, List.any_cons, List.any_cons, tag_topNode_varDecl s hs]
    exact congrArg _ (ih hss)

theorem isComplete_addField {a : Analysis} {struct : SymbolId} (hin : struct.index < a.symbols.size)
    (hopen : (a.symbols.get struct).isComplete = true) (level : Nat) (field : SymbolId) :
    struct.index < (a.addField struct level field).symbols.size ∧
      ((a.addField struct level field).symbols.get struct).isComplete = true := by
  unfold addField
  dsimp only
  split
  · exact ⟨hin, hopen⟩
  · refine ⟨(SymbolTable.size_modify _ _ _).symm ▸ hin, ?_⟩
    show ((SymbolTable.modify _ struct _).get struct).isComplete = true
    rw [SymbolTable.get_modify hin, if_pos rfl]
    rfl

theorem foldlM_defineField (ds : List Decl) (h : t.ShowsAll p k (ds.map (·.sapling .field))) (struct : SymbolId)
    (name : String) (level : Nat) (a : Analysis) (hin : struct.index < a.symbols.size)
    (hopen : (a.symbols.get struct).isComplete = true) :
    (Decl.topNodes k ds).foldlM (defineField t struct name level) a =
      .ok (defineFields struct level (Decl.declarations k ds) a) := by
  induction ds generalizing k a with
  | nil => rfl
  | cons d ds ih =>
    obtain ⟨hd, hds⟩ := h
    rw [Decl.size_sapling] at hds
    have hext := a.define_extends (d.declaration k) { field := true }
    have hin' := Nat.lt_of_lt_of_le hin hext.size
    have hopen' : ((a.define (d.declaration k) { field := true }).2.symbols.get struct).isComplete = true := by
      rw [hext.get struct hin]
      exact hopen
    obtain ⟨hin'', hopen''⟩ := isComplete_addField hin' hopen' level (a.define (d.declaration k) { field := true }).1.symbol
    rw [Decl.topNodes, List.foldlM_cons, defineField, declaration_topNode d hd]
    simp only [ok_bind, hopen', if_true]
    exact ih hds _ hin'' hopen''

theorem isComplete_openStruct {a b : Analysis} {id : SymbolId}
    (hin : (a.symbols.structOrPlaceholder tag).1.index < (a.symbols.structOrPlaceholder tag).2.size)
    (h : a.openStruct n tag = (some id, b)) : id.index < b.symbols.size ∧ (b.symbols.get id).isComplete = true := by
  unfold openStruct at h
  dsimp only at h
  split at h
  · cases h
  · cases h
    refine ⟨(SymbolTable.size_modify _ _ _).symm ▸ hin, ?_⟩
    show ((SymbolTable.modify _ _ _).get _).isComplete = true
    rw [SymbolTable.get_modify hin, if_pos rfl]
    rfl

theorem visits_struct {mark : Lexeme} {fields : List Decl} (h : t.Shows p k (Item.struct mark tag fields).sapling) :
    ∃ m, ∀ depth ≥ m, ∀ a : Analysis, a.symbols.Sound →
      visitWithin t depth ⟨k⟩ a = .ok ((Item.struct mark tag fields).analyze k a) := by
  obtain ⟨hnode, htag, hfields⟩ := Item.shows_struct.mp h
  have hkids : t.children ⟨k⟩ = ⟨k + 1⟩ :: Decl.topNodes (k + 2) fields := by rw [Tree.children, hnode]
  have henter (a : Analysis) (hsound : a.symbols.Sound) : a.enter t ⟨k⟩ =
      .ok (false, (a.place ⟨k⟩ .struct).defineStructAs ⟨k⟩ ⟨k + 1⟩ tag (Decl.declarations (k + 2) fields)) := by
    have hsound' : (a.place ⟨k⟩ .struct).symbols.Sound :=
      ((effect_place (k := k) (m := k + 1) a .struct (by dsimp only; omega) (by dsimp only; omega)).symbols hsound).sound
    have hchild : t.child ⟨k⟩ 0 = .ok ⟨k + 1⟩ := by
      simp only [Tree.child, hkids, List.getElem?_cons_zero]
    have htag' : t.tag ⟨k⟩ = .struct := by rw [Tree.tag, hnode]
    have hlexeme : t.lexeme ⟨k + 1⟩ = tag := by rw [Tree.lexeme, htag]
    simp only [enter, htag', defineStruct, hchild, hkids, Tree.text, hlexeme, List.tail_cons, ok_bind, defineStructAs]
    rcases hb : (a.place ⟨k⟩ .struct).openStruct ⟨k + 1⟩ tag with ⟨_ | id, b⟩
    · rfl
    · obtain ⟨hin, hopen⟩ := isComplete_openStruct (hsound'.structOrPlaceholder tag).2.1 hb
      simp only [foldlM_defineField fields hfields id tag.text _ b hin hopen]
      rfl
  obtain ⟨m, hchildren⟩ := (visits_base (b := .struct tag) htag).cons (visits_decls fields hfields (.inr rfl))
  refine ⟨m + 1, fun depth hdepth a hsound => ?_⟩
  obtain ⟨d, rfl⟩ : ∃ d, depth = d + 1 := ⟨depth - 1, by omega⟩
  rw [visitWithin, henter a hsound]
  simp only [ok_bind, hkids, hchildren d (by omega), leave, settle_of_not_settles hnode rfl]
  exact check_silent hnode (by simp) (by simp [hnode]) _

theorem visits_head (hd : t.Shows (some n) k (d.sapling .declName))
    (hparams : t.Shows (some n) (k + d.size) (Item.paramsSapling paren params))
    {f : Analysis → Analysis} (hrest : VisitsAll t rest f) :
    VisitsAll t (d.topNode k :: ⟨k + d.size⟩ :: rest) (f ∘ Item.placeHead k d params) := by
  obtain ⟨hlist, hparams⟩ := Item.shows_params.mp hparams
  have hparamList : Visits t ⟨k + d.size⟩ fun a =>
      Decl.placeAll (k + d.size + 1) .declName params (a.place ⟨k + d.size⟩ .paramList) :=
    .placed hlist rfl (visits_decls params hparams (.inl rfl)) (by simp [hlist])
  exact (visits_decl d hd (.inl rfl)).cons (hparamList.cons hrest)

theorem defineFunction_eq {roles : Roles} {x : Node}
    (hnode : t.node n = x) (hkids : x.children = d.topNode k :: ⟨k + d.size⟩ :: rest)
    (hd : t.Shows (some n) k (d.sapling .declName))
    (hparams : t.Shows (some n) (k + d.size) (Item.paramsSapling paren params)) (a : Analysis) :
    a.defineFunction t n roles =
      let a := a.openFunction (d.declaration k) ⟨k + d.size⟩ (Decl.declarations (k + d.size + 1) params) roles
      if roles.prototype then .ok a
      else do
        let body ← t.child n 2
        if (t.children body).any (t.tag · = .varDecl) then return a.setSymbols a.symbols.recordBlank else return a := by
  obtain ⟨hlist, hparams⟩ := Item.shows_params.mp hparams
  have h₀ : t.child n 0 = .ok (d.topNode k) := by simp [hnode, hkids]
  have h₁ : t.child n 1 = .ok ⟨k + d.size⟩ := by simp [hnode, hkids]
  have hlist' : t.children ⟨k + d.size⟩ = Decl.topNodes (k + d.size + 1) params := by rw [Tree.children, hlist]
  simp only [defineFunction, h₀, h₁, ok_bind, declaration_topNode d hd, hlist', declarations_topNodes params hparams]
  rfl

theorem visits_prototype {semicolon : Lexeme}
    (h : t.Shows p k (Item.prototype d paren params semicolon).sapling) :
    Visits t ((Item.prototype d paren params semicolon).topNode k) ((Item.prototype d paren params semicolon).analyze k) := by
  obtain ⟨hnode, hd, hparams, -⟩ := (Item.shows_prototype rfl rfl).mp h
  rw [Item.topNode_prototype]
  have henter (a : Analysis) : a.enter t ⟨k + d.size + 1 + Decl.sizes params + 1⟩ = .ok (true,
      (a.place ⟨k + d.size + 1 + Decl.sizes params + 1⟩ .prototype).openFunction (d.declaration k) ⟨k + d.size⟩
        (Decl.declarations (k + d.size + 1) params) { function := true, prototype := true }) := by
    have htag : t.tag ⟨k + d.size + 1 + Decl.sizes params + 1⟩ = .prototype := by rw [Tree.tag, hnode]
    simp only [enter, htag, defineFunction_eq hnode rfl hd hparams]
    rfl
  exact (Visits.step hnode henter (visits_head hd hparams .nil) (settle_of_not_settles hnode rfl)
    (check_silent hnode (by simp) (by simp [hnode]))).congr fun a => by rw [Item.analyze]; rfl

theorem visits_function {brace : Lexeme} {body : List Stmt}
    (h : t.Shows p k (Item.function d paren params brace body).sapling)
    (hsize : Sapling.depths (Stmt.saplings body) < t.size) :
    Visits t ((Item.function d paren params brace body).topNode k) ((Item.function d paren params brace body).analyze k) := by
  obtain ⟨hnode, hd, hparams, hblock⟩ := (Item.shows_function rfl rfl rfl).mp h
  obtain ⟨hbrace, hbody⟩ := Stmt.shows_block.mp hblock
  rw [Item.topNode_function]
  generalize hn : (⟨k + d.size + 1 + Decl.sizes params + 1 + Stmt.sizes body⟩ : NodeId) = n at *
  generalize hb : (⟨k + d.size + 1 + Decl.sizes params⟩ : NodeId) = b at *
  have htag : t.tag n = .function := by rw [Tree.tag, hnode]
  have hchild : t.child n 2 = .ok b := by simp [hnode]
  have hany : (t.children b).any (t.tag · = .varDecl) = body.any Stmt.isVarDecl := by
    rw [Tree.children, hbrace]
    exact any_varDecl body hbody
  have henter (a : Analysis) : a.enter t n = .ok (true,
      let a := (a.place n .function).openFunction (d.declaration k) ⟨k + d.size⟩
        (Decl.declarations (k + d.size + 1) params) { function := true }
      let a := if body.any Stmt.isVarDecl then a.setSymbols a.symbols.recordBlank else a
      { a with queues.functions := a.queues.functions.push n }) := by
    simp only [enter, htag, defineFunction_eq hnode rfl hd hparams, hchild, ok_bind, hany]
    cases body.any Stmt.isVarDecl <;> rfl
  have hbodyVisits : Visits t b fun a => Stmt.analyzeAll (b.index + 1) body (a.setBlock b a.symbols.currentBlock) := by
    subst hb
    exact visits_body hbrace htag (visits_stmts body hbody (isLoose_some hbrace (by simp)))
  have hsites : returns t b = .ok (Stmt.returnsAll (b.index + 1) body) := by
    obtain ⟨m, h⟩ := Returns.below hbrace (by simp) (returns_stmts body hbody)
    have hdepth : (Stmt.block brace body).sapling.depth ≤ t.size := by simpa [Stmt.sapling, Sapling.depth, Sapling.depths]
    have henough : (Stmt.block brace body).sapling.depth ≤ max m t.size := by omega
    have hwalk := (Tree.Shows.walkWithin _ hblock henough).trans (Tree.Shows.walkWithin _ hblock hdepth).symm
    subst hb
    simp [Stmt.sapling, Sapling.top, Sapling.sizes] at hwalk
    have h := h (max m t.size) (by omega)
    rw [List.flatMap_singleton, hwalk] at h
    exact h
  have hverdict (a : Analysis) : a.verdict t n =
      .ok (a.functionVerdict ⟨k + 1⟩ d.name (Stmt.returnsAll (b.index + 1) body)) := by
    have hdecl : t.child n 0 = .ok (d.topNode k) := by simp [hnode]
    simp only [verdict, htag, hdecl, hchild, ok_bind, declParts_topNode d hd, lexeme_name d hd, hsites]
    cases hdeclared : a.typeOf ⟨k + 1⟩ <;> simp [functionVerdict, hdeclared, pure, Except.pure]
  have hvisits := Visits.step hnode henter (visits_head hd hparams (hbodyVisits.cons .nil)) (settle_of_not_settles hnode rfl)
    fun a => check_eq_ok hnode (by simp) (hverdict a)
  subst hn hb
  exact hvisits.congr fun a => by rw [Item.analyze]; rfl

theorem visits_item (i : Item) (h : t.Shows p k i.sapling) (hp : IsLoose t p) (hsize : i.sapling.depth ≤ t.size) :
    ∃ m, ∀ depth ≥ m, ∀ a : Analysis, a.symbols.Sound → visitWithin t depth (i.topNode k) a = .ok (i.analyze k a) := by
  have hany (hi : Visits t (i.topNode k) (i.analyze k)) :
      ∃ m, ∀ depth ≥ m, ∀ a : Analysis, a.symbols.Sound → visitWithin t depth (i.topNode k) a = .ok (i.analyze k a) :=
    hi.imp fun _ hm depth hdepth a _ => hm depth hdepth a
  cases i with
  | struct mark tag fields => exact visits_struct h
  | function d paren params brace body =>
    simp only [Item.sapling, Item.paramsSapling, Stmt.sapling, Sapling.depth, Sapling.depths] at hsize
    exact hany (visits_function h (by omega))
  | prototype d paren params semicolon => exact hany (visits_prototype h)
  | stmt s => exact hany ((visits_stmt s h hp).congr fun a => by rw [Item.analyze])

theorem visits_items (is : List Item) (h : t.ShowsAll p k (is.map Item.sapling)) (hp : IsLoose t p)
    (hsize : Sapling.depths (is.map Item.sapling) ≤ t.size) : ∃ m, ∀ depth ≥ m, ∀ a : Analysis, a.symbols.Sound →
      (Item.topNodes k is).foldlM (fun a child => visitWithin t depth child a) a = .ok (Item.analyzeAll k is a) := by
  induction is generalizing k with
  | nil => exact ⟨0, fun _ _ _ _ => rfl⟩
  | cons i is ih =>
    obtain ⟨hi, his⟩ := h
    simp only [List.map_cons, Sapling.depths] at hsize
    obtain ⟨m, hm⟩ := visits_item i hi hp (by omega)
    obtain ⟨m', hm'⟩ := ih his (by omega)
    refine ⟨max m m', fun depth hdepth a hsound => ?_⟩
    rw [Item.topNodes, List.foldlM_cons, hm depth (by omega) a hsound, ok_bind]
    exact hm' depth (by omega) _ ((i.analyze_effect k a).symbols hsound).sound

end Items

theorem ofTree_shows {items : List Item} {t : Tree} (hshows : t.Shows none 0 (Program.sapling items))
    (hsize : t.size = (Program.sapling items).size) (log : Log) : ofTree t log = .ok (Program.analyze items log) := by
  obtain ⟨hnode, hitems⟩ := Tree.shows_root.mp hshows
  rw [Item.tops_saplings] at hnode
  have hdepth : (Program.sapling items).depth ≤ t.size := hsize ▸ (Program.sapling items).depth_le_size
  have hbelow := hdepth
  rw [Program.sapling, Sapling.depth, Sapling.depths] at hbelow
  have hsound : (place .root .root { log }).symbols.Sound :=
    ((effect_place (k := 0) (m := 1) { log } .root (Nat.zero_le _) Nat.zero_lt_one).symbols
      SymbolTable.sound_empty).sound
  obtain ⟨m, hvisit⟩ := visits_items items hitems (isLoose_some hnode (by simp)) (by omega)
  have hkids : t.children .root = Item.topNodes 1 items := by rw [Tree.children, hnode]
  have henough : (Program.sapling items).depth ≤ max m t.size + 1 := by omega
  rw [ofTree, visit, visitWithin_eq (n := .root) _ hshows rfl hdepth henough, visitWithin, enter_of_not_opens hnode rfl]
  simp only [ok_bind, hkids, hvisit _ (Nat.le_max_left m t.size) _ hsound, leave, settle_of_not_settles hnode rfl]
  exact check_silent hnode (by simp) (by simp [hnode]) _

theorem ofTree_parse {tokens : List Token} {n : NodeId} {t : Tree} (h : Tree.empty.parse tokens = (.ok n, t)) (log : Log) :
    ofTree t log = .ok (Program.analyze (Program.ofTokens tokens).items log) := by
  obtain ⟨-, hshows, hsize⟩ := Tree.parse_shows h
  exact ofTree_shows hshows hsize log

/-- The text is read as a whole and analysed, and its tree and the analysis pass a check. -/
def passes (text : String) (check : Tree → Analysis → Bool) : Bool :=
  Tree.passes text fun _ t => (ofTree t #[]).toOption.any (check t)

theorem exists_of_passes {text : String} {check : Tree → Analysis → Bool} (h : passes text check = true) :
    ∃ s root t a, TokenStream.ofText "t" text = .ok s ∧ Tree.empty.parse s.tokens = (.ok root, t) ∧ ofTree t #[] = .ok a ∧
      check t a = true := by
  obtain ⟨s, root, t, hs, hparse, hcheck⟩ := Tree.exists_of_passes h
  obtain ⟨a, ha, hcheck⟩ := (Option.any_eq_true _ _).mp hcheck
  exact ⟨s, root, t, a, hs, hparse, eq_ok_of_toOption ha, hcheck⟩

end Analysis

end OcCompiler
