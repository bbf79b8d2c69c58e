import OcCompiler.Proofs.Labels
import OcCompiler.Proofs.UnplacedAnalysis

/-! Places in oil are those of labels. Emitted from the tree in which every node stands at its own number, a module
    names each label by its loop or conditional; with the places put in, it is the module that the tree leads to. -/

namespace OcCompiler

open Oil

/-! ### Trees whose places are numbers -/

def NodeId.place (n : NodeId) : Location := { column := n.index }

namespace Tree

def indexed (t : Tree) : Tree := ⟨t.nodes.mapIdx fun i x => { x with lexeme := ⟨x.lexeme.text, NodeId.place ⟨i⟩⟩ }⟩

variable (t : Tree) {n : NodeId}

theorem indexed_unplaced : t.unplaced.indexed = t.indexed := by
  refine congrArg Tree.mk (Array.ext_getElem? fun i => ?_)
  simp [unplaced, Node.unplaced, Function.comp_def]

theorem node_indexed (h : n.index < t.size) :
    t.indexed.node n = { t.node n with lexeme := ⟨t.text n, n.place⟩ } := by
  obtain ⟨i⟩ := n
  obtain ⟨x, hx⟩ : ∃ x, t.nodes[i]? = some x := ⟨_, Array.getElem?_eq_getElem h⟩
  simp [indexed, node, text, lexeme, hx]

theorem node_indexed_absent (h : ¬n.index < t.size) : t.indexed.node n = t.node n := by
  obtain ⟨i⟩ := n
  have hx : t.nodes[i]? = none := Array.getElem?_eq_none (Nat.le_of_not_lt h)
  simp [indexed, node, hx]

@[simp] theorem size_indexed : t.indexed.size = t.size := by simp [indexed, size]

@[simp] theorem tag_indexed (n : NodeId) : t.indexed.tag n = t.tag n := by
  by_cases h : n.index < t.size
  · rw [tag, t.node_indexed h, tag]
  · rw [tag, t.node_indexed_absent h, tag]

@[simp] theorem children_indexed (n : NodeId) : t.indexed.children n = t.children n := by
  by_cases h : n.index < t.size
  · rw [children, t.node_indexed h, children]
  · rw [children, t.node_indexed_absent h, children]

@[simp] theorem text_indexed (n : NodeId) : t.indexed.text n = t.text n := by
  by_cases h : n.index < t.size
  · rw [text, lexeme, t.node_indexed h]
  · rw [text, lexeme, t.node_indexed_absent h, text, lexeme]

theorem loc_indexed (h : n.index < t.size) : t.indexed.loc n = n.place := by
  rw [loc, lexeme, t.node_indexed h]

end Tree

def Tag.isBranch : Tag → Bool
  | .whileLoop | .ifThen | .ifElse => true
  | _ => false

theorem Tree.loc_indexed_of_isBranch {t : Tree} {n : NodeId} (h : (t.tag n).isBranch = true) : t.indexed.loc n = n.place := by
  refine t.loc_indexed (index_lt_of_tag fun htag => ?_)
  rw [htag] at h
  cases h

namespace Oil

variable {l : Label} {t : Tree} {i : Instruction}

/-- Moves a label from the number of a node to the place of the node. -/
def Label.relabel (f : NodeId → Location) (l : Label) : Label := ⟨l.kind, f ⟨l.loc.column⟩⟩

def Instruction.relabel (f : NodeId → Location) : Instruction → Instruction
  | .label l => .label (l.relabel f)
  | .jump l => .jump (l.relabel f)
  | .jumpUnless condition l => .jumpUnless condition (l.relabel f)
  | i => i

def Function.relabel (f : NodeId → Location) (g : Function) : Function :=
  { g with body := g.body.map (Instruction.relabel f) }

/-- The module whose labels stand at the places of nodes, given the one whose labels stand at their numbers. -/
def Module.relabel (f : NodeId → Location) (m : Module) : Module :=
  { m with functions := m.functions.map (Function.relabel f), entry := m.entry.map (Instruction.relabel f) }

/-- The label stands at the number of a loop or of a conditional. -/
def Label.Marks (t : Tree) (l : Label) : Prop :=
  ∃ n : NodeId, l.loc = n.place ∧ (t.tag n).isBranch = true

def Instruction.Marks (t : Tree) (i : Instruction) : Prop :=
  (∀ l ∈ i.label?, l.Marks t) ∧ ∀ l ∈ i.target?, l.Marks t

/-- An instruction that neither is a label nor names one. -/
def Instruction.Plain (i : Instruction) : Prop := i.label? = none ∧ i.target? = none

theorem Instruction.Plain.relabel (h : i.Plain) (f : NodeId → Location) : i.relabel f = i := by
  cases i with
  | label l => cases h.1
  | jump l => cases h.2
  | jumpUnless condition l => cases h.2
  | _ => rfl

theorem Instruction.Plain.marks (h : i.Plain) (t : Tree) : i.Marks t := by
  obtain ⟨hlabel, htarget⟩ := h
  rw [Marks, hlabel, htarget]
  exact ⟨nofun, nofun⟩

theorem Instruction.marks_label (h : l.Marks t) : (Instruction.label l).Marks t := by
  refine ⟨fun l' hl => ?_, nofun⟩
  cases hl
  exact h

theorem Instruction.marks_jump (h : l.Marks t) : (Instruction.jump l).Marks t := by
  refine ⟨nofun, fun l' hl => ?_⟩
  cases hl
  exact h

theorem Instruction.marks_jumpUnless (x : Operand) (h : l.Marks t) :
    (Instruction.jumpUnless x l).Marks t := by
  refine ⟨nofun, fun l' hl => ?_⟩
  cases hl
  exact h

/-- Both fail, or both succeed with results that are related. -/
inductive Aligned {α : Type} (R : α → α → Prop) : Except Fault α → Except Fault α → Prop
  | error {f f' : Fault} : Aligned R (.error f) (.error f')
  | ok {x x' : α} (h : R x x') : Aligned R (.ok x) (.ok x')

namespace Aligned

variable {α β : Type} {R : α → α → Prop} {S : β → β → Prop} {m m' : Except Fault α}

theorem refl (m : Except Fault α) : Aligned Eq m m := by
  cases m with
  | error f => exact .error
  | ok x => exact .ok rfl

theorem bind {f f' : α → Except Fault β} (h : Aligned R m m') (hf : ∀ x x', R x x' → Aligned S (f x) (f' x')) :
    Aligned S (m >>= f) (m' >>= f') := by
  cases h with
  | error => exact .error
  | ok h => exact hf _ _ h

theorem bind_same {f f' : α → Except Fault β} (h : Aligned Eq m m') (hf : ∀ x, Aligned S (f x) (f' x)) :
    Aligned S (m >>= f) (m' >>= f') := by
  refine h.bind fun x x' hx => ?_
  rw [hx]
  exact hf x'

theorem mapM {f f' : α → Except Fault β} (h : ∀ x, Aligned Eq (f x) (f' x)) (xs : List α) :
    Aligned Eq (xs.mapM f) (xs.mapM f') := by
  induction xs with
  | nil => exact .ok rfl
  | cons x xs ih =>
    rw [List.mapM_cons, List.mapM_cons]
    exact .bind_same (h x) fun y => .bind_same ih fun ys => .ok rfl

end Aligned

/-- The first is what the second is, with the labels of the second moved to the places of the tree's nodes. -/
structure Emitted.Relabelled (t : Tree) {α : Type} (r r' : Emitted α) : Prop where
  value : r.value = r'.value
  code : r.code = r'.code.map (Instruction.relabel t.loc)
  next : r.next = r'.next
  marks : ∀ i ∈ r'.code, i.Marks t

def Emit.Relabels (t : Tree) {α : Type} (m m' : Emit α) : Prop :=
  ∀ next, Aligned (Emitted.Relabelled t) (m next) (m' next)

namespace Emit.Relabels

variable {α β : Type} {t : Tree}

theorem pure (x : α) : Relabels t (pure x) (pure x) := fun _ => .ok ⟨rfl, rfl, rfl, List.forall_mem_nil _⟩

theorem fail (f f' : Fault) : Relabels t (Emit.fail f : Emit α) (Emit.fail f') := fun _ => .error

theorem bind {m m' : Emit α} {f f' : α → Emit β} (h : Relabels t m m') (hf : ∀ x, Relabels t (f x) (f' x)) :
    Relabels t (m >>= f) (m' >>= f') := by
  refine fun next => (h next).bind fun first first' hfirst => ?_
  rw [hfirst.value, hfirst.next]
  refine (hf first'.value first'.next).bind fun second second' hsecond => .ok ?_
  exact {
    value := hsecond.value
    code := by simp only [hfirst.code, hsecond.code, List.map_append]
    next := hsecond.next
    marks := List.forall_mem_append.mpr ⟨hfirst.marks, hsecond.marks⟩ }

theorem lift_bind {x x' : Except Fault α} {f f' : α → Emit β} (h : Aligned Eq x x') (hf : ∀ y, Relabels t (f y) (f' y)) :
    Relabels t (liftM x >>= f : Emit β) (liftM x' >>= f') := by
  refine bind (fun next => ?_) hf
  exact h.bind_same fun y => pure y next

theorem write_plain {i : Instruction} (h : i.Plain) : Relabels t (Emit.write i) (Emit.write i) := by
  refine fun next => .ok ⟨rfl, ?_, rfl, List.forall_mem_singleton.mpr (h.marks t)⟩
  rw [List.map_singleton, h.relabel]

theorem write_marked {i : Instruction} (h : i.Marks t) : Relabels t (Emit.write (i.relabel t.loc)) (Emit.write i) :=
  fun _ => .ok ⟨rfl, rfl, rfl, List.forall_mem_singleton.mpr h⟩

theorem newRegister (kind : RegisterKind) : Relabels t (Emit.newRegister kind) (Emit.newRegister kind) := by
  intro next
  rw [Emit.newRegister]
  cases countUp next with
  | error f => exact .error
  | ok following => exact .ok ⟨rfl, rfl, rfl, List.forall_mem_nil _⟩

theorem forM {xs : List α} {f f' : α → Emit Unit} (h : ∀ x, Relabels t (f x) (f' x)) :
    Relabels t (xs.forM f) (xs.forM f') := by
  induction xs with
  | nil => exact .pure ()
  | cons x xs ih =>
    rw [List.forM_eq_forM, List.forM_cons, List.forM_cons]
    exact .bind (h x) fun _ => ih

theorem mapM {xs : List α} {f f' : α → Emit β} (h : ∀ x, Relabels t (f x) (f' x)) :
    Relabels t (xs.mapM f) (xs.mapM f') := by
  induction xs with
  | nil => exact .pure []
  | cons x xs ih =>
    rw [List.mapM_cons, List.mapM_cons]
    exact .bind (h x) fun y => .bind ih fun ys => .pure (y :: ys)

end Emit.Relabels

/-! ### Expressions and statements -/

namespace Context

def indexed (c : Context) : Context := { c with tree := c.tree.indexed, analysis := c.analysis.unplaced }

variable (c : Context)

@[simp] theorem tree_indexed : c.indexed.tree = c.tree.indexed := rfl

@[simp] theorem named_indexed (n : NodeId) : c.indexed.named n = c.named n := by
  simp only [named, tree_indexed, Tree.text_indexed]
  rfl

@[simp] theorem constant_indexed (q : Constant) (text : String) : c.indexed.constant q text = c.constant q text := rfl

theorem child_aligned (t : Tree) (n : NodeId) (i : Nat) : Aligned Eq (t.child n i) (t.indexed.child n i) := by
  rw [Tree.child, Tree.child, Tree.children_indexed]
  cases (t.children n)[i]? with
  | none => exact .error
  | some c => exact .ok rfl

theorem declParts_aligned (t : Tree) (n : NodeId) : Aligned Eq (t.declParts n) (t.indexed.declParts n) := by
  rw [Tree.declParts, Tree.declParts, Tree.tag_indexed]
  split
  · exact .bind_same (child_aligned t n 0) fun base => .bind_same (child_aligned t n 1) fun name => .ok rfl
  · exact .bind_same (child_aligned t n 0) fun name => .ok rfl

theorem typeOf_aligned (n : NodeId) : Aligned Eq (c.typeOf n) (c.indexed.typeOf n) := by
  have htype : c.indexed.analysis.typeOf n = c.analysis.typeOf n := rfl
  rw [typeOf, typeOf, htype]
  cases c.analysis.typeOf n with
  | none => exact .error
  | some type => exact .ok rfl

theorem compute_relabels (n : NodeId) (value : Computation) :
    Emit.Relabels c.tree (c.compute n value) (c.indexed.compute n value) := by
  refine .lift_bind (c.typeOf_aligned n) fun type => .bind (.newRegister _) fun r => ?_
  exact .bind (.write_plain ⟨rfl, rfl⟩) fun _ => .pure _

theorem address_relabels (n : NodeId) (place : Place) :
    Emit.Relabels c.tree (c.address n place) (c.indexed.address n place) := by
  refine .lift_bind (c.typeOf_aligned n) fun type => .bind (.newRegister _) fun r => ?_
  exact .bind (.write_plain ⟨rfl, rfl⟩) fun _ => .pure _

theorem expr_relabels (depth : Nat) (n : NodeId) : Emit.Relabels c.tree (c.expr depth n) (c.indexed.expr depth n) := by
  induction depth generalizing n with
  | zero => exact .pure _
  | succ depth ih =>
    have hchild := child_aligned c.tree n
    rw [expr, expr]
    simp only [tree_indexed, Tree.tag_indexed, Tree.text_indexed, Tree.children_indexed, named_indexed, constant_indexed]
    cases c.tree.tag n with
    | constant q => exact .pure _
    | name => exact .pure _
    | binary op =>
      cases op with
      | assign =>
        refine .lift_bind (hchild 0) fun left => .bind (ih left) fun target => ?_
        refine .lift_bind (hchild 1) fun right => .bind (ih right) fun value => ?_
        exact .bind (.write_plain ⟨rfl, rfl⟩) fun _ => .pure _
      | compare op | arith op =>
        refine .lift_bind (hchild 0) fun left => .bind (ih left) fun x => ?_
        exact .lift_bind (hchild 1) fun right => .bind (ih right) fun y => c.compute_relabels n _
    | unary op | newString => exact .lift_bind (hchild 0) fun m => .bind (ih m) fun x => c.compute_relabels n _
    | newStruct => exact .lift_bind (hchild 0) fun name => c.compute_relabels n _
    | newArray =>
      refine .lift_bind (hchild 1) fun m => .bind (ih m) fun x => .lift_bind (c.typeOf_aligned n) fun type => ?_
      cases type with
      | array element => exact c.compute_relabels n _
      | base b => exact .fail _ _
      | null => exact .fail _ _
    | call =>
      cases c.tree.children n with
      | nil => exact .fail _ _
      | cons first rest =>
        refine .bind (ih first) fun callee => .bind (.mapM ih) fun args => .lift_bind (c.typeOf_aligned n) fun type => ?_
        split
        · exact .bind (.write_plain ⟨rfl, rfl⟩) fun _ => .pure _
        · exact c.compute_relabels n _
    | index =>
      refine .lift_bind (hchild 0) fun left => .bind (ih left) fun x => ?_
      exact .lift_bind (hchild 1) fun right => .bind (ih right) fun y => c.address_relabels n _
    | select =>
      refine .lift_bind (hchild 0) fun object => .lift_bind (hchild 1) fun field => ?_
      refine .lift_bind (c.typeOf_aligned object) fun type => ?_
      cases type.structTag? with
      | none => exact .fail _ _
      | some tag => exact .bind (ih object) fun x => c.address_relabels n _
    | _ => exact .fail _ _

section Branches

variable {n : NodeId} (hn : (c.tree.tag n).isBranch = true) (kind : LabelKind)

include hn

theorem label_relabels :
    Emit.Relabels c.tree (Emit.write (.label ⟨kind, c.tree.loc n⟩)) (Emit.write (.label ⟨kind, n.place⟩)) :=
  Emit.Relabels.write_marked (Instruction.marks_label (l := ⟨kind, n.place⟩) ⟨n, rfl, hn⟩)

theorem jump_relabels :
    Emit.Relabels c.tree (Emit.write (.jump ⟨kind, c.tree.loc n⟩)) (Emit.write (.jump ⟨kind, n.place⟩)) :=
  Emit.Relabels.write_marked (Instruction.marks_jump (l := ⟨kind, n.place⟩) ⟨n, rfl, hn⟩)

theorem test_relabels {depth : Nat} {m : NodeId} {f f' : Emit Unit} (hf : Emit.Relabels c.tree f f') :
    Emit.Relabels c.tree (do let x ← c.expr depth m; Emit.write (.jumpUnless x ⟨kind, c.tree.loc n⟩); f)
      (do let x ← c.indexed.expr depth m; Emit.write (.jumpUnless x ⟨kind, n.place⟩); f') := by
  refine .bind (c.expr_relabels depth m) fun x => .bind ?_ fun _ => hf
  exact Emit.Relabels.write_marked (Instruction.marks_jumpUnless (l := ⟨kind, n.place⟩) x ⟨n, rfl, hn⟩)

end Branches

theorem stmt_relabels (depth : Nat) (n : NodeId) : Emit.Relabels c.tree (c.stmt depth n) (c.indexed.stmt depth n) := by
  induction depth generalizing n with
  | zero => exact .pure _
  | succ depth ih =>
    have hchild := child_aligned c.tree n
    rw [stmt, stmt]
    simp only [tree_indexed, Tree.tag_indexed, Tree.children_indexed, named_indexed]
    cases htag : c.tree.tag n with
    | block => exact .forM ih
    | varDecl =>
      refine .lift_bind (hchild 0) fun decl => .lift_bind (declParts_aligned _ decl) fun parts => ?_
      refine .lift_bind (hchild 1) fun m => .bind (c.expr_relabels depth m) fun x => ?_
      split
      · exact .write_plain ⟨rfl, rfl⟩
      · exact .lift_bind (c.typeOf_aligned _) fun type => .write_plain ⟨rfl, rfl⟩
    | whileLoop =>
      have hn : (c.tree.tag n).isBranch = true := by rw [htag]; rfl
      simp only [Tree.loc_indexed_of_isBranch hn]
      refine .bind (c.label_relabels hn .loop) fun _ => .lift_bind (hchild 0) fun cond => ?_
      refine c.test_relabels hn .exit (.lift_bind (hchild 1) fun body => .bind (ih body) fun _ => ?_)
      exact .bind (c.jump_relabels hn .loop) fun _ => c.label_relabels hn .exit
    | ifThen =>
      have hn : (c.tree.tag n).isBranch = true := by rw [htag]; rfl
      simp only [Tree.loc_indexed_of_isBranch hn]
      refine .lift_bind (hchild 0) fun cond => c.test_relabels hn .join (.lift_bind (hchild 1) fun yes => ?_)
      exact .bind (ih yes) fun _ => c.label_relabels hn .join
    | ifElse =>
      have hn : (c.tree.tag n).isBranch = true := by rw [htag]; rfl
      simp only [Tree.loc_indexed_of_isBranch hn]
      refine .lift_bind (hchild 0) fun cond => c.test_relabels hn .otherwise (.lift_bind (hchild 1) fun yes => ?_)
      refine .bind (ih yes) fun _ => .bind (c.jump_relabels hn .join) fun _ => .bind (c.label_relabels hn .otherwise) fun _ => ?_
      exact .lift_bind (hchild 2) fun no => .bind (ih no) fun _ => c.label_relabels hn .join
    | returnValue => exact .lift_bind (hchild 0) fun m => .bind (c.expr_relabels depth m) fun x => .write_plain ⟨rfl, rfl⟩
    | returnVoid => exact .write_plain ⟨rfl, rfl⟩
    | semicolon | struct | function | prototype => exact .pure _
    | _ => exact .bind (c.expr_relabels (depth + 1) n) fun _ => .pure _

theorem stmts_relabels (ns : List NodeId) : Emit.Relabels c.tree (c.stmts ns) (c.indexed.stmts ns) := by
  rw [stmts, stmts, tree_indexed, Tree.size_indexed]
  exact .forM fun n => c.stmt_relabels c.tree.size n

theorem entry_relabels : Emit.Relabels c.tree (c.stmts c.entryStmts) (c.indexed.stmts c.indexed.entryStmts) := by
  have hentry : c.indexed.entryStmts = c.entryStmts := by
    simp only [entryStmts, tree_indexed, Tree.children_indexed, Tree.tag_indexed]
  rw [hentry]
  exact c.stmts_relabels c.entryStmts

theorem structRecord_aligned (n : NodeId) : Aligned Eq (c.structRecord n) (c.indexed.structRecord n) := by
  rw [structRecord, structRecord]
  simp only [tree_indexed, Tree.text_indexed, Tree.children_indexed]
  refine .bind_same (child_aligned _ n 0) fun tag => .bind_same (.mapM (fun decl => ?_) _) fun fields => .ok rfl
  exact .bind_same (declParts_aligned _ decl) fun parts => .bind_same (c.typeOf_aligned _) fun type => .ok rfl

theorem globalVariable_aligned (n : NodeId) : Aligned Eq (c.globalVariable n) (c.indexed.globalVariable n) := by
  rw [globalVariable, globalVariable]
  simp only [tree_indexed, Tree.text_indexed]
  refine .bind_same (child_aligned _ n 0) fun decl => .bind_same (declParts_aligned _ decl) fun parts => ?_
  exact .bind_same (c.typeOf_aligned _) fun type => .ok rfl

theorem function_aligned (n : NodeId) (next : Nat) :
    Aligned (fun p p' => p.1 = p'.1.relabel c.tree.loc ∧ p.2 = p'.2 ∧ ∀ i ∈ p'.1.body, i.Marks c.tree)
      (c.function n next) (c.indexed.function n next) := by
  rw [function, function]
  simp only [tree_indexed, Tree.text_indexed, Tree.children_indexed, named_indexed]
  refine .bind_same (child_aligned _ n 0) fun decl => .bind_same (declParts_aligned _ decl) fun parts => ?_
  refine .bind_same (child_aligned _ n 1) fun list => .bind_same (child_aligned _ n 2) fun body => ?_
  refine .bind_same (c.typeOf_aligned _) fun type => .bind_same (.mapM (fun decl => ?_) _) fun params => ?_
  · exact .bind_same (declParts_aligned _ decl) fun parts => .bind_same (c.typeOf_aligned _) fun type => .ok rfl
  · refine (c.stmts_relabels _ next).bind fun r r' hr => .ok ⟨?_, hr.next, hr.marks⟩
    rw [hr.code]
    rfl

theorem functions_aligned (ns : List NodeId) (next : Nat) :
    Aligned (fun p p' => p.1 = p'.1.map (Function.relabel c.tree.loc) ∧ p.2 = p'.2 ∧
        ∀ g ∈ p'.1, ∀ i ∈ g.body, i.Marks c.tree)
      (c.functions ns next) (c.indexed.functions ns next) := by
  induction ns generalizing next with
  | nil => exact .ok ⟨rfl, rfl, List.forall_mem_nil _⟩
  | cons n ns ih =>
    rw [functions, functions]
    refine (c.function_aligned n next).bind fun first first' hfirst => ?_
    obtain ⟨hfirst, hnext, hmarks⟩ := hfirst
    simp only [hfirst, hnext]
    refine (ih first'.2).bind fun rest rest' hrest => ?_
    obtain ⟨hrest, hlast, hmarks'⟩ := hrest
    refine .ok ⟨?_, hlast, ?_⟩
    · rw [hrest]
      rfl
    · exact List.forall_mem_cons.mpr ⟨hmarks, hmarks'⟩

end Context

/-- A module is the one that is emitted when every node stands at its own number, with the places put in. Its labels
    belong to loops and conditionals. -/
theorem Module.ofAnalysis_aligned (t : Tree) (a : Analysis) (start : Nat) :
    Aligned (fun p p' => p.1 = p'.1.relabel t.loc ∧ p.2 = p'.2 ∧ ∀ body ∈ p'.1.bodies, ∀ i ∈ body, i.Marks t)
      (ofAnalysis t a start) (ofAnalysis t.indexed a.unplaced start) := by
  have hspellings : (a.queues.strings.toList.map t.indexed.text) = a.queues.strings.toList.map t.text :=
    List.map_congr_left fun n _ => t.text_indexed n
  rw [ofAnalysis, ofAnalysis]
  refine .bind_same (.mapM (Context.structRecord_aligned ⟨t, a, []⟩) _) fun structs => ?_
  refine .bind_same (hspellings ▸ .refl _) fun ⟨strings, next⟩ => ?_
  refine .bind_same (.mapM (Context.globalVariable_aligned ⟨t, a, []⟩) _) fun globals => ?_
  generalize hslots : strings.map (fun s : StringSlot => (s.spelling, s.register)) = slots
  refine (Context.functions_aligned ⟨t, a, slots⟩ _ _).bind fun p p' ⟨hfunctions, hnext, hmarks⟩ => ?_
  simp only [hfunctions, hnext]
  refine (Context.entry_relabels ⟨t, a, slots⟩ p'.2).bind fun r r' hr => .ok ⟨?_, hr.next, ?_⟩
  · rw [hr.code]
    rfl
  · intro body hbody
    rcases List.mem_append.mp hbody with hbody | hbody
    · obtain ⟨g, hg, rfl⟩ := List.mem_map.mp hbody
      exact hmarks g hg
    · rw [List.mem_singleton.mp hbody]
      exact hr.marks

end Oil

end OcCompiler
