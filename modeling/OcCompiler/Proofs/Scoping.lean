import Mathlib.Data.List.Perm.Subperm
import OcCompiler.Proofs.Lowering
import OcCompiler.Proofs.Places
import OcCompiler.Proofs.Scopes

/-! Static scoping, said of programs alone. A name in use stands for the first declaration of it, so far, in the
    innermost block around it that has one. -/

namespace OcCompiler

/-! ### Declarations and names in use -/

/-- A declaration of a name: the block it belongs to, the node of the name, and what the name is declared as. -/
structure NameDecl where
  block : Nat
  name : Lexeme
  node : NodeId
  attrs : Attributes
deriving DecidableEq, Repr

namespace NameDecl

def isOf (block : Nat) (x : String) (d : NameDecl) : Bool := d.block == block && d.name.text == x

def isDefinition (d : NameDecl) : Bool := d.attrs.roles.function && !d.attrs.roles.prototype

def first (ds : List NameDecl) (block : Nat) (x : String) : Option NameDecl := ds.find? (isOf block x)

/-- What a name stands for inside the given blocks: the innermost one that declares it decides. -/
def binding (ds : List NameDecl) (blocks : List Nat) (x : String) : Option NameDecl := blocks.findSome? (first ds · x)

/-- What a name counts as after the declarations `ds`: a prototype is a function like any other once it has been defined
    in its block. -/
def attrsAfter (ds : List NameDecl) (d : NameDecl) : Attributes :=
  if ds.any fun e => e.isDefinition && e.isOf d.block d.name.text then d.attrs.settled else d.attrs

end NameDecl

/-- What a program does with a name. -/
inductive NameStep where
  | declare (d : NameDecl)
  /-- The name is used at a node, inside blocks that are given from the inside out. -/
  | refer (blocks : List Nat) (x : Lexeme) (node : NodeId)
deriving DecidableEq, Repr

namespace NameStep

def declared? : NameStep → Option NameDecl
  | .declare d => some d
  | .refer .. => none

def reference? : NameStep → Option (Lexeme × NodeId)
  | .declare _ => none
  | .refer _ x node => some (x, node)

def node : NameStep → NodeId
  | .declare d => d.node
  | .refer _ _ node => node

def lexeme : NameStep → Lexeme
  | .declare d => d.name
  | .refer _ x _ => x

def declared (steps : List NameStep) : List NameDecl := steps.filterMap declared?

def references (steps : List NameStep) : List (Lexeme × NodeId) := steps.filterMap reference?

/-- The names in use among `steps` that stand for no declaration, where `before` is what was declared before. -/
def unbound (before : List NameDecl) : List NameStep → List Lexeme
  | [] => []
  | .declare d :: steps => unbound (before ++ [d]) steps
  | .refer blocks x _ :: steps =>
    if (NameDecl.binding before blocks x.text).isNone then x :: unbound before steps else unbound before steps

end NameStep

namespace Expr

mutual

/-- The names in an expression whose first node has number `k`. -/
def nameSteps (blocks : List Nat) (k : Nat) : Expr → List NameStep
  | .name x => [.refer blocks x ⟨k⟩]
  | .constant .. | .newStruct .. => []
  | .unary _ _ e => e.nameSteps blocks (k + 1)
  | .binary _ left _ right => left.nameSteps blocks k ++ right.nameSteps blocks (k + left.size + 1)
  | .call callee _ args => .refer blocks callee ⟨k⟩ :: nameStepsAll blocks (k + 2) args
  | .index base _ subscript => base.nameSteps blocks k ++ subscript.nameSteps blocks (k + base.size + 1)
  | .select object _ _ => object.nameSteps blocks k
  | .newString _ count => count.nameSteps blocks (k + 1)
  | .newArray _ _ count => count.nameSteps blocks (k + 2)

def nameStepsAll (blocks : List Nat) (k : Nat) : List Expr → List NameStep
  | [] => []
  | e :: es => e.nameSteps blocks k ++ nameStepsAll blocks (k + e.size) es

end

end Expr

namespace Decl

def declared (block k : Nat) (roles : Roles) (d : Decl) : NameDecl := ⟨block, d.name, ⟨k + 1⟩, .typed d.type roles⟩

def paramSteps (block k : Nat) : List Decl → List NameStep
  | [] => []
  | d :: ds => .declare (d.declared block k .ofParam) :: paramSteps block (k + d.size) ds

end Decl

namespace Stmt

mutual

/-- The names in a statement of a block, where `outer` are the blocks around that one and `next` is the number of the
    next block. A declared variable is visible after its first value. -/
def nameSteps (block : Nat) (outer : List Nat) (next k : Nat) : Stmt → List NameStep
  | .block _ body => nameStepsAll next (block :: outer) (next + 1) (k + 1) body
  | .empty _ | .returnVoid _ => []
  | .varDecl d _ init =>
    init.nameSteps (block :: outer) (k + d.size + 1) ++ [.declare (d.declared block k { var := true, lvalue := true })]
  | .whileLoop _ cond body =>
    cond.nameSteps (block :: outer) (k + 1) ++ body.nameSteps block outer next (k + 1 + cond.size)
  | .ifThen _ cond yes =>
    cond.nameSteps (block :: outer) (k + 1) ++ yes.nameSteps block outer next (k + 1 + cond.size)
  | .ifElse _ cond yes no =>
    cond.nameSteps (block :: outer) (k + 1) ++ (yes.nameSteps block outer next (k + 1 + cond.size) ++
      no.nameSteps block outer (next + yes.blocks) (k + 1 + cond.size + yes.size))
  | .returnValue _ value => value.nameSteps (block :: outer) (k + 1)
  | .expr e => e.nameSteps (block :: outer) k

def nameStepsAll (block : Nat) (outer : List Nat) (next k : Nat) : List Stmt → List NameStep
  | [] => []
  | s :: ss => s.nameSteps block outer next k ++ nameStepsAll block outer (next + s.blocks) (k + s.size) ss

end

end Stmt

namespace Item

/-- The names in an item. A function is visible in its own body, which shares a block with the parameters. -/
def nameSteps (next k : Nat) : Item → List NameStep
  | .struct .. => []
  | .function d _ params _ body =>
    .declare (d.declared globalBlock k { function := true }) :: (Decl.paramSteps next (k + d.size + 1) params ++
      Stmt.nameStepsAll next [globalBlock] (next + 1) (k + d.size + 1 + Decl.sizes params + 1) body)
  | .prototype d _ params _ =>
    .declare (d.declared globalBlock k { function := true, prototype := true }) ::
      Decl.paramSteps next (k + d.size + 1) params
  | .stmt s => s.nameSteps globalBlock [] next k

def nameStepsAll (next k : Nat) : List Item → List NameStep
  | [] => []
  | i :: is => i.nameSteps next k ++ nameStepsAll (next + i.blocks) (k + i.size) is

end Item

/-- What a whole program does with names. The global block has number 0, and the node of the program comes first. -/
def Program.nameSteps (items : List Item) : List NameStep := Item.nameStepsAll (globalBlock + 1) 1 items

namespace NameStep

variable {k m j l : Nat} {steps steps' : List NameStep}

def Within (k m : Nat) (steps : List NameStep) : Prop := ∀ s ∈ steps, k ≤ s.node.index ∧ s.node.index < m

theorem Within.nil : Within k m [] := List.forall_mem_nil _

theorem Within.mono (h : Within k m steps) (hk : j ≤ k := by omega) (hm : m ≤ l := by omega) : Within j l steps :=
  fun s hs => ⟨Nat.le_trans hk (h s hs).1, Nat.lt_of_lt_of_le (h s hs).2 hm⟩

theorem Within.cons {s : NameStep} (h : Within k m steps) (hk : k ≤ s.node.index) (hm : s.node.index < m) :
    Within k m (s :: steps) := List.forall_mem_cons.mpr ⟨⟨hk, hm⟩, h⟩

def Outside (k m : Nat) (steps : List NameStep) : Prop := ∀ s ∈ steps, s.node.index < k ∨ m ≤ s.node.index

theorem Outside.mono (h : Outside k m steps) (hk : k ≤ j := by omega) (hm : l ≤ m := by omega) : Outside j l steps :=
  fun s hs => (h s hs).imp (Nat.lt_of_lt_of_le · hk) (Nat.le_trans hm)

theorem Outside.append (h : Outside k m steps) (h' : Outside k m steps') : Outside k m (steps ++ steps') := by
  intro s hs
  rcases List.mem_append.mp hs with hs | hs
  · exact h s hs
  · exact h' s hs

theorem Within.before (h : Within k m steps) (hm : m ≤ j) (l : Nat) : Outside j l steps :=
  fun s hs => .inl (Nat.lt_of_lt_of_le (h s hs).2 hm)

theorem Within.behind (h : Within k m steps) (hk : l ≤ k) (j : Nat) : Outside j l steps :=
  fun s hs => .inr (Nat.le_trans hk (h s hs).1)

theorem Outside.append_before (h : Outside j l steps) (h' : Within k m steps') (hm : m ≤ j := by omega) :
    Outside j l (steps ++ steps') :=
  h.append (h'.before hm l)

theorem Outside.append_behind (h : Outside j l steps) (h' : Within k m steps') (hk : l ≤ k := by omega) :
    Outside j l (steps ++ steps') :=
  h.append (h'.behind hk j)

end NameStep

open NameStep

namespace Sapling

mutual

/-- The nodes of a sapling that is planted from number `k` on, with their tags and lexemes. -/
@[simp] def nodes (k : Nat) : Sapling → List (NodeId × Tag × Lexeme)
  | .node tag lexeme before after =>
    nodesAll k before ++ (⟨k + sizes before⟩, tag, lexeme) :: nodesAll (k + sizes before + 1) after
  | .spent lexeme => [(⟨k⟩, .released, lexeme)]

@[simp] def nodesAll (k : Nat) : List Sapling → List (NodeId × Tag × Lexeme)
  | [] => []
  | s :: ss => s.nodes k ++ nodesAll (k + s.size) ss

end

@[simp] theorem nodes_leaf (k : Nat) (tag : Tag) (lexeme : Lexeme) : (leaf tag lexeme).nodes k = [(⟨k⟩, tag, lexeme)] := rfl

end Sapling

def Tree.entry (t : Tree) (i : Nat) : NodeId × Tag × Lexeme := (⟨i⟩, t.tag ⟨i⟩, t.lexeme ⟨i⟩)

mutual

theorem Tree.Shows.nodes_eq {t : Tree} {p : Option NodeId} {k : Nat} {s : Sapling} (h : t.Shows p k s) :
    s.nodes k = (List.range' k s.size).map t.entry := by
  match s, h with
  | .node tag lexeme before after, ⟨hnode, hbefore, hafter⟩ =>
    rw [Sapling.nodes, Tree.ShowsAll.nodesAll_eq hbefore, Tree.ShowsAll.nodesAll_eq hafter, Sapling.size, Nat.add_assoc,
      ← List.range'_append_1, List.range'_1_concat, List.append_assoc, List.map_append, List.map_append, List.map_singleton, Tree.entry, Tree.tag,
      Tree.lexeme, hnode]
    rfl
  | .spent lexeme, h =>
    rw [Tree.Shows] at h
    simp [Sapling.size, Tree.entry, Tree.tag, Tree.lexeme, h]

theorem Tree.ShowsAll.nodesAll_eq {t : Tree} {p : Option NodeId} {k : Nat} {ss : List Sapling} (h : t.ShowsAll p k ss) :
    Sapling.nodesAll k ss = (List.range' k (Sapling.sizes ss)).map t.entry := by
  match ss, h with
  | [], _ => rfl
  | s :: ss, ⟨hs, hss⟩ =>
    rw [Sapling.nodesAll, Tree.Shows.nodes_eq hs, Tree.ShowsAll.nodesAll_eq hss, Sapling.sizes, ← List.range'_append_1,
      List.map_append]

end

theorem Sapling.index_nodesAll (ss : List Sapling) (k : Nat) :
    (nodesAll k ss).map (·.1.index) = List.range' k (sizes ss) := by
  obtain ⟨u, -, h⟩ := Tree.exists_showsAll ⟨Array.replicate k default⟩ ss
  have hsize : Tree.size ⟨Array.replicate k default⟩ = k := Array.size_replicate
  rw [hsize] at h
  rw [h.nodesAll_eq, List.map_map]
  exact List.map_id _

@[simp] def NameStep.isNaming : NodeId × Tag × Lexeme → Bool
  | (_, .name, _) | (_, .declName, _) => true
  | _ => false

def NameStep.asNode : NameStep → NodeId × Tag × Lexeme
  | .declare d => (d.node, .declName, d.name)
  | .refer _ x node => (node, .name, x)

section Nodes

attribute [local simp] List.filter_cons List.count_cons Sapling.sizes Sapling.size Sapling.leaf Expr.sapling
  Expr.saplings Stmt.sapling Stmt.saplings Decl.size_sapling Decl.sizes_saplings
attribute [-simp] List.count_eq_one_of_mem

mutual

theorem Expr.filter_nodes (e : Expr) (blocks : List Nat) (k : Nat) :
    (e.sapling.nodes k).filter isNaming = (e.nameSteps blocks k).map asNode := by
  match e with
  | .name _ => rfl
  | .constant .. | .newStruct .. => simp [nameSteps]
  | .unary _ _ e | .newString _ e | .select e _ _ => simp [nameSteps, Expr.filter_nodes e blocks]
  | .binary _ l _ r | .index l _ r => simp [nameSteps, size, Expr.filter_nodes l blocks, Expr.filter_nodes r blocks]
  | .call _ _ args => simp [nameSteps, asNode, Expr.filter_nodesAll args blocks]
  | .newArray element _ e =>
    cases element <;> simp [TypeName.sapling, TypeName.tag, nameSteps, Expr.filter_nodes e blocks]

theorem Expr.filter_nodesAll (es : List Expr) (blocks : List Nat) (k : Nat) :
    (Sapling.nodesAll k (saplings es)).filter isNaming = (nameStepsAll blocks k es).map asNode := by
  match es with
  | [] => rfl
  | e :: es => simp [nameStepsAll, size, Expr.filter_nodes e blocks, Expr.filter_nodesAll es blocks]

end

theorem Decl.filter_nodes (d : Decl) (k : Nat) (roles : Roles) (block : Nat) :
    ((d.sapling .declName).nodes k).filter isNaming = [asNode (.declare (d.declared block k roles))] := by
  obtain ⟨base, mark, name⟩ := d
  cases base <;> cases mark <;> simp [sapling, TypeName.sapling, TypeName.tag, asNode, declared]

theorem Decl.filter_nodes_field (d : Decl) (k : Nat) : ((d.sapling .field).nodes k).filter isNaming = [] := by
  obtain ⟨base, mark, name⟩ := d
  cases base <;> cases mark <;> simp [sapling, TypeName.sapling, TypeName.tag]

theorem Decl.filter_nodesAll (ds : List Decl) (block k : Nat) :
    (Sapling.nodesAll k (ds.map (·.sapling .declName))).filter isNaming = (paramSteps block k ds).map asNode := by
  induction ds generalizing k with
  | nil => rfl
  | cons d ds ih => simp [paramSteps, d.filter_nodes k .ofParam block, ih]

theorem Decl.filter_nodesAll_field (ds : List Decl) (k : Nat) :
    (Sapling.nodesAll k (ds.map (·.sapling .field))).filter isNaming = [] := by
  induction ds generalizing k with
  | nil => rfl
  | cons d ds ih => rw [List.map_cons, Sapling.nodesAll, List.filter_append, d.filter_nodes_field k, ih]; rfl

mutual

theorem Stmt.count_names (s : Stmt) (block : Nat) (outer : List Nat) (next k : Nat) (p : NodeId × Tag × Lexeme) :
    ((s.sapling.nodes k).filter isNaming).count p = ((s.nameSteps block outer next k).map asNode).count p := by
  match s with
  | .block _ body => simp [nameSteps, Stmt.count_namesAll body next (block :: outer) (next + 1)]
  | .empty _ | .returnVoid _ => rfl
  | .varDecl d _ init =>
    simp [nameSteps, d.filter_nodes k { var := true, lvalue := true } block, init.filter_nodes (block :: outer)]
  | .whileLoop _ cond s | .ifThen _ cond s =>
    simp [nameSteps, Expr.size, cond.filter_nodes (block :: outer), Stmt.count_names s block outer next]
  | .ifElse _ cond yes no =>
    simp [nameSteps, Expr.size, size, cond.filter_nodes (block :: outer),
      Stmt.count_names yes block outer next, Stmt.count_names no block outer (next + yes.blocks)]
  | .returnValue _ e => simp [nameSteps, e.filter_nodes (block :: outer)]
  | .expr e => rw [sapling, nameSteps, e.filter_nodes]

theorem Stmt.count_namesAll (ss : List Stmt) (block : Nat) (outer : List Nat) (next k : Nat) (p : NodeId × Tag × Lexeme) :
    ((Sapling.nodesAll k (saplings ss)).filter isNaming).count p =
      ((nameStepsAll block outer next k ss).map asNode).count p := by
  match ss with
  | [] => rfl
  | s :: ss =>
    simp [nameStepsAll, size, Stmt.count_names s block outer next, Stmt.count_namesAll ss block outer (next + s.blocks)]

end

namespace Item

theorem count_names (i : Item) (next k : Nat) (p : NodeId × Tag × Lexeme) :
    ((i.sapling.nodes k).filter isNaming).count p = ((i.nameSteps next k).map asNode).count p := by
  cases i with
  | struct mark tag fields => simp [sapling, structSapling, nameSteps, Decl.filter_nodesAll_field]
  | function d paren params brace body =>
    simp [sapling, paramsSapling, nameSteps, d.filter_nodes k { function := true } globalBlock,
      Decl.filter_nodesAll params next, Stmt.count_namesAll body next [globalBlock] (next + 1), ← Nat.add_assoc]
  | prototype d paren params semicolon =>
    simp [sapling, paramsSapling, nameSteps, d.filter_nodes k { function := true, prototype := true } globalBlock,
      Decl.filter_nodesAll params next]
  | stmt s => exact s.count_names _ _ _ _ p

theorem count_namesAll (is : List Item) (next k : Nat) (p : NodeId × Tag × Lexeme) :
    ((Sapling.nodesAll k (is.map sapling)).filter isNaming).count p = ((nameStepsAll next k is).map asNode).count p := by
  induction is generalizing next k with
  | nil => rfl
  | cons i is ih => simp [nameStepsAll, size, i.count_names next, ih (next + i.blocks)]

end Item

theorem NameStep.Within.of_names (ss : List Sapling) {k : Nat} {steps : List NameStep}
    (h : ∀ p, ((Sapling.nodesAll k ss).filter isNaming).count p = (steps.map asNode).count p) :
    Within k (k + Sapling.sizes ss) steps := by
  intro s hs
  have hnode : (asNode s).1 = s.node := by cases s <;> rfl
  have hmem : asNode s ∈ (Sapling.nodesAll k ss).filter isNaming := by
    rw [← List.count_pos_iff, h, List.count_pos_iff]
    exact List.mem_map_of_mem hs
  have hindex := List.mem_map_of_mem (f := (·.1.index)) (List.mem_filter.mp hmem).1
  rw [Sapling.index_nodesAll, List.mem_range'_1, hnode] at hindex
  exact hindex

theorem Expr.nameSteps_within (e : Expr) (blocks : List Nat) (k : Nat) : Within k (k + e.size) (e.nameSteps blocks k) :=
  .of_names [e.sapling] fun p => by simp [e.filter_nodes blocks]

theorem Expr.nameStepsAll_within (es : List Expr) (blocks : List Nat) (k : Nat) :
    Within k (k + sizes es) (nameStepsAll blocks k es) := by
  rw [← sizes_saplings]
  exact .of_names _ fun p => by rw [filter_nodesAll es blocks]

theorem Decl.paramSteps_within (ds : List Decl) (block k : Nat) : Within k (k + sizes ds) (paramSteps block k ds) := by
  rw [← sizes_saplings ds .declName]
  exact .of_names _ fun p => by rw [filter_nodesAll ds block]

theorem Stmt.nameSteps_within (s : Stmt) (block : Nat) (outer : List Nat) (next k : Nat) :
    Within k (k + s.size) (s.nameSteps block outer next k) :=
  .of_names [s.sapling] fun p => by simp [s.count_names block outer next]

theorem Stmt.nameStepsAll_within (ss : List Stmt) (block : Nat) (outer : List Nat) (next k : Nat) :
    Within k (k + sizes ss) (nameStepsAll block outer next k ss) := by
  rw [← sizes_saplings]
  exact .of_names _ (count_namesAll ss block outer next k)

theorem Item.nameSteps_within (i : Item) (next k : Nat) : Within k (k + i.size) (i.nameSteps next k) :=
  .of_names [i.sapling] fun p => by simp [i.count_names next]

@[simp] def NameStep.isKept : NodeId × Tag × Lexeme → Bool
  | (_, .root, x) => x.text != "<<ROOT>>"
  | (_, .function, x) => x.text != "<<FUNCTION>>"
  | (_, .prototype, x) => x.text != "<<PROTOTYPE>>"
  | _ => true

mutual

theorem Expr.count_lexemes (e : Expr) (k : Nat) (x : Lexeme) :
    (((e.sapling.nodes k).filter isKept).map (·.2.2)).count x = (e.tokens.map Token.lexeme).count x := by
  match e with
  | .name _ | .constant .. | .newStruct .. => simp
  | .unary _ _ e | .newString _ e | .select e _ _ => simp [Expr.count_lexemes e]
  | .binary _ l _ r | .index l _ r => simp [Expr.count_lexemes l, Expr.count_lexemes r]
  | .call _ _ args => simp [Expr.count_lexemesAll args]
  | .newArray element _ e =>
    cases element <;> simp [TypeName.sapling, TypeName.tag, TypeName.lexeme, TypeName.token, Nat.add_right_comm,
      Expr.count_lexemes e]

theorem Expr.count_lexemesAll (es : List Expr) (k : Nat) (x : Lexeme) :
    (((Sapling.nodesAll k (saplings es)).filter isKept).map (·.2.2)).count x = ((tokensAll es).map Token.lexeme).count x := by
  match es with
  | [] => rfl
  | e :: es => simp [Expr.count_lexemes e, Expr.count_lexemesAll es]

end

theorem Decl.count_lexemes (d : Decl) {tag : Tag} (htag : tag = .declName ∨ tag = .field) (k : Nat) (x : Lexeme) :
    ((((d.sapling tag).nodes k).filter isKept).map (·.2.2)).count x = (d.tokens.map Token.lexeme).count x := by
  obtain ⟨base, mark, name⟩ := d
  rcases htag with rfl | rfl <;> cases base <;> cases mark <;>
    simp [sapling, tokens, TypeName.sapling, TypeName.tag, TypeName.lexeme, TypeName.token, Nat.add_left_comm, Nat.add_comm]

theorem Decl.count_lexemesAll (ds : List Decl) {tag : Tag} (htag : tag = .declName ∨ tag = .field) (k : Nat) (x : Lexeme) :
    (((Sapling.nodesAll k (ds.map (·.sapling tag))).filter isKept).map (·.2.2)).count x =
      ((tokensAll ds).map Token.lexeme).count x := by
  induction ds generalizing k with
  | nil => rfl
  | cons d ds ih => simp [tokensAll, d.count_lexemes htag, ih]

mutual

theorem Stmt.count_lexemes (s : Stmt) (k : Nat) (x : Lexeme) :
    (((s.sapling.nodes k).filter isKept).map (·.2.2)).count x = (s.tokens.map Token.lexeme).count x := by
  match s with
  | .block _ body => simp [tokens, Stmt.count_lexemesAll body]
  | .empty _ | .returnVoid _ => rfl
  | .varDecl d _ init => simp [tokens, d.count_lexemes (.inl rfl), init.count_lexemes]
  | .whileLoop _ cond s | .ifThen _ cond s => simp [tokens, cond.count_lexemes, Stmt.count_lexemes s]
  | .ifElse _ cond yes no => simp [tokens, cond.count_lexemes, Stmt.count_lexemes yes, Stmt.count_lexemes no]
  | .returnValue _ e => simp [tokens, e.count_lexemes]
  | .expr e => rw [sapling, tokens, e.count_lexemes]

theorem Stmt.count_lexemesAll (ss : List Stmt) (k : Nat) (x : Lexeme) :
    (((Sapling.nodesAll k (saplings ss)).filter isKept).map (·.2.2)).count x = ((tokensAll ss).map Token.lexeme).count x := by
  match ss with
  | [] => rfl
  | s :: ss => simp [tokensAll, Stmt.count_lexemes s, Stmt.count_lexemesAll ss]

end

namespace Item

theorem count_lexemes (i : Item) (k : Nat) (x : Lexeme) :
    (((i.sapling.nodes k).filter isKept).map (·.2.2)).count x = (i.tokens.map Token.lexeme).count x := by
  cases i with
  | struct mark tag fields => simp [sapling, structSapling, tokens, Decl.count_lexemesAll fields (.inr rfl)]
  | function d paren params brace body =>
    simp [sapling, paramsSapling, tokens, d.count_lexemes (.inl rfl), Decl.count_lexemesAll params (.inl rfl),
      Stmt.count_lexemesAll]
  | prototype d paren params semicolon =>
    simp [sapling, paramsSapling, tokens, d.count_lexemes (.inl rfl), Decl.count_lexemesAll params (.inl rfl)]
  | stmt s => exact s.count_lexemes k x

theorem count_lexemesAll (is : List Item) (k : Nat) (x : Lexeme) :
    (((Sapling.nodesAll k (is.map sapling)).filter isKept).map (·.2.2)).count x =
      ((Program.tokens is).map Token.lexeme).count x := by
  induction is generalizing k with
  | nil => rfl
  | cons i is ih => simp [Program.tokens, i.count_lexemes, ih]

end Item

end Nodes

namespace NameStep

variable {steps steps' : List NameStep}

theorem declared_append : declared (steps ++ steps') = declared steps ++ declared steps' := List.filterMap_append

@[simp] theorem references_append : references (steps ++ steps') = references steps ++ references steps' :=
  List.filterMap_append

@[simp] theorem references_declare {d : NameDecl} : references (.declare d :: steps) = references steps := rfl

theorem references_subset (h : ∀ s ∈ steps, s ∈ steps') : ∀ x ∈ references steps, x ∈ references steps' := by
  intro x hx
  obtain ⟨s, hs, hx⟩ := List.mem_filterMap.mp hx
  exact List.mem_filterMap.mpr ⟨s, h s hs, hx⟩

theorem references_sublist : ((references steps).map (·.1)).Sublist (steps.map lexeme) := by
  induction steps with
  | nil => exact .refl _
  | cons s steps ih =>
    cases s with
    | declare d => exact ih.cons _
    | refer blocks x n => exact ih.cons_cons x

end NameStep

mutual

theorem Expr.refer_of_mem (e : Expr) {blocks : List Nat} {k : Nat} :
    ∀ s ∈ e.nameSteps blocks k, ∃ x n, s = .refer blocks x n := by
  match e with
  | .name _ | .constant .. | .newStruct .. => simp [nameSteps]
  | .unary _ _ e | .newString _ e | .select e _ _ | .newArray _ _ e =>
    rw [nameSteps]
    exact Expr.refer_of_mem e
  | .binary _ l _ r | .index l _ r =>
    rw [nameSteps]
    exact List.forall_mem_append.mpr ⟨Expr.refer_of_mem l, Expr.refer_of_mem r⟩
  | .call _ _ args =>
    rw [nameSteps]
    exact List.forall_mem_cons.mpr ⟨⟨_, _, rfl⟩, Expr.refer_of_memAll args⟩

theorem Expr.refer_of_memAll (es : List Expr) {blocks : List Nat} {k : Nat} :
    ∀ s ∈ nameStepsAll blocks k es, ∃ x n, s = .refer blocks x n := by
  match es with
  | [] => exact List.forall_mem_nil _
  | e :: es => exact List.forall_mem_append.mpr ⟨Expr.refer_of_mem e, Expr.refer_of_memAll es⟩

end

theorem Expr.declared_nameSteps (e : Expr) (blocks : List Nat) (k : Nat) : declared (e.nameSteps blocks k) = [] := by
  refine List.filterMap_eq_nil_iff.mpr fun s hs => ?_
  obtain ⟨x, n, rfl⟩ := e.refer_of_mem s hs
  rfl

theorem Program.mem_asNode_iff {t : Tree} {items : List Item} {p : NodeId × Tag × Lexeme}
    (h : t.Shows none 0 (sapling items)) (hsize : t.size = (sapling items).size) :
    p ∈ (nameSteps items).map asNode ↔ (∃ i < t.size, t.entry i = p) ∧ isNaming p = true := by
  have hnodes := congrArg (List.filter isNaming) h.nodes_eq
  have hcount := Item.count_namesAll items (globalBlock + 1) 1 p
  simp only [sapling, Sapling.nodes, Sapling.nodesAll, Sapling.sizes, List.nil_append] at hnodes
  rw [List.filter_cons_of_neg (by simp)] at hnodes
  rw [nameSteps, ← List.count_pos_iff, ← hcount, List.count_pos_iff, hnodes, List.mem_filter, List.mem_map, ← sapling, ← hsize]
  simp [List.mem_range'_1]

theorem Program.exists_refer {t : Tree} {items : List Item} {n : NodeId} (h : t.Shows none 0 (sapling items))
    (hsize : t.size = (sapling items).size) (hn : n.index < t.size) (htag : t.tag n = .name) :
    ∃ blocks, .refer blocks (t.lexeme n) n ∈ nameSteps items := by
  have hmem := (mem_asNode_iff h hsize (p := t.entry n.index)).mpr ⟨⟨_, hn, rfl⟩, by simp [Tree.entry, htag]⟩
  obtain ⟨step, hstep, heq⟩ := List.mem_map.mp hmem
  rw [Tree.entry, htag] at heq
  cases step with
  | declare d => cases congrArg (·.2.1) heq
  | refer blocks x m =>
    cases heq
    exact ⟨blocks, hstep⟩

namespace Item

theorem nameSteps_of_mem_placed {is : List Item} {next k j : Nat} {i : Item} (h : (j, i) ∈ placed k is) :
    ∃ number, ∀ s ∈ i.nameSteps number j, s ∈ nameStepsAll next k is := by
  induction is generalizing next k with
  | nil => cases h
  | cons i' is ih =>
    rw [nameStepsAll]
    rcases List.mem_cons.mp h with heq | h
    · cases heq
      exact ⟨next, fun s hs => List.mem_append_left _ hs⟩
    · obtain ⟨number, hnumber⟩ := ih h
      exact ⟨number, fun s hs => List.mem_append_right _ (hnumber s hs)⟩

end Item

namespace Program

variable {name text : String} {s : TokenStream} {root : NodeId} {t : Tree}

theorem nodup_lexemes (hs : TokenStream.ofText name text = .ok s) (h : Tree.empty.parse s.tokens = (.ok root, t)) :
    ((nameSteps (ofTokens s.tokens).items).map lexeme).Nodup := by
  have hlocs := nodup_locs_tokens hs h
  generalize (ofTokens s.tokens).items = items at hlocs ⊢
  have htokens : ((tokens items).map Token.lexeme).Nodup := by
    refine List.Nodup.of_map Lexeme.loc ?_
    rwa [List.map_map]
  have hsteps := List.perm_iff_count.mpr (Item.count_namesAll items (globalBlock + 1) 1)
  have hkept := List.perm_iff_count.mpr (Item.count_lexemesAll items 1)
  have hlexeme : (nameSteps items).map lexeme = ((nameSteps items).map asNode).map (·.2.2) := by
    rw [List.map_map]
    exact List.map_congr_left fun s _ => by cases s <;> rfl
  rw [hlexeme, nameSteps, ← (hsteps.map _).nodup_iff]
  refine (hkept.nodup_iff.mpr htokens).sublist (List.Sublist.map _ (List.monotone_filter_right _ fun p hp => ?_))
  unfold isNaming at hp
  split at hp <;> simp_all

theorem nodup_references (hs : TokenStream.ofText name text = .ok s) (h : Tree.empty.parse s.tokens = (.ok root, t)) :
    ((references (nameSteps (ofTokens s.tokens).items)).map (·.1)).Nodup :=
  (nodup_lexemes hs h).sublist references_sublist

end Program

end OcCompiler
