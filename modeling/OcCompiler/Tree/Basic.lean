import OcCompiler.Fault

/-!
The program tree as a numbered store. Nodes are numbered in the order in which they are made; node 1 is the root.
Parent and child lists are changed together.
-/

namespace OcCompiler

structure NodeId where
  index : Nat
deriving DecidableEq, Repr, Inhabited

namespace NodeId

def root : NodeId := ⟨0⟩

def number (n : NodeId) : Nat := n.index + 1

def ofNumber? : Nat → Option NodeId
  | 0 => none
  | n + 1 => some ⟨n⟩

def text (n : NodeId) : String := "NodeRef(" ++ n.number.repr ++ ")"

end NodeId

structure Node where
  tag : Tag
  lexeme : Lexeme
  children : List NodeId := []
  parent : Option NodeId := none
deriving DecidableEq, Repr, Inhabited

def Node.absent : Node := { tag := .released, lexeme := ⟨"", {}⟩ }

structure Tree where
  nodes : Array Node
deriving DecidableEq, Repr, Inhabited

/-- Why two nodes cannot become parent and child. -/
inductive LinkError where
  | alreadyAdopted (child parent : NodeId)
  | selfAdoption (n : NodeId)
  | released (n : NodeId)
deriving DecidableEq, Repr, Inhabited

def LinkError.message : LinkError → String
  | .alreadyAdopted child parent => "node " ++ child.text ++ " is already adopted by " ++ parent.text
  | .selfAdoption n => "node " ++ n.text ++ " cannot adopt itself"
  | .released n => "node " ++ n.text ++ " has been released"

/-- What a change of the tree leads to. A change of several steps that fails keeps the steps before the failure. -/
structure Edit where
  outcome : Except LinkError NodeId
  tree : Tree
  released : List NodeId := []

structure DeclParts where
  base : NodeId
  name : NodeId
  isArray : Bool
deriving DecidableEq, Repr, Inhabited

namespace Tree

def empty : Tree := ⟨#[{ tag := .root, lexeme := ⟨"<<ROOT>>", {}⟩ }]⟩

def size (t : Tree) : Nat := t.nodes.size

def node (t : Tree) (n : NodeId) : Node := t.nodes.getD n.index .absent

def tag (t : Tree) (n : NodeId) : Tag := (t.node n).tag

def lexeme (t : Tree) (n : NodeId) : Lexeme := (t.node n).lexeme

def text (t : Tree) (n : NodeId) : String := (t.lexeme n).text

def loc (t : Tree) (n : NodeId) : Location := (t.lexeme n).loc

def children (t : Tree) (n : NodeId) : List NodeId := (t.node n).children

def parent (t : Tree) (n : NodeId) : Option NodeId := (t.node n).parent

def require (t : Tree) (n : NodeId) : Except Fault Unit :=
  if n.index < t.size then .ok () else .error (.outOfRange t.size n.index)

/-! ### Elementary changes -/

def push (t : Tree) (tag : Tag) (lexeme : Lexeme) : NodeId × Tree :=
  (⟨t.size⟩, ⟨t.nodes.push { tag, lexeme }⟩)

def modify (t : Tree) (n : NodeId) (f : Node → Node) : Tree := ⟨t.nodes.modify n.index f⟩

theorem node_push (t : Tree) (tag : Tag) (lexeme : Lexeme) (m : NodeId) :
    (t.push tag lexeme).2.node m = if m = ⟨t.size⟩ then { tag, lexeme } else t.node m := by
  obtain ⟨j⟩ := m
  simp only [node, push, size, NodeId.mk.injEq, Array.getD_eq_getD_getElem?, Array.getElem?_push]
  split <;> rfl

@[simp] theorem size_push (t : Tree) (tag : Tag) (lexeme : Lexeme) : (t.push tag lexeme).2.size = t.size + 1 := by
  simp [size, push]

theorem node_modify {t : Tree} {n : NodeId} (inside : n.index < t.size) (f : Node → Node) (m : NodeId) :
    (t.modify n f).node m = if m = n then f (t.node n) else t.node m := by
  obtain ⟨i⟩ := n
  obtain ⟨j⟩ := m
  simp only [node, modify, NodeId.mk.injEq, Array.getD_eq_getD_getElem?, Array.getElem?_modify]
  by_cases same : j = i
  · subst same
    obtain ⟨x, found⟩ : ∃ x, t.nodes[j]? = some x := ⟨_, Array.getElem?_eq_getElem inside⟩
    simp [found]
  · simp [same, Ne.symm same]

@[simp] theorem size_modify (t : Tree) (n : NodeId) (f : Node → Node) : (t.modify n f).size = t.size := by
  simp [size, modify]

def setTag (t : Tree) (n : NodeId) (tag : Tag) : Tree := t.modify n fun node => { node with tag }

def setParent (t : Tree) (n : NodeId) (parent : Option NodeId) : Tree := t.modify n fun node => { node with parent }

def setChildren (t : Tree) (n : NodeId) (children : List NodeId) : Tree :=
  t.modify n fun node => { node with children }

def link (t : Tree) (parent child : NodeId) : Tree :=
  (t.setParent child (some parent)).modify parent fun node => { node with children := node.children ++ [child] }

def detach (t : Tree) (n : NodeId) : Tree :=
  match t.parent n with
  | none => t
  | some p => (t.setParent n none).modify p fun node => { node with children := node.children.filter (· ≠ n) }

/-! ### Building -/

/-- Makes `child` the last child of `parent`, if it has no parent yet and neither of the two is released. -/
def adopt (t : Tree) (parent child : NodeId) : Edit :=
  if parent = child then { outcome := .error (.selfAdoption child), tree := t }
  else if t.tag parent = .released then { outcome := .error (.released parent), tree := t }
  else if t.tag child = .released then { outcome := .error (.released child), tree := t }
  else
    match t.parent child with
    | some existing => { outcome := .error (.alreadyAdopted child existing), tree := t }
    | none => { outcome := .ok parent, tree := t.link parent child }

def adopt2 (t : Tree) (parent left right : NodeId) : Edit :=
  let first := t.adopt parent left
  match first.outcome with
  | .ok _ => first.tree.adopt parent right
  | .error _ => first

def adoptAs (t : Tree) (parent child : NodeId) (tag : Tag) : Edit :=
  let edit := t.adopt parent child
  match edit.outcome with
  | .ok _ => { edit with tree := edit.tree.setTag parent tag }
  | .error _ => edit

/-! ### Releasing -/

/-- Releases a node below which no path is longer than `depth`. The last child goes first, and a node goes after all
    its children. Also gives the nodes in the order in which they were released. -/
def releaseWithin : Nat → Tree → NodeId → List NodeId × Tree
  | 0, t, _ => ([], t)
  | depth + 1, t, n =>
    if t.tag n = .released then ([], t)
    else
      let below := (t.children n).reverse.foldl
        (fun (gone, t) child =>
          let (more, t) := releaseWithin depth (t.setParent child none) child
          (gone ++ more, t))
        ([], t.setChildren n [])
      (below.1 ++ [n], (below.2.detach n).setTag n .released)

def release (t : Tree) (n : NodeId) : List NodeId × Tree := releaseWithin (t.size + 1) t n

/-- Joins a declaration and its parameters to a function or a prototype. The terminator is the function's body, or a
    semicolon, which makes a prototype and is released. -/
def adoptFunction (t : Tree) (decl params terminator : NodeId) : Edit :=
  if t.tag terminator = .semicolon then
    let (root, t) := t.push .prototype ⟨"<<PROTOTYPE>>", t.loc decl⟩
    let edit := t.adopt2 root decl params
    match edit.outcome with
    | .ok _ =>
      let (released, t) := edit.tree.release terminator
      { outcome := .ok root, tree := t, released }
    | .error _ => edit
  else
    let (root, t) := t.push .function ⟨"<<FUNCTION>>", t.loc decl⟩
    let edit := t.adopt2 root decl params
    match edit.outcome with
    | .ok _ => edit.tree.adopt root terminator
    | .error _ => edit

/-! ### Looking -/

/-- The child at a position. Every node of a well-formed tree has the children that its tag calls for. -/
def child (t : Tree) (n : NodeId) (index : Nat) : Except Fault NodeId :=
  match (t.children n)[index]? with
  | some c => .ok c
  | none => .error (.missingChild (t.tag n) (t.loc n) index)

def declParts (t : Tree) (decl : NodeId) : Except Fault DeclParts :=
  if t.tag decl = .array then do return ⟨← t.child decl 0, ← t.child decl 1, true⟩
  else do return ⟨decl, ← t.child decl 0, false⟩

def walkWithin (t : Tree) : Nat → NodeId → List NodeId
  | 0, _ => []
  | depth + 1, n => n :: (t.children n).flatMap (walkWithin t depth)

def walk (t : Tree) (n : NodeId) : List NodeId := t.walkWithin t.size n

end Tree

/-- Refuses a change that failed at a node that does not exist. Such a node looks released, but never was there. -/
def Edit.require (e : Edit) : Except Fault Unit :=
  match e.outcome with
  | .error (.released n) => e.tree.require n
  | _ => .ok ()

end OcCompiler
