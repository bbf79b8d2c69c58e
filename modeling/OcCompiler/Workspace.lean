import OcCompiler.Analysis.Visit
import OcCompiler.Oil.OfAnalysis
import OcCompiler.Tree.Parse

/-!
A tree and what is known of it, side by side. The tree may be changed between two analyses of its parts; a node that is
released loses what was known of it. A step at a node that does not exist is a fault.
-/

namespace OcCompiler

structure Workspace where
  tree : Tree := .empty
  analysis : Analysis := {}
deriving Inhabited

namespace Workspace

def setTree (w : Workspace) (tree : Tree) : Workspace := { w with tree }

def setAnalysis (w : Workspace) (analysis : Analysis) : Workspace := { w with analysis }

/-- Takes over a change of the tree, even one that failed halfway. Only a node that does not exist is a fault. -/
def edit (w : Workspace) (e : Edit) : Except Fault (Except LinkError NodeId × Workspace) := do
  e.require
  return (e.outcome, { tree := e.tree, analysis := w.analysis.forget e.released })

/-- Gives a result that is about a node, which has to exist. -/
def about {α : Type} (w : Workspace) (n : NodeId) (result : Except Fault α) : Except Fault α := do
  w.tree.require n
  result

/-- Joins a function or a prototype. Its declaration and its terminator are looked at before anything is changed. -/
def adoptFunction (w : Workspace) (decl params terminator : NodeId) :
    Except Fault (Except LinkError NodeId × Workspace) :=
  w.about decl <| w.about terminator <| w.edit (w.tree.adoptFunction decl params terminator)

def setTag (w : Workspace) (n : NodeId) (tag : Tag) : Except Fault Workspace :=
  w.about n <| .ok (w.setTree (w.tree.setTag n tag))

def release (w : Workspace) (n : NodeId) : Nat × Workspace :=
  let (released, tree) := w.tree.release n
  (released.length, { tree, analysis := w.analysis.forget released })

def releaseAt (w : Workspace) (n : NodeId) : Except Fault (Nat × Workspace) := w.about n <| .ok (w.release n)

def declParts (w : Workspace) (decl : NodeId) : Except Fault DeclParts := w.about decl <| w.tree.declParts decl

def child (w : Workspace) (n : NodeId) (index : Nat) : Except Fault NodeId := w.about n <| w.tree.child n index

def walk (w : Workspace) (n : NodeId) : Except Fault (List NodeId) := w.about n <| .ok (w.tree.walk n)

def parse (w : Workspace) (tokens : List Token) : Except ParseError NodeId × Workspace :=
  let (outcome, tree) := w.tree.parse tokens
  (outcome, w.setTree tree)

def decorate (w : Workspace) (n : NodeId) (attrs : Attributes) (block : Nat) : Except Fault Workspace :=
  w.about n <| .ok (w.setAnalysis (w.analysis.decorate n { w.analysis.decoration n with attrs, block }))

def enter (w : Workspace) (n : NodeId) : Except Fault (Bool × Workspace) :=
  w.about n <| (w.analysis.enter w.tree n).map fun (opened, a) => (opened, w.setAnalysis a)

def analyze (w : Workspace) (step : Tree → Analysis → Except Fault Analysis) : Except Fault Workspace := do
  return w.setAnalysis (← step w.tree w.analysis)

/-- A part of the analysis that is done at a node. -/
def analyzeAt (w : Workspace) (n : NodeId) (step : Tree → NodeId → Analysis → Except Fault Analysis) :
    Except Fault Workspace :=
  w.about n <| w.analyze (step · n)

def emit (w : Workspace) (start : Nat) : Except Fault (Oil.Module × Nat) :=
  Oil.Module.ofAnalysis w.tree w.analysis start

def dump (w : Workspace) : String := w.analysis.dump w.tree

end Workspace

end OcCompiler
