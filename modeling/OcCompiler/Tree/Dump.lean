import OcCompiler.Text.Padding
import OcCompiler.Tree.Basic

/-! Tree dumps: one line for each node, each before its children, with a mark for each level. -/

namespace OcCompiler.Tree

/-- The nodes that a dump shows, each with its level, in a subtree with no path longer than `depth`. Released nodes
    are left out with all below them. -/
def outlineWithin (t : Tree) : Nat → Nat → NodeId → List (Nat × NodeId)
  | 0, _, _ => []
  | depth + 1, level, n =>
    if t.tag n = .released then []
    else (level, n) :: (t.children n).flatMap (outlineWithin t depth (level + 1))

def outline (t : Tree) : List (Nat × NodeId) := t.outlineWithin t.size 0 .root

def rawLine (t : Tree) (n : NodeId) : String :=
  (t.tag n).text ++ " \"" ++ t.text n ++ "\" (" ++ (t.loc n).text ++ ")"

def dumpWith (t : Tree) (line : NodeId → String) : String :=
  String.join (t.outline.map fun (level, n) => Text.repeated level "|  " ++ line n ++ "\n")

def dump (t : Tree) : String := t.dumpWith t.rawLine

end OcCompiler.Tree
