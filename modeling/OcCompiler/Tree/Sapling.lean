import OcCompiler.Location
import OcCompiler.Tag

/-!
Saplings: subtrees whose nodes have no numbers yet. A sapling fixes the order in which its nodes are made, because
numbers are given in that order. A node is made between two groups of its children.
-/

namespace OcCompiler

inductive Sapling where
  /-- A node whose children are `before ++ after`. It is made after the first group and before the second. -/
  | node (tag : Tag) (lexeme : Lexeme) (before after : List Sapling)
  /-- A node that was needed for a while and is already released. It is nobody's child. -/
  | spent (lexeme : Lexeme)
deriving Repr, Inhabited

namespace Sapling

def leaf (tag : Tag) (lexeme : Lexeme) : Sapling := .node tag lexeme [] []

end Sapling

end OcCompiler
