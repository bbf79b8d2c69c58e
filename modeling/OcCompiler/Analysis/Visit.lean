import OcCompiler.Analysis.Check
import OcCompiler.Analysis.Resolve

/-! The walk of an analysis: a node is entered, its children are visited in order, and then it is left and checked. -/

namespace OcCompiler.Analysis

def visitWithin (t : Tree) : Nat → NodeId → Analysis → Except Fault Analysis
  | 0, _, a => .ok a
  | depth + 1, n, a => do
    let (opened, a) ← a.enter t n
    let a ← (t.children n).foldlM (fun a child => visitWithin t depth child a) a
    let a ← a.leave t n opened
    a.check t n

def visit (t : Tree) (n : NodeId) (a : Analysis) : Except Fault Analysis := visitWithin t t.size n a

def ofTree (t : Tree) (log : Log) : Except Fault Analysis := visit t .root { log }

end OcCompiler.Analysis
