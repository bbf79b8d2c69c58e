import OcCompiler.Analysis.Visit
import OcCompiler.Oil.OfAnalysis
import OcCompiler.Token.Stream
import OcCompiler.Tree.Parse

/-!
The compilation of one text. It goes through four phases and may be stopped after any of them. Only a syntax error ends
it early: other complaints are collected, and if there are any, no oil is made.
-/

namespace OcCompiler

/-- What a compilation goes through, in this order. -/
inductive Phase where
  | lex
  | parse
  | analyze
  | emit
deriving DecidableEq, Repr, Inhabited

def Phase.rank : Phase → Nat
  | .lex => 0
  | .parse => 1
  | .analyze => 2
  | .emit => 3

/-- A syntax error with the file and the line in which it was found. -/
structure SyntaxError where
  file : String
  line : Nat
  error : ParseError
deriving DecidableEq, Repr, Inhabited

def SyntaxError.message (e : SyntaxError) : String := e.file ++ ": " ++ e.line.repr ++ ": " ++ e.error.message

/-- What a compilation came to. What was not reached is missing. -/
structure Compilation where
  tokens : TokenStream
  tree : Option (Except SyntaxError Tree) := none
  analysis : Option Analysis := none
  oil : Option Oil.Module := none

namespace Compilation

/-- Reads the tokens as a tree. An error is said to be in the file that its location speaks of. -/
def parse (tokens : TokenStream) : Except SyntaxError Tree :=
  match Tree.empty.parse tokens.tokens with
  | (.ok _, tree) => .ok tree
  | (.error e, _) => .error ⟨(tokens.files.name? e.loc.file).getD tokens.fileName, e.loc.line, e⟩

def oilOf (tree : Tree) (a : Analysis) : Except Fault (Option Oil.Module) :=
  if a.log.isEmpty then do return some (← Oil.Module.ofAnalysis tree a 1).1 else .ok none

def ofText (name text : String) (last : Phase) : Except Fault Compilation := do
  let tokens ← TokenStream.ofText name text
  if last.rank < Phase.parse.rank then return { tokens }
  else match parse tokens with
    | .error e => return { tokens, tree := some (.error e) }
    | .ok tree =>
      if last.rank < Phase.analyze.rank then return { tokens, tree := some (.ok tree) }
      else
        let analysis ← Analysis.ofTree tree tokens.errors.toArray
        let oil ← if last.rank < Phase.emit.rank then .ok none else oilOf tree analysis
        return { tokens, tree := some (.ok tree), analysis := some analysis, oil }

def log (c : Compilation) : Log :=
  match c.analysis with
  | some a => a.log
  | none => c.tokens.errors.toArray

def syntaxError? (c : Compilation) : Option SyntaxError :=
  match c.tree with
  | some (.error e) => some e
  | _ => none

def tree? (c : Compilation) : Option Tree := c.tree.bind Except.toOption

def tokenListing (c : Compilation) : String := c.tokens.listing

def rawTree? (c : Compilation) : Option String := c.tree?.map Tree.dump

def decoratedTree? (c : Compilation) : Option String := do
  let tree ← c.tree?
  let a ← c.analysis
  return a.dump tree

def symbolListing? (c : Compilation) : Option String := c.analysis.map (·.symbols.renderListing)

def oilText? (c : Compilation) : Option String := c.oil.map Oil.Module.text

end Compilation

end OcCompiler
