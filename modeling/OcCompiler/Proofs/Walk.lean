import OcCompiler.Analysis.Visit
import OcCompiler.Proofs.Layout

/-! The analysis as a recursion on the program. A construct whose nodes start at number `k` is analyzed by `analyze k`,
    which needs no tree; `Proofs/WalkAgrees.lean` shows that the walk from node to node comes to the same. -/

namespace OcCompiler

namespace Expr

mutual

/-- Analyzes an expression whose first node has number `k`. -/
def analyze (k : Nat) : Expr → Analysis → Analysis
  | .name x, a => (a.place ⟨k⟩ .name).refer ⟨k⟩ x
  | .constant c _, a =>
    let a := a.place ⟨k⟩ (.constant c)
    if c = .literal .string then { a with queues.strings := a.queues.strings.push ⟨k⟩ } else a
  | .unary op mark operand, a =>
    let a := operand.analyze (k + 1) (a.place ⟨k⟩ (.unary op))
    a.apply ⟨k⟩ (a.operandVerdict (Typing.operand op) (operand.topNode (k + 1)) mark)
  | .binary op left mark right, a =>
    let n : NodeId := ⟨k + left.size⟩
    let a := right.analyze (k + left.size + 1) (left.analyze k (a.place n (.binary op)))
    a.apply n (a.binaryVerdict op (left.topNode k) (right.topNode (k + left.size + 1)) mark)
  | .call callee _ args, a =>
    let a := analyzeAll (k + 2) args (((a.place ⟨k + 1⟩ .call).place ⟨k⟩ .name).refer ⟨k⟩ callee)
    a.apply ⟨k + 1⟩ (a.callVerdict ⟨k⟩ (topNodes (k + 2) args) callee)
  | .index base bracket subscript, a =>
    let n : NodeId := ⟨k + base.size⟩
    let a := subscript.analyze (k + base.size + 1) (base.analyze k (a.place n .index))
    a.apply n (a.indexVerdict (base.topNode k) (subscript.topNode (k + base.size + 1)) bracket)
  | .select object dot field, a =>
    let n : NodeId := ⟨k + object.size⟩
    let f : NodeId := ⟨k + object.size + 1⟩
    let a := (object.analyze k (a.place n .select)).place f .field
    (a.markField f).apply n (a.selectVerdict (object.topNode k) dot field)
  | .newStruct _ tag, a =>
    let a := (a.place ⟨k⟩ .newStruct).place ⟨k + 1⟩ .typeName
    (a.useStruct ⟨k + 1⟩ tag false).setAttrs ⟨k⟩ (.typed (.struct tag.text) { vreg := true })
  | .newString mark size, a =>
    let a := size.analyze (k + 1) (a.place ⟨k⟩ .newString)
    a.apply ⟨k⟩ (a.operandVerdict .int (size.topNode (k + 1)) mark)
  | .newArray element mark size, a =>
    let a := size.analyze (k + 2) ((a.place ⟨k + 1⟩ .newArray).place ⟨k⟩ element.tag)
    let a := match element with
      | .struct tag => a.useStruct ⟨k⟩ tag false
      | .scalar _ _ => a
    a.apply ⟨k + 1⟩ (a.newArrayVerdict element.base (size.topNode (k + 2)) mark)

def analyzeAll (k : Nat) : List Expr → Analysis → Analysis
  | [], a => a
  | e :: es, a => analyzeAll (k + e.size) es (e.analyze k a)

end

end Expr

namespace Decl

/-- Places the nodes of a declaration, without defining its name. -/
def place (k : Nat) (nameTag : Tag) (d : Decl) (a : Analysis) : Analysis :=
  match d.mark with
  | some _ => ((a.place ⟨k + 2⟩ .array).place ⟨k⟩ d.base.tag).place ⟨k + 1⟩ nameTag
  | none => (a.place ⟨k⟩ d.base.tag).place ⟨k + 1⟩ nameTag

def placeAll (k : Nat) (nameTag : Tag) : List Decl → Analysis → Analysis
  | [], a => a
  | d :: ds, a => placeAll (k + d.size) nameTag ds (d.place k nameTag a)

end Decl

/-- Puts a variable that was declared at a node into the queue of the global ones, if it is one. -/
def Analysis.queueGlobal (n : NodeId) (a : Analysis) : Analysis :=
  if a.symbols.currentBlock = globalBlock then { a with queues.globals := a.queues.globals.push n } else a

namespace Stmt

mutual

/-- Analyzes a statement whose first node has number `k`. -/
def analyze (k : Nat) : Stmt → Analysis → Analysis
  | .block _ body, a =>
    let (number, a) := a.enterBlock
    (analyzeAll (k + 1) body (a.setBlock ⟨k⟩ number)).exitBlock
  | .empty _, a => a.place ⟨k⟩ .semicolon
  | .varDecl d equals init, a =>
    let n : NodeId := ⟨k + d.size⟩
    let a := init.analyze (k + d.size + 1) (d.place k .declName (a.place n .varDecl))
    let a := (a.define (d.declaration k) { var := true, lvalue := true }).2.queueGlobal n
    a.apply n (a.variableVerdict ⟨k + 1⟩ (init.topNode (k + d.size + 1)) d.name equals)
  | .whileLoop mark cond body, a =>
    let a := body.analyze (k + 1 + cond.size) (cond.analyze (k + 1) (a.place ⟨k⟩ .whileLoop))
    a.apply ⟨k⟩ (a.operandVerdict .bool (cond.topNode (k + 1)) mark)
  | .ifThen mark cond yes, a =>
    let a := yes.analyze (k + 1 + cond.size) (cond.analyze (k + 1) (a.place ⟨k⟩ .ifThen))
    a.apply ⟨k⟩ (a.operandVerdict .bool (cond.topNode (k + 1)) mark)
  | .ifElse mark cond yes no, a =>
    let a := yes.analyze (k + 1 + cond.size) (cond.analyze (k + 1) (a.place ⟨k⟩ .ifElse))
    let a := no.analyze (k + 1 + cond.size + yes.size) a
    a.apply ⟨k⟩ (a.operandVerdict .bool (cond.topNode (k + 1)) mark)
  | .returnValue _ value, a => value.analyze (k + 1) (a.place ⟨k⟩ .returnValue)
  | .returnVoid _, a => a.place ⟨k⟩ .returnVoid
  | .expr e, a => e.analyze k a

def analyzeAll (k : Nat) : List Stmt → Analysis → Analysis
  | [], a => a
  | s :: ss, a => analyzeAll (k + s.size) ss (s.analyze k a)

end

mutual

/-- The return statements in a statement whose first node has number `k`, in source order. -/
def returns (k : Nat) : Stmt → List Analysis.ReturnSite
  | .block _ body => returnsAll (k + 1) body
  | .whileLoop _ cond body => body.returns (k + 1 + cond.size)
  | .ifThen _ cond yes => yes.returns (k + 1 + cond.size)
  | .ifElse _ cond yes no => yes.returns (k + 1 + cond.size) ++ no.returns (k + 1 + cond.size + yes.size)
  | .returnValue mark value => [⟨mark, some (value.topNode (k + 1))⟩]
  | .returnVoid mark => [⟨mark, none⟩]
  | .empty _ | .varDecl .. | .expr _ => []

def returnsAll (k : Nat) : List Stmt → List Analysis.ReturnSite
  | [] => []
  | s :: ss => s.returns k ++ returnsAll (k + s.size) ss

end

def isVarDecl : Stmt → Bool
  | .varDecl .. => true
  | _ => false

end Stmt

namespace Analysis

def defineFields (struct : SymbolId) (depth : Nat) : List Declaration → Analysis → Analysis
  | [], a => a
  | d :: ds, a =>
    let (field, a) := a.define d { field := true }
    defineFields struct depth ds (a.addField struct depth field.symbol)

/-- Defines a struct with its fields and queues it, unless its tag has a body already. -/
def defineStructAs (n name : NodeId) (tag : Lexeme) (fields : List Declaration) (a : Analysis) : Analysis :=
  match a.openStruct name tag with
  | (none, a) => a
  | (some id, a) =>
    let a := defineFields id (a.symbols.depth + 1) fields a
    { a with queues.structs := a.queues.structs.push n }

/-- What the typing rules say of a function whose name and body are settled. -/
def functionVerdict (a : Analysis) (nameNode : NodeId) (name : Lexeme) (sites : List ReturnSite) : Verdict :=
  match a.typeOf nameNode with
  | none => {}
  | some declared => { reports := a.functionReports name sites declared }

end Analysis

namespace Item

/-- Places the nodes of a function's declaration and parameters, which are defined before. -/
def placeHead (k : Nat) (d : Decl) (params : List Decl) (a : Analysis) : Analysis :=
  Decl.placeAll (k + d.size + 1) .declName params ((d.place k .declName a).place ⟨k + d.size⟩ .paramList)

def analyze (k : Nat) : Item → Analysis → Analysis
  | .struct _ tag fields, a =>
    let a := (a.place ⟨k⟩ .struct).defineStructAs ⟨k⟩ ⟨k + 1⟩ tag (Decl.declarations (k + 2) fields)
    Decl.placeAll (k + 2) .field fields (a.place ⟨k + 1⟩ .typeName)
  | .function d _ params _ body, a =>
    let paramList : NodeId := ⟨k + d.size⟩
    let block : NodeId := ⟨k + d.size + 1 + Decl.sizes params⟩
    let n : NodeId := ⟨k + d.size + 1 + Decl.sizes params + 1 + Stmt.sizes body⟩
    let a := (a.place n .function).openFunction (d.declaration k) paramList
      (Decl.declarations (k + d.size + 1) params) { function := true }
    let a := if body.any Stmt.isVarDecl then a.setSymbols a.symbols.recordBlank else a
    let a := { a with queues.functions := a.queues.functions.push n }
    let a := placeHead k d params a
    let a := Stmt.analyzeAll (block.index + 1) body (a.setBlock block a.symbols.currentBlock)
    let a := a.exitBlock
    a.apply n (a.functionVerdict ⟨k + 1⟩ d.name (Stmt.returnsAll (block.index + 1) body))
  | .prototype d _ params _, a =>
    let paramList : NodeId := ⟨k + d.size⟩
    let n : NodeId := ⟨k + d.size + 1 + Decl.sizes params + 1⟩
    let a := (a.place n .prototype).openFunction (d.declaration k) paramList
      (Decl.declarations (k + d.size + 1) params) { function := true, prototype := true }
    (placeHead k d params a).exitBlock
  | .stmt s, a => s.analyze k a

def analyzeAll (k : Nat) : List Item → Analysis → Analysis
  | [], a => a
  | i :: is, a => analyzeAll (k + i.size) is (i.analyze k a)

end Item

def Program.analyze (items : List Item) (log : Log) : Analysis :=
  Item.analyzeAll 1 items (Analysis.place .root .root { log })

end OcCompiler
