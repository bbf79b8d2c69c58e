import OcCompiler.Tree.Sapling

/-!
Programs: what a token list says by the grammar. Every construct keeps the lexemes that name it or mark its place, and
has a sapling, which says which nodes stand for it in the tree.
-/

namespace OcCompiler

/-- The type in a declaration, without an array mark. -/
inductive TypeName where
  | scalar (s : Scalar) (lexeme : Lexeme)
  | struct (tag : Lexeme)
deriving DecidableEq, Repr, Inhabited

namespace TypeName

def tag : TypeName → Tag
  | .scalar s _ => .scalar s
  | .struct _ => .typeName

def lexeme : TypeName → Lexeme
  | .scalar _ lexeme => lexeme
  | .struct tag => tag

def sapling (t : TypeName) : Sapling := .leaf t.tag t.lexeme

end TypeName

structure Decl where
  base : TypeName
  mark : Option Lexeme
  name : Lexeme
deriving DecidableEq, Repr, Inhabited

namespace Decl

def loc (d : Decl) : Location := (d.mark.getD d.base.lexeme).loc

def sapling (d : Decl) (nameTag : Tag) : Sapling :=
  match d.mark with
  | some mark => .node .array mark [d.base.sapling, .leaf nameTag d.name] []
  | none => .node d.base.tag d.base.lexeme [] [.leaf nameTag d.name]

end Decl

inductive Expr where
  | name (x : Lexeme)
  | constant (c : Constant) (lexeme : Lexeme)
  | unary (op : UnaryOp) (mark : Lexeme) (operand : Expr)
  | binary (op : BinaryOp) (left : Expr) (mark : Lexeme) (right : Expr)
  | call (callee paren : Lexeme) (args : List Expr)
  | index (base : Expr) (bracket : Lexeme) (subscript : Expr)
  | select (object : Expr) (dot field : Lexeme)
  | newStruct (mark tag : Lexeme)
  | newString (mark : Lexeme) (size : Expr)
  | newArray (element : TypeName) (mark : Lexeme) (size : Expr)
deriving Repr, Inhabited

namespace Expr

mutual

def sapling : Expr → Sapling
  | .name x => .leaf .name x
  | .constant c lexeme => .leaf (.constant c) lexeme
  | .unary op mark operand => .node (.unary op) mark [] [operand.sapling]
  | .binary op left mark right => .node (.binary op) mark [left.sapling] [right.sapling]
  | .call callee paren args => .node .call paren [.leaf .name callee] (saplings args)
  | .index base bracket subscript => .node .index bracket [base.sapling] [subscript.sapling]
  | .select object dot field => .node .select dot [object.sapling] [.leaf .field field]
  | .newStruct mark tag => .node .newStruct mark [] [.leaf .typeName tag]
  | .newString mark size => .node .newString mark [] [size.sapling]
  | .newArray element mark size => .node .newArray mark [element.sapling] [size.sapling]

def saplings : List Expr → List Sapling
  | [] => []
  | e :: es => e.sapling :: saplings es

end

end Expr

inductive Stmt where
  | block (brace : Lexeme) (body : List Stmt)
  | empty (semicolon : Lexeme)
  | varDecl (decl : Decl) (equals : Lexeme) (init : Expr)
  | whileLoop (mark : Lexeme) (cond : Expr) (body : Stmt)
  | ifThen (mark : Lexeme) (cond : Expr) (yes : Stmt)
  | ifElse (mark : Lexeme) (cond : Expr) (yes no : Stmt)
  | returnValue (mark : Lexeme) (value : Expr)
  | returnVoid (mark : Lexeme)
  | expr (e : Expr)
deriving Repr, Inhabited

namespace Stmt

mutual

def sapling : Stmt → Sapling
  | .block brace body => .node .block brace [] (saplings body)
  | .empty semicolon => .leaf .semicolon semicolon
  | .varDecl decl equals init => .node .varDecl equals [decl.sapling .declName] [init.sapling]
  | .whileLoop mark cond body => .node .whileLoop mark [] [cond.sapling, body.sapling]
  | .ifThen mark cond yes => .node .ifThen mark [] [cond.sapling, yes.sapling]
  | .ifElse mark cond yes no => .node .ifElse mark [] [cond.sapling, yes.sapling, no.sapling]
  | .returnValue mark value => .node .returnValue mark [] [value.sapling]
  | .returnVoid mark => .leaf .returnVoid mark
  | .expr e => e.sapling

def saplings : List Stmt → List Sapling
  | [] => []
  | s :: ss => s.sapling :: saplings ss

end

end Stmt

/-- What stands at the top level of a program. -/
inductive Item where
  | struct (mark tag : Lexeme) (fields : List Decl)
  | function (decl : Decl) (paren : Lexeme) (params : List Decl) (brace : Lexeme) (body : List Stmt)
  | prototype (decl : Decl) (paren : Lexeme) (params : List Decl) (semicolon : Lexeme)
  | stmt (s : Stmt)
deriving Repr, Inhabited

namespace Item

def structSapling (mark tag : Lexeme) (fields : List Decl) : Sapling :=
  .node .struct mark [] (.leaf .typeName tag :: fields.map (·.sapling .field))

def paramsSapling (paren : Lexeme) (params : List Decl) : Sapling :=
  .node .paramList paren [] (params.map (·.sapling .declName))

/-- The node of a function or prototype is made last, at the place of its declaration. The semicolon of a prototype
    is spent on telling the two apart. -/
def sapling : Item → Sapling
  | .struct mark tag fields => structSapling mark tag fields
  | .function decl paren params brace body =>
    .node .function ⟨"<<FUNCTION>>", decl.loc⟩
      [decl.sapling .declName, paramsSapling paren params, (Stmt.block brace body).sapling] []
  | .prototype decl paren params semicolon =>
    .node .prototype ⟨"<<PROTOTYPE>>", decl.loc⟩
      [decl.sapling .declName, paramsSapling paren params, .spent semicolon] []
  | .stmt s => s.sapling

end Item

end OcCompiler
