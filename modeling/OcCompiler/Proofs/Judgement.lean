import OcCompiler.Program.Basic
import OcCompiler.Typing
import Mathlib.Data.List.Forall2

/-! The type system of oc as a judgement on programs. Expressions are typed in an environment; statements and items lead
    from one environment to the next. -/

namespace OcCompiler

structure Signature where
  result : ValueType
  params : List (String × ValueType)
deriving DecidableEq, Repr

/-- What a name stands for. -/
inductive Entry where
  | var (type : ValueType)
  /-- A function that is only announced has a prototype and no definition yet. -/
  | function (sig : Signature) (announced : Bool)
deriving DecidableEq, Repr

/-- The names of one block. -/
abbrev Frame := List (String × Entry)

structure Env where
  inner : Frame := []
  outer : List Frame := []
  /-- The structs that have a body, with the types of their fields. -/
  structs : List (String × List (String × ValueType)) := []
deriving DecidableEq, Repr

namespace Env

/-- What a name stands for: the innermost block that has it decides. -/
def lookup (Γ : Env) (x : String) : Option Entry := (Γ.inner :: Γ.outer).findSome? (·.lookup x)

def bind (Γ : Env) (x : String) (entry : Entry) : Env := { Γ with inner := Γ.inner ++ [(x, entry)] }

def enter (Γ : Env) (frame : Frame) : Env := { Γ with inner := frame, outer := Γ.inner :: Γ.outer }

def fields? (Γ : Env) (tag : String) : Option (List (String × ValueType)) := Γ.structs.lookup tag

/-- A base type may be used where a whole value of it is needed: if it is a struct, its body is known. -/
def Complete (Γ : Env) : BaseType → Prop
  | .scalar _ => True
  | .struct tag => (Γ.fields? tag).isSome = true

def addStruct (Γ : Env) (tag : String) (fields : List (String × ValueType)) : Env :=
  { Γ with structs := Γ.structs ++ [(tag, fields)] }

def define (Γ : Env) (f : String) : Env :=
  { Γ with inner := Γ.inner.map fun
      | (x, .function sig announced) => (x, .function sig (announced && x != f))
      | p => p }

end Env

/-! ### Types of what is declared and of operators -/

def TypeName.base : TypeName → BaseType
  | .scalar s _ => .scalar s
  | .struct tag => .struct tag.text

def Decl.type (d : Decl) : ValueType := if d.mark.isSome then .array d.base.base else .base d.base.base

def Decl.binding (d : Decl) : String × ValueType := (d.name.text, d.type)

def Decl.signature (d : Decl) (params : List Decl) : Signature := ⟨d.type, params.map Decl.binding⟩

def Constant.type : Constant → ValueType
  | .literal .int => .int
  | .literal .char => .char
  | .literal .string => .string
  | .truth _ => .bool
  | .null => .null

def UnaryOp.result : UnaryOp → ValueType
  | .pos | .neg | .ord => .int
  | .not => .bool
  | .chr => .char

mutual

/-- The expression has the type; the flag says whether it is a place that can be assigned to. -/
inductive HasType (Γ : Env) : Expr → ValueType → Bool → Prop where
  | var {x τ} (h : Γ.lookup x.text = some (.var τ)) : HasType Γ (.name x) τ true
  | functionName {x sig announced} (h : Γ.lookup x.text = some (.function sig announced)) :
      HasType Γ (.name x) sig.result false
  | constant {c lexeme} : HasType Γ (.constant c lexeme) c.type false
  | unary {op mark e l} (h : HasType Γ e (Typing.operand op) l) : HasType Γ (.unary op mark e) op.result false
  | assign {left mark right τ σ l} (hleft : HasType Γ left τ true) (hright : HasType Γ right σ l)
      (hfits : τ.accepts σ = true) : HasType Γ (.binary .assign left mark right) τ false
  | equality {c left mark right τ σ l r} (hc : c.isEquality = true) (hleft : HasType Γ left τ l)
      (hright : HasType Γ right σ r) (hvoid : τ.isVoid = false ∧ σ.isVoid = false) (hfits : τ.accepts σ = true) :
      HasType Γ (.binary (.compare c) left mark right) .bool false
  | order {c left mark right τ l r} (hc : c.isEquality = false) (hleft : HasType Γ left τ l)
      (hright : HasType Γ right τ r) (hordered : τ.isOrdered = true) :
      HasType Γ (.binary (.compare c) left mark right) .bool false
  | arith {o left mark right l r} (hleft : HasType Γ left .int l) (hright : HasType Γ right .int r) :
      HasType Γ (.binary (.arith o) left mark right) .int false
  | call {callee paren args sig announced σs} (h : Γ.lookup callee.text = some (.function sig announced))
      (hargs : HasTypes Γ args σs) (hfits : List.Forall₂ (fun p σ => p.2.accepts σ = true) sig.params σs) :
      HasType Γ (.call callee paren args) sig.result false
  | element {base bracket subscript e l r} (hbase : HasType Γ base (.array e) l) (hsubscript : HasType Γ subscript .int r) :
      HasType Γ (.index base bracket subscript) (.base e) true
  | character {base bracket subscript l r} (hbase : HasType Γ base .string l) (hsubscript : HasType Γ subscript .int r) :
      HasType Γ (.index base bracket subscript) .char true
  | select {object dot field tag fields τ l} (hobject : HasType Γ object (.struct tag) l)
      (hfields : Γ.fields? tag = some fields) (hfield : fields.lookup field.text = some τ) :
      HasType Γ (.select object dot field) τ true
  | newStruct {mark tag} (h : Γ.Complete (.struct tag.text)) : HasType Γ (.newStruct mark tag) (.struct tag.text) false
  | newString {mark count l} (h : HasType Γ count .int l) : HasType Γ (.newString mark count) .string false
  | newArray {element mark count l} (hcomplete : Γ.Complete element.base) (hvoid : element.base ≠ .scalar .void)
      (h : HasType Γ count .int l) : HasType Γ (.newArray element mark count) (.array element.base) false

inductive HasTypes (Γ : Env) : List Expr → List ValueType → Prop where
  | nil : HasTypes Γ [] []
  | cons {e es τ τs l} (h : HasType Γ e τ l) (hs : HasTypes Γ es τs) : HasTypes Γ (e :: es) (τ :: τs)

end

mutual

def Stmt.hasReturn : Stmt → Bool
  | .block _ body => Stmt.anyReturn body
  | .whileLoop _ _ body => body.hasReturn
  | .ifThen _ _ yes => yes.hasReturn
  | .ifElse _ _ yes no => yes.hasReturn || no.hasReturn
  | .returnValue _ _ | .returnVoid _ => true
  | .empty _ | .varDecl .. | .expr _ => false

def Stmt.anyReturn : List Stmt → Bool
  | [] => false
  | s :: ss => s.hasReturn || Stmt.anyReturn ss

end

mutual

/-- The statement is well formed in the first environment and leads to the second. Inside a function, `ρ` is the type
    that the function gives back; outside all functions return statements are not looked at. A declaration that is the
    branch of a conditional or the body of a loop, without braces, belongs to the block around. -/
inductive StmtOk (ρ : Option ValueType) : Env → Stmt → Env → Prop where
  | block {Γ Γ' brace body} (h : StmtsOk ρ (Γ.enter []) body Γ') : StmtOk ρ Γ (.block brace body) Γ
  | empty {Γ semicolon} : StmtOk ρ Γ (.empty semicolon) Γ
  | varDecl {Γ d equals init σ l} (hinit : HasType Γ init σ l) (hcomplete : Γ.Complete d.base.base)
      (hfree : Γ.inner.lookup d.name.text = none) (hvoid : d.type.isVoid = false) (hfits : d.type.accepts σ = true) :
      StmtOk ρ Γ (.varDecl d equals init) (Γ.bind d.name.text (.var d.type))
  | whileLoop {Γ Γ' mark cond body l} (hcond : HasType Γ cond .bool l) (hbody : StmtOk ρ Γ body Γ') :
      StmtOk ρ Γ (.whileLoop mark cond body) Γ'
  | ifThen {Γ Γ' mark cond yes l} (hcond : HasType Γ cond .bool l) (hyes : StmtOk ρ Γ yes Γ') :
      StmtOk ρ Γ (.ifThen mark cond yes) Γ'
  | ifElse {Γ Γ' Γ'' mark cond yes no l} (hcond : HasType Γ cond .bool l) (hyes : StmtOk ρ Γ yes Γ')
      (hno : StmtOk ρ Γ' no Γ'') : StmtOk ρ Γ (.ifElse mark cond yes no) Γ''
  | returnValue {Γ mark value σ l} (hvalue : HasType Γ value σ l)
      (hfits : ∀ τ, ρ = some τ → τ.isVoid = false ∧ τ.accepts σ = true) : StmtOk ρ Γ (.returnValue mark value) Γ
  | returnVoid {Γ mark} (hvoid : ∀ τ, ρ = some τ → τ.isVoid = true) : StmtOk ρ Γ (.returnVoid mark) Γ
  | expr {Γ e τ l} (h : HasType Γ e τ l) : StmtOk ρ Γ (.expr e) Γ

inductive StmtsOk (ρ : Option ValueType) : Env → List Stmt → Env → Prop where
  | nil {Γ} : StmtsOk ρ Γ [] Γ
  | cons {Γ Γ' Γ'' s ss} (h : StmtOk ρ Γ s Γ') (hs : StmtsOk ρ Γ' ss Γ'') : StmtsOk ρ Γ (s :: ss) Γ''

end

/-- Parameters have different names and hold something, and their structs have bodies. -/
structure ParamsOk (Γ : Env) (params : List Decl) : Prop where
  complete : ∀ p ∈ params, Γ.Complete p.base.base
  notVoid : ∀ p ∈ params, p.type.isVoid = false
  distinct : (params.map (·.name.text)).Nodup

/-- A function body shares one block with the parameters. A function that gives something back says so somewhere. -/
structure BodyOk (Γ : Env) (d : Decl) (params : List Decl) (body : List Stmt) : Prop where
  stmts : ∃ Γ', StmtsOk (some d.type) (Γ.enter (params.map fun p => (p.name.text, .var p.type))) body Γ'
  returns : d.type.isVoid = true ∨ Stmt.anyReturn body = true

inductive ItemOk : Env → Item → Env → Prop where
  /-- The fields of a struct have different names and hold something. Their structs need no bodies. -/
  | struct {Γ mark tag fields} (hnew : Γ.fields? tag.text = none) (hdistinct : (fields.map (·.name.text)).Nodup)
      (hvoid : ∀ d ∈ fields, d.type.isVoid = false) :
      ItemOk Γ (.struct mark tag fields) (Γ.addStruct tag.text (fields.map Decl.binding))
  | prototype {Γ d paren params semicolon} (hcomplete : Γ.Complete d.base.base)
      (hfree : Γ.inner.lookup d.name.text = none) (hparams : ParamsOk Γ params) :
      ItemOk Γ (.prototype d paren params semicolon) (Γ.bind d.name.text (.function (d.signature params) true))
  | function {Γ d paren params brace body} (hcomplete : Γ.Complete d.base.base)
      (hfree : Γ.inner.lookup d.name.text = none) (hparams : ParamsOk Γ params)
      (hbody : BodyOk (Γ.bind d.name.text (.function (d.signature params) false)) d params body) :
      ItemOk Γ (.function d paren params brace body) (Γ.bind d.name.text (.function (d.signature params) false))
  /-- A function that was announced is defined with the same types and the same parameters. -/
  | announced {Γ d paren params brace body} (hcomplete : Γ.Complete d.base.base)
      (hmatch : Γ.inner.lookup d.name.text = some (.function (d.signature params) true)) (hparams : ParamsOk Γ params)
      (hbody : BodyOk (Γ.define d.name.text) d params body) :
      ItemOk Γ (.function d paren params brace body) (Γ.define d.name.text)
  | stmt {Γ Γ' s} (h : StmtOk none Γ s Γ') : ItemOk Γ (.stmt s) Γ'

inductive ItemsOk : Env → List Item → Env → Prop where
  | nil {Γ} : ItemsOk Γ [] Γ
  | cons {Γ Γ' Γ'' i is} (h : ItemOk Γ i Γ') (hs : ItemsOk Γ' is Γ'') : ItemsOk Γ (i :: is) Γ''

/-- The items of a program are well formed one after the other. -/
def WellFormed (items : List Item) : Prop := ∃ Γ, ItemsOk {} items Γ

end OcCompiler
