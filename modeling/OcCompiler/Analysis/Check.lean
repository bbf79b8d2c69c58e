import OcCompiler.Analysis.State
import OcCompiler.Typing

/-!
Types of nodes. Once the children of a node are settled, its verdict says what is wrong with it and which type it turns
out to have. Checking a node records the verdict.
-/

namespace OcCompiler.Analysis

structure Verdict where
  reports : List Diagnostic := []
  /-- The type that the node turns out to have. Without one it keeps what it has. -/
  type : Option ValueType := none
deriving DecidableEq, Repr, Inhabited

def complaint (lexeme : Lexeme) (cause : Option SemanticCause) : List Diagnostic := cause.toList.map (·.about lexeme)

namespace Verdict

def operand (expected : ValueType) (found : Option ValueType) (mark : Lexeme) : Verdict where
  reports := complaint mark (Typing.exactly expected found)

def binary (op : BinaryOp) (left : Option ValueType) (isPlace : Bool) (right : Option ValueType) (mark : Lexeme) :
    Verdict :=
  match op with
  | .assign => { reports := complaint mark (left.bind (Typing.assignment · isPlace right)), type := left }
  | .compare c => { reports := complaint mark (Typing.comparison c left right) }
  | .arith _ => { reports := complaint mark (left.bind (Typing.arithmetic · right)) }

def newArray (element : BaseType) (length : Option ValueType) (mark : Lexeme) : Verdict where
  reports := complaint mark (Typing.arrayLength element length)
  type := some (.array element)

def index (base subscript : Option ValueType) (bracket : Lexeme) : Verdict :=
  let wrongSubscript := complaint bracket (Typing.exactly .int subscript)
  match base.map Typing.element with
  | none => { reports := wrongSubscript }
  | some (.ok type) => { reports := wrongSubscript, type }
  | some (.error cause) => { reports := cause.about bracket :: wrongSubscript }

end Verdict

/-- A return statement: its keyword and the node of its value, if it has one. -/
structure ReturnSite where
  mark : Lexeme
  value : Option NodeId
deriving DecidableEq, Repr, Inhabited

def returnCause (a : Analysis) (declared : ValueType) (site : ReturnSite) : Option SemanticCause :=
  match site.value with
  | none => Typing.returnedNothing declared
  | some value => Typing.returned declared (a.typeOf value)

def returnSite (t : Tree) (n : NodeId) : Except Fault ReturnSite :=
  if t.tag n = .returnVoid then .ok ⟨t.lexeme n, none⟩ else do return ⟨t.lexeme n, some (← t.child n 0)⟩

def returns (t : Tree) (body : NodeId) : Except Fault (List ReturnSite) :=
  ((t.walk body).filter fun n => t.tag n = .returnValue ∨ t.tag n = .returnVoid).mapM (returnSite t)

def functionReports (a : Analysis) (name : Lexeme) (sites : List ReturnSite) (declared : ValueType) :
    List Diagnostic :=
  let missing :=
    if sites.isEmpty && !declared.isVoid then [(SemanticCause.missingReturn declared.text).about name] else []
  missing ++ sites.flatMap fun site => complaint site.mark (a.returnCause declared site)

def variableVerdict (a : Analysis) (nameNode value : NodeId) (name equals : Lexeme) : Verdict :=
  match a.typeOf nameNode with
  | none => {}
  | some declared =>
    let blamed := if declared.isVoid then name else equals
    { reports := complaint blamed (Typing.variableInit declared (a.typeOf value)) }

def operandVerdict (a : Analysis) (expected : ValueType) (operand : NodeId) (mark : Lexeme) : Verdict :=
  .operand expected (a.typeOf operand) mark

def binaryVerdict (a : Analysis) (op : BinaryOp) (left right : NodeId) (mark : Lexeme) : Verdict :=
  .binary op (a.typeOf left) (a.attrs left).roles.lvalue (a.typeOf right) mark

def newArrayVerdict (a : Analysis) (element : BaseType) (length : NodeId) (mark : Lexeme) : Verdict :=
  .newArray element (a.typeOf length) mark

def callVerdict (a : Analysis) (callee : NodeId) (args : List NodeId) (name : Lexeme) : Verdict :=
  let d := a.decoration callee
  match d.symbol with
  | none => {}
  | some function =>
    if d.attrs.roles.function then
      let params := (a.symbols.get function).params.getD []
      let causes := Typing.arguments false (params.map fun p => (a.symbols.get p).attrs.type) (args.map a.typeOf)
      { reports := causes.map (·.about name), type := d.attrs.type }
    else { reports := [SemanticCause.notCallable.about name] }

def selectVerdict (a : Analysis) (operand : NodeId) (dot field : Lexeme) : Verdict :=
  match a.typeOf operand with
  | none => {}
  | some (.struct tag) =>
    match (a.symbols.struct? tag).map a.symbols.get with
    | some struct@{ fields := some _, .. } =>
      match struct.field? field.text with
      | some id => { type := (a.symbols.get id).attrs.type }
      | none => { reports := [(SemanticCause.unknownField (ValueType.struct tag).text).about field] }
    | _ => { reports := [SemanticCause.incomplete.about ⟨tag, field.loc⟩] }
  | some other => { reports := [(SemanticCause.notSelectable other.text).about dot] }

def indexVerdict (a : Analysis) (base subscript : NodeId) (bracket : Lexeme) : Verdict :=
  .index (a.typeOf base) (a.typeOf subscript) bracket

def verdict (t : Tree) (a : Analysis) (n : NodeId) : Except Fault Verdict :=
  let lexeme := t.lexeme n
  match t.tag n with
  | .varDecl => do
    let decl ← t.child n 0
    let value ← t.child n 1
    let parts ← t.declParts decl
    return a.variableVerdict parts.name value (t.lexeme parts.name) lexeme
  | .whileLoop | .ifThen | .ifElse => do return a.operandVerdict .bool (← t.child n 0) lexeme
  | .function => do
    let decl ← t.child n 0
    let body ← t.child n 2
    let parts ← t.declParts decl
    match a.typeOf parts.name with
    | none => return {}
    | some declared => return { reports := a.functionReports (t.lexeme parts.name) (← returns t body) declared }
  | .binary op => do return a.binaryVerdict op (← t.child n 0) (← t.child n 1) lexeme
  | .unary op => do return a.operandVerdict (Typing.operand op) (← t.child n 0) lexeme
  | .newString => do return a.operandVerdict .int (← t.child n 0) lexeme
  | .newArray => do
    let base ← t.child n 0
    let length ← t.child n 1
    match (t.tag base).baseType? (t.text base) with
    | none => throw (.noElementType lexeme.loc)
    | some element => return a.newArrayVerdict element length lexeme
  | .call => do
    let callee ← t.child n 0
    return a.callVerdict callee (t.children n).tail (t.lexeme callee)
  | .index => do return a.indexVerdict (← t.child n 0) (← t.child n 1) lexeme
  | .select => do
    let operand ← t.child n 0
    let field ← t.child n 1
    return a.selectVerdict operand lexeme (t.lexeme field)
  | _ => .ok {}

def apply (n : NodeId) (v : Verdict) (a : Analysis) : Analysis :=
  let a := v.reports.foldl report a
  match v.type with
  | some type => a.setType n type
  | none => a

def markField (a : Analysis) (field : NodeId) : Analysis :=
  let attrs := a.attrs field
  a.setAttrs field { attrs with roles := { attrs.roles with field := true } }

def check (t : Tree) (n : NodeId) (a : Analysis) : Except Fault Analysis := do
  let v ← a.verdict t n
  let a ← if t.tag n = .select then (t.child n 1).map a.markField else .ok a
  return a.apply n v

end OcCompiler.Analysis
