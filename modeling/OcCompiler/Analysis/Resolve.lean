import OcCompiler.Analysis.State

/-!
Names. On the way down, a node opens its block and defines what its children must know; on the way up, names in use
are looked up, variables are defined and the block is closed.
-/

namespace OcCompiler

def Tag.initialAttributes : Tag → Attributes
  | .binary .assign | .newStruct | .newArray | .call => { roles := { vreg := true } }
  | .binary (.compare _) | .unary .not => .typed .bool { vreg := true }
  | .binary (.arith _) | .unary .pos | .unary .neg | .unary .ord => .typed .int { vreg := true }
  | .unary .chr => .typed .char { vreg := true }
  | .newString => .typed .string { vreg := true }
  | .index | .select => { roles := { vaddr := true, lvalue := true } }
  | .constant (.literal .int) => .typed .int { const := true }
  | .constant (.literal .char) => .typed .char { const := true }
  | .constant (.literal .string) => .typed .string { const := true }
  | .constant (.truth _) => .typed .bool { const := true }
  | .constant .null => .typed .null { const := true }
  | _ => {}

/-- A declaration as the analysis takes it: the base type with the node and the lexeme that name it, whether there is
    an array mark, and the declared name with its node. -/
structure Declaration where
  base : BaseType
  typeNode : NodeId
  typeLexeme : Lexeme
  isArray : Bool
  nameNode : NodeId
  name : Lexeme
deriving DecidableEq, Repr, Inhabited

def Declaration.type (d : Declaration) : ValueType := if d.isArray then .array d.base else .base d.base

def Tree.declaration (t : Tree) (decl : NodeId) : Except Fault Declaration := do
  let parts ← t.declParts decl
  match (t.tag parts.base).baseType? (t.text parts.base) with
  | none => throw (.noBaseType (t.loc decl) (t.tag parts.base))
  | some base =>
    return ⟨base, parts.base, t.lexeme parts.base, parts.isArray, parts.name, t.lexeme parts.name⟩

namespace Analysis

/-! ### Names in use -/

/-- Places a node in the current block. A node that is already decorated stays as it is. -/
def place (n : NodeId) (tag : Tag) (a : Analysis) : Analysis :=
  let d := a.decoration n
  if d.symbol.isSome || !d.attrs.isEmpty then a
  else a.decorate n { d with block := a.symbols.currentBlock, attrs := tag.initialAttributes }

def refer (n : NodeId) (x : Lexeme) (a : Analysis) : Analysis :=
  match a.symbols.lookup x.text with
  | some id =>
    let s := a.symbols.get id
    a.decorate n { attrs := s.attrs, block := s.block, symbol := some id }
  | none => (a.decorate n { block := a.symbols.currentBlock }).report (SemanticCause.undeclared.about x)

def reference (t : Tree) (n : NodeId) (a : Analysis) : Analysis := a.refer n (t.lexeme n)

/-- Looks up the struct that a type name speaks of. Outside a struct body its fields must be known. -/
def useStruct (n : NodeId) (tag : Lexeme) (mayLackFields : Bool) (a : Analysis) : Analysis :=
  let (id, symbols) := a.symbols.structOrPlaceholder tag
  let a := a.setSymbols symbols
  let a :=
    if mayLackFields || (symbols.get id).isComplete then a
    else a.report (SemanticCause.incomplete.about tag)
  a.decorate n { attrs := .typed (.struct tag.text) {}, block := symbols.currentBlock, symbol := some id }

/-! ### Definitions -/

structure Definition where
  symbol : SymbolId
  prototype : Option SymbolId := none

def declare (n : NodeId) (x : Lexeme) (attrs : Attributes) (a : Analysis) : SymbolId × Analysis :=
  let block := a.symbols.currentBlock
  let (id, symbols) := a.symbols.push { name := x.text, loc := x.loc, block, attrs }
  (id, (a.setSymbols symbols).decorate n { attrs, block, symbol := some id })

/-- Binds a declared name in the innermost scope. A function definition may stand beside its prototype; any other
    name that is bound already is declared twice. -/
def bind (lexeme : Lexeme) (id : SymbolId) (roles : Roles) (a : Analysis) : Definition × Analysis :=
  match a.symbols.insert lexeme.text id with
  | .ok symbols => (⟨id, none⟩, a.setSymbols (symbols.record symbols.depth id))
  | .error existing =>
    if roles.function && !roles.prototype && (a.symbols.get existing).attrs.roles.prototype then
      (⟨id, some existing⟩, a.setSymbols (a.symbols.record a.symbols.depth id))
    else (⟨id, none⟩, a.report (SemanticCause.redeclared.about lexeme))

def useBase (d : Declaration) (mayLackFields : Bool) (a : Analysis) : Analysis :=
  match d.base with
  | .struct _ => a.useStruct d.typeNode d.typeLexeme mayLackFields
  | .scalar _ => a

def refuseVoid (d : Declaration) (roles : Roles) (a : Analysis) : Analysis :=
  if d.type.isVoid && (roles.param || roles.field) then
    a.report ((SemanticCause.declaresVoid d.type.text).about d.name)
  else a

/-- Defines the name of a declaration. A field is bound by its struct and not in a scope. -/
def define (d : Declaration) (roles : Roles) (a : Analysis) : Definition × Analysis :=
  let (id, a) := (a.useBase d roles.field).declare d.nameNode d.name (.typed d.type roles)
  let a := a.refuseVoid d roles
  if roles.field then (⟨id, none⟩, a) else a.bind d.name id roles

/-! ### Structs -/

def addField (struct : SymbolId) (depth : Nat) (field : SymbolId) (a : Analysis) : Analysis :=
  let s := a.symbols.get field
  if ((a.symbols.get struct).field? s.name).isSome then a.report (SemanticCause.redeclared.about ⟨s.name, s.loc⟩)
  else
    let symbols := a.symbols.modify struct (·.setField s.name field)
    a.setSymbols (symbols.record depth field)

def defineField (t : Tree) (struct : SymbolId) (name : String) (depth : Nat) (a : Analysis) (decl : NodeId) :
    Except Fault Analysis := do
  let d ← t.declaration decl
  let (field, a) := a.define d { field := true }
  if (a.symbols.get struct).isComplete then return a.addField struct depth field.symbol
  else throw (.lostFields name)

def openStruct (n : NodeId) (tag : Lexeme) (a : Analysis) : Option SymbolId × Analysis :=
  let (id, symbols) := a.symbols.structOrPlaceholder tag
  let a := a.setSymbols symbols
  if (symbols.get id).isComplete then (none, a.report (SemanticCause.redeclared.about tag))
  else
    let block := symbols.currentBlock
    let symbols := symbols.modify id fun s => { s with loc := tag.loc, block, fields := some [] }
    (some id, (a.setSymbols (symbols.record symbols.depth id)).decorate n
      { attrs := (symbols.get id).attrs, block, symbol := some id })

/-- Defines a struct with its fields. The first component says whether its body was accepted. -/
def defineStruct (t : Tree) (n : NodeId) (a : Analysis) : Except Fault (Bool × Analysis) := do
  let name ← t.child n 0
  match a.openStruct name (t.lexeme name) with
  | (none, a) => return (false, a)
  | (some id, a) =>
    return (true, ← (t.children n).tail.foldlM (defineField t id (t.text name) (a.symbols.depth + 1)) a)

/-! ### Functions -/

/-- Where a parameter list first departs from the list that was announced. A missing parameter is noticed at the one
    before it, at first at `last`. -/
def paramDivergence (agrees : Symbol → SymbolId → Bool) (last : Location) :
    List Symbol → List SymbolId → Option Location
  | [], [] => none
  | [], _ :: _ => some last
  | param :: _, [] => some param.loc
  | param :: params, expected :: announced =>
    if agrees param expected then paramDivergence agrees param.loc params announced else some param.loc

def prototypeDivergence (symbols : SymbolTable) (definition prototype : Symbol) (params : List SymbolId) :
    Option Location :=
  if prototype.attrs.type ≠ definition.attrs.type then some definition.loc
  else
    let announced := prototype.params.getD []
    let block := announced.head?.map fun first => (symbols.get first).block
    let agrees (param : Symbol) (expected : SymbolId) : Bool :=
      block.bind (symbols.lookupInBlock · param.name) == some expected &&
        (symbols.get expected).attrs == param.attrs
    paramDivergence agrees definition.loc (params.map symbols.get) announced

/-- Compares a definition with its prototype. From then on the prototype counts as defined, even if they differ. -/
def matchPrototype (definition prototype : SymbolId) (params : List SymbolId) (a : Analysis) : Analysis :=
  let symbols := a.symbols.modify prototype fun s =>
    { s with attrs := { s.attrs with roles := { s.attrs.roles with prototype := false } } }
  let a := a.setSymbols symbols
  let s := symbols.get definition
  match prototypeDivergence symbols s (symbols.get prototype) params with
  | some loc => a.report (SemanticCause.prototypeMismatch.about ⟨s.name, loc⟩)
  | none => a

def defineParams : List Declaration → Analysis → List SymbolId × Analysis
  | [], a => ([], a)
  | d :: ds, a =>
    let (param, a) := a.define d { var := true, param := true, lvalue := true }
    let (params, a) := defineParams ds a
    (param.symbol :: params, a)

def enterBlock (a : Analysis) : Nat × Analysis :=
  let symbols := a.symbols.enterBlock
  (symbols.currentBlock, a.setSymbols symbols)

/-- Defines a function or a prototype, opens the block of its parameters and defines them there. -/
def openFunction (d : Declaration) (paramList : NodeId) (params : List Declaration) (roles : Roles) (a : Analysis) :
    Analysis :=
  let (function, a) := a.define d roles
  let (block, a) := a.enterBlock
  let (ids, a) := defineParams params (a.setBlock paramList block)
  let a := a.setSymbols (a.symbols.modify function.symbol fun s => { s with params := some ids })
  match function.prototype with
  | some prototype => a.matchPrototype function.symbol prototype ids
  | none => a

def defineFunction (t : Tree) (n : NodeId) (roles : Roles) (a : Analysis) : Except Fault Analysis := do
  let decl ← t.child n 0
  let paramList ← t.child n 1
  let d ← t.declaration decl
  let params ← (t.children paramList).mapM t.declaration
  let a := a.openFunction d paramList params roles
  if roles.prototype then return a
  else
    let body ← t.child n 2
    if (t.children body).any (t.tag · = .varDecl) then return a.setSymbols a.symbols.recordBlank else return a

/-! ### The way down and the way up -/

/-- Whether a node is the body of a function. Its names share the block of the parameters. -/
def isFunctionBody (t : Tree) (n : NodeId) : Bool := (t.parent n).any (t.tag · = .function)

/-- What is done with a node before its children. Also says whether a block was opened for it. -/
def enter (t : Tree) (n : NodeId) (a : Analysis) : Except Fault (Bool × Analysis) :=
  match t.tag n with
  | .struct => do
    let (accepted, a) ← (a.place n (t.tag n)).defineStruct t n
    let a := if accepted then { a with queues.structs := a.queues.structs.push n } else a
    return (false, a)
  | .function => do
    let a ← (a.place n (t.tag n)).defineFunction t n { function := true }
    return (true, { a with queues.functions := a.queues.functions.push n })
  | .prototype => do
    return (true, ← (a.place n (t.tag n)).defineFunction t n { function := true, prototype := true })
  | .block =>
    if isFunctionBody t n then .ok (false, a.setBlock n a.symbols.currentBlock)
    else
      let (block, a) := a.enterBlock
      .ok (true, a.setBlock n block)
  | _ => .ok (false, a.place n (t.tag n))

def exitBlock (a : Analysis) : Analysis := a.setSymbols a.symbols.exitBlock.2

def settle (t : Tree) (n : NodeId) (a : Analysis) : Except Fault Analysis :=
  match t.tag n with
  | .name => .ok (a.reference t n)
  | .newStruct => do
    let name ← t.child n 0
    return (a.useStruct name (t.lexeme name) false).setAttrs n (.typed (.struct (t.text name)) { vreg := true })
  | .newArray => do
    let base ← t.child n 0
    return if t.tag base = .typeName then a.useStruct base (t.lexeme base) false else a
  | .constant (.literal .string) => .ok { a with queues.strings := a.queues.strings.push n }
  | .varDecl => do
    let decl ← t.child n 0
    let (_, a) := a.define (← t.declaration decl) { var := true, lvalue := true }
    return if a.symbols.currentBlock = globalBlock then { a with queues.globals := a.queues.globals.push n } else a
  | _ => .ok a

/-- What is done with a node after its children. Closes the block that was opened for it. -/
def leave (t : Tree) (n : NodeId) (opened : Bool) (a : Analysis) : Except Fault Analysis := do
  let a ← a.settle t n
  return if opened then a.exitBlock else a

end Analysis

end OcCompiler
