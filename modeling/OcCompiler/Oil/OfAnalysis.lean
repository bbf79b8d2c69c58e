import OcCompiler.Oil.Emit

/-!
From an analyzed program to oil. Each computed value gets a register of its own, conditions become jumps, and the
value of an expression is the operand that stands for it.
-/

namespace OcCompiler.Oil

structure Context where
  tree : Tree
  analysis : Analysis
  slots : List (String × Register) := []

namespace Context

def typeOf (c : Context) (n : NodeId) : Except Fault ValueType :=
  match c.analysis.typeOf n with
  | some type => .ok type
  | none => .error (.untyped (c.tree.tag n) (c.tree.text n) (c.tree.loc n))

def named (c : Context) (n : NodeId) : Variable := ⟨c.tree.text n, (c.analysis.decoration n).block⟩

def decimal (text : String) : String :=
  match text.toList.dropWhile (· == '0') with
  | [] => "0"
  | digits => String.ofList digits

def constant (c : Context) (k : Constant) (text : String) : Operand :=
  match k with
  | .literal .int => .constant k (decimal text)
  | .literal .char => .constant k text
  | .literal .string =>
    match c.slots.lookup text with
    | some r => .register r
    | none => .constant k text
  | .truth true => .constant k "1"
  | .truth false | .null => .constant k "0"

def compute (c : Context) (n : NodeId) (value : Computation) : Emit Operand := do
  let type ← c.typeOf n
  let r ← Emit.newRegister (.ofType type)
  Emit.write (.compute (.ofType type) r value)
  return .register r

def address (c : Context) (n : NodeId) (place : Place) : Emit Operand := do
  let type ← c.typeOf n
  let r ← Emit.newRegister .address
  Emit.write (.address (.ofType type) r place)
  return .pointee r

def unarySpelling (op : UnaryOp) (text : String) : String :=
  match op with
  | .ord => "(int) "
  | .chr => "(char) "
  | .pos | .neg | .not => text

/-- Emits an expression below which no path is longer than `depth`, and gives the operand that stands for it. -/
def expr (c : Context) : Nat → NodeId → Emit Operand
  | 0, _ => return .nothing
  | depth + 1, n => do
    let t := c.tree
    match t.tag n with
    | .constant k => return c.constant k (t.text n)
    | .name => return .var (c.named n)
    | .binary .assign =>
      let target ← c.expr depth (← t.child n 0)
      let value ← c.expr depth (← t.child n 1)
      Emit.write (.assign target value)
      return target
    | .binary op =>
      let left ← c.expr depth (← t.child n 0)
      let right ← c.expr depth (← t.child n 1)
      c.compute n (.binary op (t.text n) left right)
    | .unary op =>
      let operand ← c.expr depth (← t.child n 0)
      c.compute n (.unary op (unarySpelling op (t.text n)) operand)
    | .newStruct =>
      let name ← t.child n 0
      c.compute n (.allocate (.constant (.literal .int) "1") (.struct (t.text name)))
    | .newString =>
      let count ← c.expr depth (← t.child n 0)
      c.compute n (.allocate count .char)
    | .newArray =>
      let count ← c.expr depth (← t.child n 1)
      match ← c.typeOf n with
      | .array element => c.compute n (.allocate count (.ofBase element))
      | other => Emit.fail (.arrayTyped other)
    | .call =>
      match t.children n with
      | [] => Emit.fail (.outOfRange 0 0)
      | first :: rest =>
        let callee ← c.expr depth first
        let args ← rest.mapM fun arg => c.expr depth arg
        if (← c.typeOf n).isVoid then
          Emit.write (.perform callee args)
          return .nothing
        else c.compute n (.call callee args)
    | .index =>
      let base ← c.expr depth (← t.child n 0)
      let subscript ← c.expr depth (← t.child n 1)
      c.address n (.element base subscript)
    | .select =>
      let object ← t.child n 0
      let field ← t.child n 1
      match (← c.typeOf object).structTag? with
      | none => Emit.fail (.notStruct (t.loc n))
      | some tag =>
        let base ← c.expr depth object
        c.address n (.field base tag (t.text field))
    | other => Emit.fail (.notExpression other (t.loc n))

def stmt (c : Context) : Nat → NodeId → Emit Unit
  | 0, _ => return
  | depth + 1, n => do
    let t := c.tree
    match t.tag n with
    | .block => (t.children n).forM fun s => c.stmt depth s
    | .varDecl =>
      let parts ← t.declParts (← t.child n 0)
      let value ← c.expr depth (← t.child n 1)
      let v := c.named parts.name
      if v.block = globalBlock then Emit.write (.assign (.var v) value)
      else Emit.write (.declare (.ofType (← c.typeOf parts.name)) v value)
    | .whileLoop =>
      Emit.write (.label ⟨.loop, t.loc n⟩)
      let condition ← c.expr depth (← t.child n 0)
      Emit.write (.jumpUnless condition ⟨.exit, t.loc n⟩)
      c.stmt depth (← t.child n 1)
      Emit.write (.jump ⟨.loop, t.loc n⟩)
      Emit.write (.label ⟨.exit, t.loc n⟩)
    | .ifThen =>
      let condition ← c.expr depth (← t.child n 0)
      Emit.write (.jumpUnless condition ⟨.join, t.loc n⟩)
      c.stmt depth (← t.child n 1)
      Emit.write (.label ⟨.join, t.loc n⟩)
    | .ifElse =>
      let condition ← c.expr depth (← t.child n 0)
      Emit.write (.jumpUnless condition ⟨.otherwise, t.loc n⟩)
      c.stmt depth (← t.child n 1)
      Emit.write (.jump ⟨.join, t.loc n⟩)
      Emit.write (.label ⟨.otherwise, t.loc n⟩)
      c.stmt depth (← t.child n 2)
      Emit.write (.label ⟨.join, t.loc n⟩)
    | .returnValue =>
      let value ← c.expr depth (← t.child n 0)
      Emit.write (.returnValue value)
    | .returnVoid => Emit.write .returnVoid
    | .semicolon | .struct | .function | .prototype => return
    | _ => discard (c.expr (depth + 1) n)

def stmts (c : Context) (ns : List NodeId) : Emit Unit := ns.forM fun n => c.stmt c.tree.size n

/-! ### Declarations -/

def structRecord (c : Context) (n : NodeId) : Except Fault StructRecord := do
  let t := c.tree
  let tag := t.text (← t.child n 0)
  let fields ← (t.children n).tail.mapM fun decl => do
    let name := (← t.declParts decl).name
    return (Storage.ofType (← c.typeOf name), t.text name)
  return { tag, fields }

def globalVariable (c : Context) (n : NodeId) : Except Fault GlobalVariable := do
  let name := (← c.tree.declParts (← c.tree.child n 0)).name
  return { storage := .ofType (← c.typeOf name), name := c.tree.text name }

def function (c : Context) (n : NodeId) : Nat → Except Fault (Function × Nat) := fun next => do
  let t := c.tree
  let name := (← t.declParts (← t.child n 0)).name
  let paramList ← t.child n 1
  let body ← t.child n 2
  let result := Storage.ofType (← c.typeOf name)
  let params ← (t.children paramList).mapM fun decl => do
    let param := (← t.declParts decl).name
    return (Storage.ofType (← c.typeOf param), c.named param)
  let emitted ← c.stmts (t.children body) next
  return ({ result, name := t.text name, params, body := emitted.code }, emitted.next)

def functions (c : Context) : List NodeId → Nat → Except Fault (List Function × Nat)
  | [], next => .ok ([], next)
  | n :: ns, next => do
    let (first, next) ← c.function n next
    let (rest, next) ← c.functions ns next
    return (first :: rest, next)

def entryStmts (c : Context) : List NodeId :=
  (c.tree.children .root).filter fun n =>
    c.tree.tag n ≠ .struct ∧ c.tree.tag n ≠ .function ∧ c.tree.tag n ≠ .prototype

end Context

/-- One slot for each different string constant, in the order of their first occurrence. -/
def stringSlots (found : List StringSlot) : List String → Nat → Except Fault (List StringSlot × Nat)
  | [], next => .ok (found, next)
  | spelling :: spellings, next =>
    if found.any (·.spelling == spelling) then stringSlots found spellings next
    else do
      let following ← countUp next
      stringSlots (found ++ [⟨⟨.string, next⟩, spelling⟩]) spellings following

/-- The oil of an analyzed program. Registers are numbered from `start` on; also gives the number that the next
    register would have. -/
def Module.ofAnalysis (t : Tree) (a : Analysis) (start : Nat) : Except Fault (Module × Nat) := do
  let bare : Context := { tree := t, analysis := a }
  let structs ← a.queues.structs.toList.mapM bare.structRecord
  let (strings, next) ← stringSlots [] (a.queues.strings.toList.map t.text) start
  let globals ← a.queues.globals.toList.mapM bare.globalVariable
  let c := { bare with slots := strings.map fun (s : StringSlot) => (s.spelling, s.register) }
  let (functions, next) ← c.functions a.queues.functions.toList next
  let entry ← c.stmts c.entryStmts next
  return ({ structs, strings, globals, functions, entry := entry.code }, entry.next)

end OcCompiler.Oil
