import OcCompiler.Oil.Operand

/-!
Oil programs. A module has structs, string slots, global variables and functions, of which the last one holds the
statements outside all functions. A function's body is a list of instructions, with jumps to labels.
-/

namespace OcCompiler.Oil

inductive LabelKind where
  | loop
  | exit
  | otherwise
  | join
deriving DecidableEq, Repr, Inhabited

def LabelKind.text : LabelKind → String
  | .loop => "while"
  | .exit => "break"
  | .otherwise => "else"
  | .join => "fi"

/-- A label is told from others by its kind and the place of the statement it belongs to. -/
structure Label where
  kind : LabelKind
  loc : Location
deriving DecidableEq, Repr, Inhabited

def Label.text (l : Label) : String := l.kind.text ++ "_" ++ l.loc.labelSuffix

/-- What a register can be filled with. Operators come with their spelling. -/
inductive Computation where
  | binary (op : BinaryOp) (spelling : String) (left right : Operand)
  | unary (op : UnaryOp) (spelling : String) (operand : Operand)
  | allocate (count : Operand) (thing : Storage)
  | call (callee : Operand) (args : List Operand)
deriving DecidableEq, Repr, Inhabited

def callText (callee : Operand) (args : List Operand) : String :=
  callee.text ++ " (" ++ ", ".intercalate (args.map Operand.text) ++ ")"

def Computation.text : Computation → String
  | .binary _ spelling left right => left.text ++ " " ++ spelling ++ " " ++ right.text
  | .unary _ spelling operand => spelling ++ operand.text
  | .allocate count thing => "xcalloc (" ++ count.text ++ ", sizeof (" ++ thing.text ++ "))"
  | .call callee args => callText callee args

/-- A part of a larger value. -/
inductive Place where
  | element (base index : Operand)
  | field (base : Operand) (struct name : String)
deriving DecidableEq, Repr, Inhabited

def Place.text : Place → String
  | .element base index => base.text ++ "[" ++ index.text ++ "]"
  | .field base struct name => base.text ++ "->" ++ fieldName struct name

inductive Instruction where
  | label (l : Label)
  | jump (l : Label)
  | jumpUnless (condition : Operand) (l : Label)
  | assign (target value : Operand)
  | declare (storage : Storage) (v : Variable) (value : Operand)
  | compute (storage : Storage) (r : Register) (value : Computation)
  | address (storage : Storage) (r : Register) (place : Place)
  | perform (callee : Operand) (args : List Operand)
  | returnValue (value : Operand)
  | returnVoid
deriving DecidableEq, Repr, Inhabited

def indent : String := "        "

def Instruction.text : Instruction → String
  | .label l => l.text ++ ":;\n"
  | .jump l => indent ++ "goto " ++ l.text ++ ";\n"
  | .jumpUnless condition l => indent ++ "if (!" ++ condition.text ++ ") goto " ++ l.text ++ ";\n"
  | .assign target value => indent ++ target.text ++ " = " ++ value.text ++ ";\n"
  | .declare storage v value => indent ++ storage.text ++ " " ++ v.text ++ " = " ++ value.text ++ ";\n"
  | .compute storage r value => indent ++ storage.text ++ " " ++ r.text ++ " = " ++ value.text ++ ";\n"
  | .address storage r place => indent ++ storage.text ++ "* " ++ r.text ++ " = &" ++ place.text ++ ";\n"
  | .perform callee args => indent ++ callText callee args ++ ";\n"
  | .returnValue value => indent ++ "return " ++ value.text ++ ";\n"
  | .returnVoid => indent ++ "return;\n"

structure StructRecord where
  tag : String
  fields : List (Storage × String)
deriving DecidableEq, Repr, Inhabited

def StructRecord.text (s : StructRecord) : String :=
  "struct s_" ++ s.tag ++ " \x7b\n" ++
    String.join (s.fields.map fun (storage, name) =>
      indent ++ storage.text ++ " " ++ fieldName s.tag name ++ ";\n") ++
    "\x7d;\n"

/-- A register that holds a string constant from the start. -/
structure StringSlot where
  register : Register
  spelling : String
deriving DecidableEq, Repr, Inhabited

def StringSlot.text (s : StringSlot) : String := "char* " ++ s.register.text ++ " = " ++ s.spelling ++ ";\n"

structure GlobalVariable where
  storage : Storage
  name : String
deriving DecidableEq, Repr, Inhabited

def GlobalVariable.text (g : GlobalVariable) : String := g.storage.text ++ " " ++ globalName g.name ++ ";\n"

structure Function where
  result : Storage
  name : String
  params : List (Storage × Variable) := []
  body : List Instruction
deriving DecidableEq, Repr, Inhabited

def Function.paramsText : List (Storage × Variable) → String
  | [] => "void"
  | params => "\n" ++ ",\n".intercalate (params.map fun (storage, v) => indent ++ storage.text ++ " " ++ v.text)

def Function.text (f : Function) : String :=
  f.result.text ++ " " ++ globalName f.name ++ " (" ++ paramsText f.params ++ ")\n\x7b\n" ++
    String.join (f.body.map Instruction.text) ++ "\x7d\n"

def entryName : String := "ocmain"

structure Module where
  structs : List StructRecord
  strings : List StringSlot
  globals : List GlobalVariable
  functions : List Function
  entry : List Instruction
deriving DecidableEq, Repr, Inhabited

def Module.text (m : Module) : String :=
  String.join (m.structs.map StructRecord.text) ++ String.join (m.strings.map StringSlot.text) ++
    String.join (m.globals.map GlobalVariable.text) ++ String.join (m.functions.map Function.text) ++
    Function.text { result := .void, name := entryName, body := m.entry }

end OcCompiler.Oil
