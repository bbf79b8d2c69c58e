import OcCompiler.Attributes
import OcCompiler.Operator
import OcCompiler.Symbol.Table

/-!
The values of oil: storage types, registers, variables and what an instruction can take as an operand. In oil,
strings, structs and arrays are pointers, and truth values are characters.
-/

namespace OcCompiler.Oil

/-- How a value is stored. -/
inductive Storage where
  | void
  | char
  | int
  | struct (tag : String)
  | pointer (target : Storage)
deriving DecidableEq, Repr, Inhabited

namespace Storage

def text : Storage → String
  | .void => "void"
  | .char => "char"
  | .int => "int"
  | .struct tag => "struct s_" ++ tag
  | .pointer target => target.text ++ "*"

def ofBase : BaseType → Storage
  | .scalar .void => .void
  | .scalar .bool | .scalar .char => .char
  | .scalar .int => .int
  | .scalar .string => .pointer .char
  | .struct tag => .pointer (.struct tag)

def ofType : ValueType → Storage
  | .base b => ofBase b
  | .array b => .pointer (ofBase b)
  | .null => .pointer .void

end Storage

/-- What a register holds. -/
inductive RegisterKind where
  | int
  | char
  | pointer
  | address
  | string
deriving DecidableEq, Repr, Inhabited

namespace RegisterKind

def letter : RegisterKind → String
  | .int => "i"
  | .char => "c"
  | .pointer => "p"
  | .address => "a"
  | .string => "s"

def ofType : ValueType → RegisterKind
  | .int => .int
  | .bool | .char => .char
  | _ => .pointer

end RegisterKind

structure Register where
  kind : RegisterKind
  number : Nat
deriving DecidableEq, Repr, Inhabited

def Register.text (r : Register) : String := r.kind.letter ++ r.number.repr

structure Variable where
  name : String
  block : Nat
deriving DecidableEq, Repr, Inhabited

def globalName (name : String) : String := "__" ++ name

def Variable.text (v : Variable) : String :=
  if v.block = globalBlock then globalName v.name else "_" ++ v.block.repr ++ "_" ++ v.name

def fieldName (struct field : String) : String := "f_" ++ struct ++ "_" ++ field

inductive Operand where
  | constant (c : Constant) (text : String)
  | var (v : Variable)
  | register (r : Register)
  | pointee (r : Register)
  | nothing
deriving DecidableEq, Repr, Inhabited

def Operand.text : Operand → String
  | .constant _ text => text
  | .var v => v.text
  | .register r => r.text
  | .pointee r => "(*" ++ r.text ++ ")"
  | .nothing => ""

end OcCompiler.Oil
