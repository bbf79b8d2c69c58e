import OcCompiler.Operator
import OcCompiler.ValueType

/-! Tags of tree nodes: which construct of the language a node stands for. -/

namespace OcCompiler

inductive Tag where
  | root
  | struct
  | function
  | prototype
  | paramList
  | block
  | varDecl
  | array
  | scalar (s : Scalar)
  | typeName
  | declName
  | field
  | name
  | whileLoop
  | ifThen
  | ifElse
  | returnValue
  | returnVoid
  | semicolon
  | binary (op : BinaryOp)
  | unary (op : UnaryOp)
  | newStruct
  | newString
  | newArray
  | call
  | index
  | select
  | constant (c : Constant)
  | released
deriving DecidableEq, Repr, Inhabited

def Scalar.tagText : Scalar → String
  | .void => "VOID"
  | .bool => "BOOL"
  | .char => "CHAR"
  | .int => "INT"
  | .string => "STRING"

namespace Tag

def text : Tag → String
  | .root => "ROOT"
  | .struct => "STRUCT"
  | .function => "FUNCTION"
  | .prototype => "PROTOTYPE"
  | .paramList => "PARAMLIST"
  | .block => "BLOCK"
  | .varDecl => "VARDECL"
  | .array => "ARRAY"
  | .scalar s => s.tagText
  | .typeName => "TYPEID"
  | .declName => "DECLID"
  | .field => "FIELD"
  | .name => "IDENT"
  | .whileLoop => "WHILE"
  | .ifThen => "IF"
  | .ifElse => "IFELSE"
  | .returnValue => "RETURN"
  | .returnVoid => "RETURNVOID"
  | .semicolon => "';'"
  | .binary op => op.text
  | .unary op => op.text
  | .newStruct => "NEW"
  | .newString => "NEWSTRING"
  | .newArray => "NEWARRAY"
  | .call => "CALL"
  | .index => "INDEX"
  | .select => "'.'"
  | .constant c => c.text
  | .released => "RELEASED"

def baseType? (tag : Tag) (text : String) : Option BaseType :=
  match tag with
  | .scalar s => some (.scalar s)
  | .typeName => some (.struct text)
  | _ => none

end Tag

end OcCompiler
