/-!
The types of oc values. Main statement: a value fits a slot when the types are equal, or when it is `null` and the
slot holds a reference.
-/

namespace OcCompiler

/-- The types named by a keyword. -/
inductive Scalar where
  | void
  | bool
  | char
  | int
  | string
deriving DecidableEq, Repr, Inhabited

def Scalar.text : Scalar → String
  | .void => "void"
  | .bool => "bool"
  | .char => "char"
  | .int => "int"
  | .string => "string"

/-- What a declaration names before an optional array mark. -/
inductive BaseType where
  | scalar (s : Scalar)
  | struct (tag : String)
deriving DecidableEq, Repr, Inhabited

def BaseType.text : BaseType → String
  | .scalar s => s.text
  | .struct tag => "struct \"" ++ tag ++ "\""

inductive ValueType where
  | base (b : BaseType)
  | array (element : BaseType)
  | null
deriving DecidableEq, Repr, Inhabited

namespace ValueType

@[match_pattern] abbrev void : ValueType := .base (.scalar .void)
@[match_pattern] abbrev bool : ValueType := .base (.scalar .bool)
@[match_pattern] abbrev char : ValueType := .base (.scalar .char)
@[match_pattern] abbrev int : ValueType := .base (.scalar .int)
@[match_pattern] abbrev string : ValueType := .base (.scalar .string)
@[match_pattern] abbrev struct (tag : String) : ValueType := .base (.struct tag)

def text : ValueType → String
  | .base b => b.text
  | .array b => b.text ++ " array"
  | .null => "null"

def structTag? : ValueType → Option String
  | .base (.struct tag) | .array (.struct tag) => some tag
  | _ => none

def isVoid : ValueType → Bool
  | .base (.scalar .void) | .array (.scalar .void) => true
  | _ => false

def isReference : ValueType → Bool
  | .base (.scalar .string) | .base (.struct _) | .array _ => true
  | _ => false

def isOrdered : ValueType → Bool
  | .bool | .char | .int => true
  | _ => false

def accepts (target source : ValueType) : Bool :=
  target == source || (target.isReference && source == .null)

theorem accepts_iff {target source : ValueType} :
    target.accepts source = true ↔ target = source ∨ (target.isReference = true ∧ source = .null) := by
  simp [accepts]

@[simp] theorem accepts_self (t : ValueType) : t.accepts t = true := by simp [accepts]

def describe : Option ValueType → String
  | some t => t.text
  | none => "<unknown>"

end ValueType

end OcCompiler
