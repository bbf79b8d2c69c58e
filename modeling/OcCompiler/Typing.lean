import OcCompiler.Attributes
import OcCompiler.Diagnostic
import OcCompiler.Operator

/-!
The typing rules of oc, one for each construct, on types alone. A rule says what is wrong, if anything is. A type that
is not known was complained about before, so no rule complains of it again.
-/

namespace OcCompiler.Typing

open ValueType (describe)

def exactly (expected : ValueType) : Option ValueType → Option SemanticCause
  | some found => if found = expected then none else some (.mismatch expected.text found.text)
  | none => none

def fits (slot : ValueType) : Option ValueType → Option SemanticCause
  | some found => if slot.accepts found then none else some (.mismatch slot.text found.text)
  | none => none

def variableInit (declared : ValueType) (value : Option ValueType) : Option SemanticCause :=
  if declared.isVoid then some (.declaresVoid declared.text) else fits declared value

def assignment (target : ValueType) (isPlace : Bool) (value : Option ValueType) : Option SemanticCause :=
  if isPlace then fits target value else some (.notLvalue target.text)

def equality (left right : ValueType) : Option SemanticCause :=
  if left.isVoid || right.isVoid then some (.mismatch "non-void" ValueType.void.text) else fits left (some right)

def relation (left : ValueType) (right : Option ValueType) : Option SemanticCause :=
  if left.isOrdered then exactly left right else some (.mismatch "bool char int" left.text)

def arithmetic (left : ValueType) (right : Option ValueType) : Option SemanticCause :=
  (exactly .int (some left)).or (exactly .int right)

/-- A comparison of either kind. Without the left type nothing is said, and equality needs both. -/
def comparison (c : Comparison) (left right : Option ValueType) : Option SemanticCause :=
  if c.isEquality then left.bind fun l => right.bind (equality l) else left.bind (relation · right)

def operand : UnaryOp → ValueType
  | .pos | .neg | .chr => .int
  | .not => .bool
  | .ord => .char

def arrayLength (element : BaseType) (length : Option ValueType) : Option SemanticCause :=
  if element = .scalar .void then some (.declaresVoid element.text) else exactly .int length

def element : ValueType → Except SemanticCause ValueType
  | .array e => .ok (.base e)
  | .string => .ok .char
  | other => .error (.notIndexable other.text)

/-- What is wrong with the arguments of a call. Of arguments that do not fit, only the first is named. -/
def arguments (named : Bool) : (params args : List (Option ValueType)) → List SemanticCause
  | [], [] => []
  | [], found :: _ => [.extraArgument (describe found)]
  | expected :: _, [] => [.missingArgument (describe expected)]
  | expected :: params, found :: args =>
    match if named then none else expected.bind (fits · found) with
    | some cause => cause :: arguments true params args
    | none => arguments named params args

def returned (declared : ValueType) (value : Option ValueType) : Option SemanticCause :=
  if declared.isVoid then some .valueFromVoid else fits declared value

def returnedNothing (declared : ValueType) : Option SemanticCause :=
  if declared.isVoid then none else some (.mismatch declared.text ValueType.void.text)

/-! ### When a rule has nothing to say -/

theorem exactly_eq_none_iff {expected : ValueType} {found : Option ValueType} :
    exactly expected found = none ↔ found = none ∨ found = some expected := by
  cases found <;> simp [exactly]

section Known

variable {τ σ : ValueType} {c : Comparison} {isPlace : Bool}

theorem variableInit_eq_none_iff : variableInit τ (some σ) = none ↔ τ.isVoid = false ∧ τ.accepts σ = true := by
  cases h : τ.isVoid <;> simp [variableInit, fits, h]

theorem assignment_eq_none_iff : assignment τ isPlace (some σ) = none ↔ isPlace = true ∧ τ.accepts σ = true := by
  cases isPlace <;> simp [assignment, fits]

theorem equality_eq_none_iff : equality τ σ = none ↔ (τ.isVoid = false ∧ σ.isVoid = false) ∧ τ.accepts σ = true := by
  cases h : τ.isVoid <;> cases h' : σ.isVoid <;> simp [equality, fits, h, h']

theorem relation_eq_none_iff : relation τ (some σ) = none ↔ τ.isOrdered = true ∧ σ = τ := by
  cases h : τ.isOrdered <;> simp [relation, exactly, h]

theorem arithmetic_eq_none_iff : arithmetic τ (some σ) = none ↔ τ = .int ∧ σ = .int := by
  simp [arithmetic, exactly, Option.or_eq_none_iff]

theorem arrayLength_eq_none_iff {element : BaseType} :
    arrayLength element (some σ) = none ↔ element ≠ .scalar .void ∧ σ = .int := by
  by_cases h : element = .scalar .void <;> simp [arrayLength, exactly, h]

theorem returned_eq_none_iff : returned τ (some σ) = none ↔ τ.isVoid = false ∧ τ.accepts σ = true := by
  cases h : τ.isVoid <;> simp [returned, fits, h]

theorem returnedNothing_eq_none_iff : returnedNothing τ = none ↔ τ.isVoid = true := by
  cases h : τ.isVoid <;> simp [returnedNothing, h]

theorem arguments_eq_nil_iff {params args : List ValueType} :
    arguments false (params.map some) (args.map some) = [] ↔
      params.length = args.length ∧ ∀ p ∈ params.zip args, p.1.accepts p.2 = true := by
  induction params generalizing args with
  | nil => cases args <;> simp [arguments]
  | cons τ params ih =>
    cases args with
    | nil => simp [arguments]
    | cons σ args =>
      cases h : τ.accepts σ <;> simp [arguments, fits, h, ih]

end Known

end OcCompiler.Typing
