import OcCompiler.Location
import OcCompiler.Tag

/-!
Faults. A fault ends all work at once: a tree whose shape no program has, a value that should have a type and
has none, or a counter that has no next value. A program that was read from text meets only the last kind.
-/

namespace OcCompiler

inductive Fault where
  | counterOverflow
  | missingChild (tag : Tag) (loc : Location) (index : Nat)
  | noBaseType (loc : Location) (tag : Tag)
  | lostFields (struct : String)
  | noElementType (loc : Location)
  | untyped (tag : Tag) (text : String) (loc : Location)
  | notExpression (tag : Tag) (loc : Location)
  | arrayTyped (type : ValueType)
  | notStruct (loc : Location)
  | outOfRange (size index : Nat)
deriving DecidableEq, Repr, Inhabited

namespace Fault

def message : Fault → String
  | .counterOverflow => "attempt to add with overflow"
  | .missingChild tag loc index =>
    "ICE: " ++ tag.text ++ " node at " ++ loc.text ++ " has no child " ++ index.repr
  | .noBaseType loc tag => "ICE: declaration at " ++ loc.text ++ " has no base type (" ++ tag.text ++ ")"
  | .lostFields struct => "ICE: struct '" ++ struct ++ "' lost its field table"
  | .noElementType loc => "ICE: array allocation at " ++ loc.text ++ " has no element type"
  | .untyped tag text loc =>
    "ICE: " ++ tag.text ++ " \"" ++ text ++ "\" (" ++ loc.text ++ ") reached emission without a type"
  | .notExpression tag loc => "ICE: " ++ tag.text ++ " at " ++ loc.text ++ " is not an expression"
  | .arrayTyped type => "ICE: array allocation typed " ++ type.text
  | .notStruct loc => "ICE: field selection at " ++ loc.text ++ " on a non-struct"
  | .outOfRange size index =>
    "index out of bounds: the len is " ++ size.repr ++ " but the index is " ++ index.repr

end Fault

/-- The largest line, column, block and register number. -/
def counterMax : Nat := 4294967295

/-- The largest number of characters that a quoted constant can count. This counter has a sign. -/
def quotedMax : Nat := 2147483647

def countUp (n : Nat) : Except Fault Nat :=
  if n < counterMax then .ok (n + 1) else .error .counterOverflow

theorem countUp_eq_ok_iff {n m : Nat} : countUp n = .ok m ↔ n < counterMax ∧ m = n + 1 := by
  unfold countUp
  split <;> rename_i below <;> simp [below, eq_comm]

section Outcomes

variable {ε α β : Type} {m : Except ε α} {y : β}

theorem bind_eq_ok_iff {f : α → Except ε β} : m >>= f = .ok y ↔ ∃ x, m = .ok x ∧ f x = .ok y := by
  cases m with
  | error e => simp [bind, Except.bind]
  | ok x => simp [bind, Except.bind]

theorem map_eq_ok_iff {f : α → β} : m.map f = .ok y ↔ ∃ x, m = .ok x ∧ f x = y := by
  cases m with
  | error e => simp [Except.map]
  | ok x => simp [Except.map]

end Outcomes

end OcCompiler
