import OcCompiler.ValueType

/-!
Attributes: what a value is and how it came to be. The type says what it is. The roles say how it was declared
or where it lives, and any roles may occur together.
-/

namespace OcCompiler

structure Roles where
  function : Bool := false
  prototype : Bool := false
  var : Bool := false
  field : Bool := false
  param : Bool := false
  lvalue : Bool := false
  const : Bool := false
  vreg : Bool := false
  vaddr : Bool := false
deriving DecidableEq, Repr, Inhabited

namespace Roles

def none : Roles := {}

def isEmpty (r : Roles) : Bool := r == none

def union (r s : Roles) : Roles where
  function := r.function || s.function
  prototype := r.prototype || s.prototype
  var := r.var || s.var
  field := r.field || s.field
  param := r.param || s.param
  lvalue := r.lvalue || s.lvalue
  const := r.const || s.const
  vreg := r.vreg || s.vreg
  vaddr := r.vaddr || s.vaddr

/-- The names of the roles in the order in which listings give them. A prototype is listed as a function. -/
def names (r : Roles) : List String :=
  [(r.function, "function"), (r.var, "variable"), (r.field, "field"), (r.param, "param"), (r.lvalue, "lval"),
   (r.const, "const"), (r.vreg, "vreg"), (r.vaddr, "vaddr")].filterMap
    fun (held, name) => if held then some name else Option.none

end Roles

/-- A type and roles. A missing type is one not yet known or one that was already complained about. -/
structure Attributes where
  type : Option ValueType := none
  roles : Roles := {}
deriving DecidableEq, Repr, Inhabited

namespace Attributes

def typed (type : ValueType) (roles : Roles) : Attributes := ⟨some type, roles⟩

def isEmpty (a : Attributes) : Bool := a.type.isNone && a.roles.isEmpty

def structTag? (a : Attributes) : Option String := a.type.bind ValueType.structTag?

def text (a : Attributes) : String :=
  " ".intercalate (a.type.toList.map ValueType.text ++ a.roles.names)

end Attributes

end OcCompiler
