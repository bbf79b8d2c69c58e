import OcCompiler.Attributes
import OcCompiler.Fault
import OcCompiler.Text.Padding

/-!
Symbols and scopes. Open scopes form a stack that always holds the global one; a scope that is closed is kept in the
archive. A name is bound at most once in a scope, and the first binding stays.
-/

namespace OcCompiler

structure SymbolId where
  index : Nat
deriving DecidableEq, Repr, Inhabited

namespace SymbolId

def number (id : SymbolId) : Nat := id.index + 1

def ofNumber? : Nat → Option SymbolId
  | 0 => none
  | n + 1 => some ⟨n⟩

end SymbolId

def globalBlock : Nat := 0

/-- A variable, parameter, function, struct tag or field. -/
structure Symbol where
  name : String
  loc : Location
  block : Nat
  attrs : Attributes
  fields : Option (List (String × SymbolId)) := none
  params : Option (List SymbolId) := none
deriving DecidableEq, Repr, Inhabited

namespace Symbol

def isComplete (s : Symbol) : Bool := s.fields.isSome

def field? (s : Symbol) (name : String) : Option SymbolId := s.fields.bind (·.lookup name)

def setField (s : Symbol) (name : String) (id : SymbolId) : Symbol :=
  let fields := s.fields.getD []
  let fields :=
    if (fields.lookup name).isSome then fields.map fun (key, old) => (key, if key == name then id else old)
    else fields ++ [(name, id)]
  { s with fields := some fields }

def text (s : Symbol) : String :=
  s.name ++ " (" ++ s.loc.text ++ ") \x7b" ++ s.block.repr ++ "\x7d " ++ s.attrs.text

def isTopLevel (s : Symbol) : Bool := s.block == globalBlock && !s.attrs.roles.field

end Symbol

structure Scope where
  block : Nat
  bindings : List (String × SymbolId) := []
deriving DecidableEq, Repr, Inhabited

namespace Scope

def find? (s : Scope) (name : String) : Option SymbolId := s.bindings.lookup name

def bind (s : Scope) (name : String) (id : SymbolId) : Scope := { s with bindings := s.bindings ++ [(name, id)] }

theorem find?_bind (s : Scope) (name other : String) (id : SymbolId) :
    (s.bind name id).find? other = (s.find? other).or (if other = name then some id else none) := by
  simp only [find?, bind]
  induction s.bindings with
  | nil =>
    by_cases same : other = name
    · simp [same]
    · simp [List.lookup_cons, beq_eq_false_iff_ne.mpr same, same]
  | cons first rest ih =>
    obtain ⟨key, value⟩ := first
    cases found : other == key <;> simp [List.lookup_cons, found, ih]

end Scope

inductive ListingLine where
  | symbol (depth : Nat) (id : SymbolId)
  | blank
deriving DecidableEq, Repr, Inhabited

structure SymbolTable where
  entries : Array Symbol := #[]
  inner : Scope := { block := globalBlock }
  outer : List Scope := []
  archive : Array Scope := #[]
  structs : List (String × SymbolId) := []
  nextBlock : Nat := 1
  listing : Array ListingLine := #[]
deriving Repr, Inhabited

namespace SymbolTable

def size (t : SymbolTable) : Nat := t.entries.size

def isEmpty (t : SymbolTable) : Bool := t.entries.isEmpty

/-! ### Symbols -/

def get (t : SymbolTable) (id : SymbolId) : Symbol := t.entries.getD id.index default

def require (t : SymbolTable) (id : SymbolId) : Except Fault Unit :=
  if id.index < t.size then .ok () else .error (.outOfRange t.size id.index)

def push (t : SymbolTable) (s : Symbol) : SymbolId × SymbolTable :=
  (⟨t.size⟩, { t with entries := t.entries.push s })

def modify (t : SymbolTable) (id : SymbolId) (f : Symbol → Symbol) : SymbolTable :=
  { t with entries := t.entries.modify id.index f }

theorem get_push (t : SymbolTable) (s : Symbol) (id : SymbolId) :
    (t.push s).2.get id = if id = (t.push s).1 then s else t.get id := by
  obtain ⟨i⟩ := id
  simp only [get, push, size, SymbolId.mk.injEq, Array.getD_eq_getD_getElem?, Array.getElem?_push]
  split <;> rfl

/-! ### Scopes -/

def currentBlock (t : SymbolTable) : Nat := t.inner.block

def depth (t : SymbolTable) : Nat := t.outer.length

def openScopes (t : SymbolTable) : List Scope := t.inner :: t.outer

/-- All scopes: the closed ones in closing order, then the open ones from the outside in. -/
def scopes (t : SymbolTable) : List Scope := t.archive.toList ++ t.openScopes.reverse

def enterBlock (t : SymbolTable) : SymbolTable :=
  { t with inner := { block := t.nextBlock }, outer := t.inner :: t.outer, nextBlock := t.nextBlock + 1 }

def exitBlock (t : SymbolTable) : Option Nat × SymbolTable :=
  match t.outer with
  | [] => (none, t)
  | around :: outer =>
    (some t.inner.block, { t with inner := around, outer, archive := t.archive.push t.inner })

/-- Binds a name in the innermost scope. If it has a binding there, that one stays and is given back. -/
def insert (t : SymbolTable) (name : String) (id : SymbolId) : Except SymbolId SymbolTable :=
  match t.inner.find? name with
  | some existing => .error existing
  | none => .ok { t with inner := t.inner.bind name id }

def lookup (t : SymbolTable) (name : String) : Option SymbolId := t.openScopes.findSome? (·.find? name)

theorem lookup_of_insert_eq_ok {t next : SymbolTable} {name : String} {id : SymbolId}
    (inserted : t.insert name id = .ok next) : next.lookup name = some id := by
  unfold insert at inserted
  split at inserted
  · cases inserted
  · rename_i absent
    cases inserted
    simp [lookup, openScopes, Scope.find?_bind, absent]

def lookupLocal (t : SymbolTable) (name : String) : Option SymbolId := t.inner.find? name

def lookupInBlock (t : SymbolTable) (block : Nat) (name : String) : Option SymbolId :=
  (t.scopes.find? (·.block == block)).bind (·.find? name)

/-! ### Struct tags -/

def struct? (t : SymbolTable) (name : String) : Option SymbolId := t.structs.lookup name

def structOrPlaceholder (t : SymbolTable) (tag : Lexeme) : SymbolId × SymbolTable :=
  match t.struct? tag.text with
  | some id => (id, t)
  | none =>
    let (id, t) := t.push
      { name := tag.text, loc := tag.loc, block := globalBlock, attrs := .typed (.struct tag.text) {} }
    (id, { t with structs := t.structs ++ [(tag.text, id)] })

/-! ### The listing -/

def record (t : SymbolTable) (depth : Nat) (id : SymbolId) : SymbolTable :=
  { t with listing := t.listing.push (.symbol depth id) }

def recordBlank (t : SymbolTable) : SymbolTable := { t with listing := t.listing.push .blank }

/-- Renders lines of the listing. Once one top-level symbol has been listed, a blank line goes before each further
    one. -/
def renderLines (t : SymbolTable) (listed : Bool) : List ListingLine → String
  | [] => ""
  | .blank :: lines => "\n" ++ t.renderLines listed lines
  | .symbol depth id :: lines =>
    let s := t.get id
    (if s.isTopLevel && listed then "\n" else "") ++ Text.repeated depth "   " ++ s.text ++ "\n" ++
      t.renderLines (listed || s.isTopLevel) lines

def requireListed (t : SymbolTable) : Except Fault Unit :=
  t.listing.toList.forM fun
    | .symbol _ id => t.require id
    | .blank => .ok ()

def renderListing (t : SymbolTable) : String := t.renderLines false t.listing.toList

end SymbolTable

end OcCompiler
