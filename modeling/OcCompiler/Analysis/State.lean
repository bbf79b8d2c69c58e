import OcCompiler.Diagnostic
import OcCompiler.Symbol.Table
import OcCompiler.Tree.Dump

/-!
The state of an analysis. The tree itself stays as it is: what is found out about its nodes is kept beside it, as
decorations, together with the symbols, the declarations to be emitted and the diagnostics.
-/

namespace OcCompiler

structure Decoration where
  attrs : Attributes := {}
  /-- The block that the node belongs to; for names, the block that declares them. -/
  block : Nat := globalBlock
  symbol : Option SymbolId := none
deriving DecidableEq, Repr, Inhabited

/-- The decorations of all nodes. A node has an empty one at first. -/
structure Decorations where
  entries : Array Decoration := #[]
deriving DecidableEq, Repr, Inhabited

namespace Decorations

def get (d : Decorations) (n : NodeId) : Decoration := d.entries.getD n.index {}

def set (d : Decorations) (n : NodeId) (x : Decoration) : Decorations :=
  let entries := d.entries ++ Array.replicate (n.index + 1 - d.entries.size) default
  ⟨entries.setIfInBounds n.index x⟩

theorem get_set (d : Decorations) (n m : NodeId) (x : Decoration) :
    (d.set n x).get m = if m = n then x else d.get m := by
  obtain ⟨i⟩ := n
  obtain ⟨j⟩ := m
  simp only [get, set, NodeId.mk.injEq, Array.getD_eq_getD_getElem?, Array.getElem?_setIfInBounds,
    Array.size_append, Array.size_replicate, Array.getElem?_append, Array.getElem?_replicate]
  by_cases same : j = i
  · subst same
    rw [if_pos rfl, if_pos rfl, if_pos (by omega)]
    rfl
  · rw [if_neg (Ne.symm same), if_neg same]
    split
    · rfl
    · rw [Array.getElem?_eq_none (by omega)]
      split <;> rfl

end Decorations

/-- The declarations to be emitted, each kind in source order. -/
structure Queues where
  structs : Array NodeId := #[]
  strings : Array NodeId := #[]
  globals : Array NodeId := #[]
  functions : Array NodeId := #[]
deriving DecidableEq, Repr, Inhabited

structure Analysis where
  decor : Decorations := {}
  symbols : SymbolTable := {}
  queues : Queues := {}
  log : Log := #[]
deriving Repr, Inhabited

namespace Analysis

def decoration (a : Analysis) (n : NodeId) : Decoration := a.decor.get n

def attrs (a : Analysis) (n : NodeId) : Attributes := (a.decoration n).attrs

def typeOf (a : Analysis) (n : NodeId) : Option ValueType := (a.attrs n).type

def decorate (a : Analysis) (n : NodeId) (d : Decoration) : Analysis := { a with decor := a.decor.set n d }

def setAttrs (a : Analysis) (n : NodeId) (attrs : Attributes) : Analysis :=
  a.decorate n { a.decoration n with attrs }

def setBlock (a : Analysis) (n : NodeId) (block : Nat) : Analysis := a.decorate n { a.decoration n with block }

def setType (a : Analysis) (n : NodeId) (type : ValueType) : Analysis :=
  a.setAttrs n { a.attrs n with type := some type }

def setSymbols (a : Analysis) (symbols : SymbolTable) : Analysis := { a with symbols }

def report (a : Analysis) (d : Diagnostic) : Analysis := { a with log := a.log.push d }

def forget (a : Analysis) (released : List NodeId) : Analysis :=
  released.foldl (fun a n => a.decorate n {}) a

/-- A node of a decorated dump: its block, its attributes and, for a name in use, where it was declared. -/
def decoratedLine (a : Analysis) (t : Tree) (n : NodeId) : String :=
  let d := a.decoration n
  let attrs := if d.attrs.isEmpty then "" else " " ++ d.attrs.text
  let declared :=
    if t.tag n = .name then
      match d.symbol with
      | some id => " (" ++ (a.symbols.get id).loc.text ++ ")"
      | none => " (not declared)"
    else ""
  t.rawLine n ++ " \x7b" ++ d.block.repr ++ "\x7d" ++ attrs ++ declared

def dump (a : Analysis) (t : Tree) : String := t.dumpWith (a.decoratedLine t)

end Analysis

end OcCompiler
