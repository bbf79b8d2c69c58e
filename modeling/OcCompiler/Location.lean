/-!
Places in the source. A location is a file number, a line and a column; files are numbered in the order in
which they are first named, and the same name may be given to several of them.
-/

namespace OcCompiler

/-- A place in the source. The first file is 0, its first line is 1, and a line's first column is 0. -/
structure Location where
  file : Nat := 0
  line : Nat := 0
  column : Nat := 0
deriving DecidableEq, Repr, Inhabited

namespace Location

def text (loc : Location) : String :=
  loc.file.repr ++ "." ++ loc.line.repr ++ "." ++ loc.column.repr

def labelSuffix (loc : Location) : String :=
  loc.file.repr ++ "_" ++ loc.line.repr ++ "_" ++ loc.column.repr

end Location

/-- A piece of source text together with the place where it starts. -/
structure Lexeme where
  text : String
  loc : Location
deriving DecidableEq, Repr, Inhabited

/-- The names of the files seen so far; a file's number is its position. -/
structure FileNames where
  names : Array String := #[]
deriving DecidableEq, Repr, Inhabited

namespace FileNames

def size (files : FileNames) : Nat := files.names.size

def isEmpty (files : FileNames) : Bool := files.names.isEmpty

def name? (files : FileNames) (file : Nat) : Option String := files.names[file]?

def add (files : FileNames) (name : String) : FileNames := ⟨files.names.push name⟩

end FileNames

end OcCompiler
