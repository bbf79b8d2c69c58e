import OcCompiler.Path

/-!
Files and directories as a value. Every segment of a path but the last one must lead to a directory, and a slash at
the end asks for one too. Names and whole paths are limited in length.
-/

namespace OcCompiler

/-- Why a file cannot be read or written. -/
inductive FileError where
  | missing
  | notDirectory
  | isDirectory
  | nameTooLong
  | denied
  | zeroInName
  | notText
  | other (message : String)
deriving DecidableEq, Repr, Inhabited

def FileError.message : FileError → String
  | .missing => "No such file or directory (os error 2)"
  | .notDirectory => "Not a directory (os error 20)"
  | .isDirectory => "Is a directory (os error 21)"
  | .nameTooLong => "File name too long (os error 36)"
  | .denied => "Permission denied (os error 13)"
  | .zeroInName => "file name contained an unexpected NUL byte"
  | .notText => "stream did not contain valid UTF-8"
  | .other message => message

inductive FileEntry where
  | file (content : ByteArray)
  | directory

/-- The place of an entry: the names that lead to it from the top. -/
abbrev EntryPath := List String

structure FileSystem where
  entries : List (EntryPath × FileEntry) := []
  current : EntryPath := []

namespace FileSystem

def find? (fs : FileSystem) (place : EntryPath) : Option FileEntry :=
  if place.isEmpty then some .directory else fs.entries.lookup place

def put (fs : FileSystem) (place : EntryPath) (entry : FileEntry) : FileSystem :=
  { fs with entries := (place, entry) :: fs.entries.filter (·.1 ≠ place) }

theorem lookup_filter_ne {place other : EntryPath} (differs : other ≠ place)
    (entries : List (EntryPath × FileEntry)) :
    (entries.filter (·.1 ≠ place)).lookup other = entries.lookup other := by
  induction entries with
  | nil => rfl
  | cons first rest ih =>
    obtain ⟨key, value⟩ := first
    by_cases dropped : key = place
    · rw [List.filter_cons_of_neg (by simp [dropped]), ih, List.lookup_cons, dropped,
        beq_eq_false_iff_ne.mpr differs]
    · rw [List.filter_cons_of_pos (by simp [dropped]), List.lookup_cons, List.lookup_cons, ih]

theorem find?_put (fs : FileSystem) {place : EntryPath} (below : place ≠ []) (entry : FileEntry)
    (other : EntryPath) :
    (fs.put place entry).find? other = if other = place then some entry else fs.find? other := by
  unfold find? put
  by_cases top : other = []
  · subst top
    rw [if_neg (Ne.symm below)]
    rfl
  · have nonempty : ¬ other.isEmpty = true := by simp [top]
    rw [if_neg nonempty, if_neg nonempty, List.lookup_cons]
    by_cases same : other = place
    · simp [same]
    · rw [if_neg same, beq_eq_false_iff_ne.mpr same, lookup_filter_ne same]

def nameLimit : Nat := 255

def pathLimit : Nat := 4095

def follow (fs : FileSystem) (here : EntryPath) : List String → Except FileError EntryPath
  | [] => .ok here
  | segment :: rest =>
    match fs.find? here with
    | none => .error .missing
    | some (.file _) => .error .notDirectory
    | some .directory =>
      if Path.isIdle segment then fs.follow here rest
      else if segment = ".." then fs.follow here.dropLast rest
      else if nameLimit < segment.utf8ByteSize then .error .nameTooLong
      else fs.follow (here ++ [segment]) rest

/-- The place that a path speaks of. Whether something is there is another question. A zero character is found before
    the length is looked at. -/
def resolve (fs : FileSystem) (path : String) : Except FileError EntryPath :=
  if path.toList.contains (Char.ofNat 0) then .error .zeroInName
  else if path = "" then .error .missing
  else if pathLimit < path.utf8ByteSize then .error .nameTooLong
  else fs.follow (if Path.isAbsolute path then [] else fs.current) (Path.segments path)

def textOf (content : ByteArray) : Except FileError String :=
  match String.fromUTF8? content with
  | some text => .ok text
  | none => .error .notText

def read (fs : FileSystem) (path : String) : Except FileError String := do
  match fs.find? (← fs.resolve path) with
  | none => throw .missing
  | some .directory => throw .isDirectory
  | some (.file content) => textOf content

def write (fs : FileSystem) (path text : String) : Except FileError FileSystem := do
  let place ← fs.resolve path
  match fs.find? place with
  | some .directory => throw .isDirectory
  | _ => return fs.put place (.file text.toUTF8)

def makeDirectory (fs : FileSystem) (here : EntryPath) : List String → FileSystem
  | [] => fs
  | name :: rest =>
    let dir := here ++ [name]
    let fs := if (fs.find? dir).isSome then fs else fs.put dir .directory
    fs.makeDirectory dir rest

end FileSystem

end OcCompiler
