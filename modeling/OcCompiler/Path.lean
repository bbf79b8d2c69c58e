/-!
File paths: segments with slashes between them. A path's file name is its last segment that says something: empty
segments and single dots are passed over, and two dots are no name.
-/

namespace OcCompiler.Path

def cut (separator : Char) : List Char → List (List Char)
  | [] => [[]]
  | c :: cs =>
    if c = separator then [] :: cut separator cs
    else
      match cut separator cs with
      | [] => [[c]]
      | part :: parts => (c :: part) :: parts

theorem cut_ne_nil (separator : Char) (cs : List Char) : cut separator cs ≠ [] := by
  cases cs with
  | nil => simp [cut]
  | cons c cs =>
    unfold cut
    split
    · simp
    · split <;> simp

def segments (path : String) : List String := (cut '/' path.toList).map String.ofList

def isAbsolute (path : String) : Bool := path.toList.head? == some '/'

def isIdle (segment : String) : Bool := segment == "" || segment == "."

def fileName? (path : String) : Option String :=
  match ((segments path).filter (!isIdle ·)).getLast? with
  | some name => if name = ".." then none else some name
  | none => none

def extension? (path : String) : Option String :=
  (fileName? path).bind fun name =>
    let reversed := name.toList.reverse
    match reversed.dropWhile (· ≠ '.') with
    | [] | [_] => none
    | _ => some (String.ofList (reversed.takeWhile (· ≠ '.')).reverse)

def withoutEnding (ending name : String) : String :=
  if ending.toList.isSuffixOf name.toList then String.ofList (name.toList.take (name.length - ending.length))
  else name

def sourceEnding : String := ".oc"

def isSource (path : String) : Bool := extension? path == some "oc"

def baseName (path : String) : String := withoutEnding sourceEnding ((fileName? path).getD "")

def join (dir name : String) : String :=
  if dir = "" ∨ dir.toList.getLast? = some '/' then dir ++ name else dir ++ "/" ++ name

end OcCompiler.Path
