import OcCompiler.Diagnostic
import OcCompiler.Fault
import OcCompiler.Text.Padding
import OcCompiler.Token.Piece

/-!
Token streams: the pieces of a text, each with its place. Tokens, lexical errors, file names and the token listing
are all read off the placed pieces, in text order.
-/

namespace OcCompiler

/-- A line marker says that what follows came from the given line of the named file. -/
structure Marker where
  line : Nat
  name : String
deriving DecidableEq, Repr, Inhabited

namespace Marker

def lineNumber? (digits : List Char) : Option Nat :=
  let value := digits.foldl (fun n d => 10 * n + (d.toNat - '0'.toNat)) 0
  if digits.isEmpty || value > counterMax then none else some value

/-- Reads a number sign, a line number and a quoted name. What follows the name does not matter. -/
def ofDirective? (text : List Char) : Option Marker := do
  let rest := Text.trimStart text.tail
  let line ← lineNumber? (rest.takeWhile Char.isDigit)
  match Text.trimStart (rest.dropWhile Char.isDigit) with
  | '"' :: quoted =>
    if quoted.contains '"' then some ⟨line, String.ofList (quoted.takeWhile (· != '"'))⟩ else none
  | _ => none

def text (m : Marker) : String := "# " ++ m.line.repr ++ " \"" ++ m.name ++ "\""

end Marker

namespace Location

def past (loc : Location) (c : Char) : Except Fault Location :=
  if c = '\n' then (countUp loc.line).map fun line => { loc with line, column := 0 }
  else (countUp loc.column).map fun column => { loc with column }

def pastAll (loc : Location) (text : List Char) : Except Fault Location := text.foldlM past loc

def follow (loc : Location) (m : Marker) : Location := { loc with file := loc.file + 1, line := m.line - 1 }

end Location

namespace Piece

def marker? : Piece → Option Marker
  | .directive text => Marker.ofDirective? text
  | _ => none

/-- How many characters a piece quotes. -/
def quotedCount : Piece → Nat
  | .token _ (quote :: text) | .badToken (quote :: text) =>
    if quote == '\'' || quote == '"' then (Scan.closeQuote quote text).count else 0
  | _ => 0

/-- The place behind a piece. What the piece quotes is counted with its lines and columns. -/
def finish (p : Piece) (loc : Location) : Except Fault Location :=
  if p.quotedCount ≤ quotedMax then
    (loc.pastAll p.text).map fun after => (p.marker?.map after.follow).getD after
  else .error .counterOverflow

theorem finish_eq_ok_iff {p : Piece} {loc next : Location} : p.finish loc = .ok next ↔
    p.quotedCount ≤ quotedMax ∧ ∃ after, loc.pastAll p.text = .ok after ∧
      (p.marker?.map after.follow).getD after = next := by
  unfold finish
  split
  · rename_i hcount
    rw [map_eq_ok_iff, and_iff_right hcount]
  · rename_i hcount
    simp [hcount]

def cause? : Piece → Option LexicalCause
  | .badCharacter _ => some .badCharacter
  | .badToken _ => some .badToken
  | .directive text => if (Marker.ofDirective? text).isSome then none else some .badDirective
  | _ => none

end Piece

structure Placed where
  piece : Piece
  loc : Location
deriving DecidableEq, Repr, Inhabited

namespace Placed

def lexeme (p : Placed) : Lexeme := ⟨String.ofList p.piece.text, p.loc⟩

def token? (p : Placed) : Option Token :=
  match p.piece with
  | .token kind _ => some ⟨kind, p.lexeme⟩
  | _ => none

def error? (p : Placed) : Option Diagnostic :=
  p.piece.cause?.map fun cause => ⟨.lexical cause, p.lexeme.text, p.loc⟩

end Placed

def Token.listingLine (t : Token) : String :=
  Text.padStart ' ' 4 t.loc.file.repr ++ " " ++ Text.padStart ' ' 3 t.loc.line.repr ++ "." ++
    Text.padStart '0' 3 t.loc.column.repr ++ " " ++ Text.padStart ' ' 4 t.kind.code.repr ++ " " ++
    Text.padEnd ' ' 13 t.kind.label ++ " (" ++ t.text ++ ")\n"

/-- The placed pieces of a text, and the place where it ends. -/
structure TokenStream where
  fileName : String
  placed : List Placed
  finish : Location
deriving Repr, Inhabited

namespace TokenStream

def place (loc : Location) : List Piece → Except Fault (List Placed × Location)
  | [] => .ok ([], loc)
  | p :: ps => do
    let next ← p.finish loc
    let (rest, finish) ← place next ps
    return (⟨p, loc⟩ :: rest, finish)

def ofText (fileName text : String) : Except Fault TokenStream := do
  let (placed, finish) ← place { line := 1 } (Scan.pieces true text.toList)
  return ⟨fileName, placed, finish⟩

def tokens (s : TokenStream) : List Token := s.placed.filterMap Placed.token? ++ [.atEnd s.finish]

def errors (s : TokenStream) : List Diagnostic := s.placed.filterMap Placed.error?

def files (s : TokenStream) : FileNames :=
  ⟨(s.fileName :: s.placed.filterMap fun p => p.piece.marker?.map Marker.name).toArray⟩

def listing (s : TokenStream) : String :=
  String.join <| s.placed.filterMap fun p =>
    match p.token? with
    | some t => some t.listingLine
    | none => p.piece.marker?.map fun m => m.text ++ "\n"

end TokenStream

end OcCompiler
