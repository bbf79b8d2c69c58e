import OcCompiler.Text.Blank
import OcCompiler.Token.Kind

/-!
Pieces of source text. A text is cut into blanks, comments, lines that start with a number sign, tokens, and
text that is no token. Main statements: the pieces of a text put together are the text, and no piece is empty.
-/

namespace OcCompiler

/-- One stretch of source text and what it is. -/
inductive Piece where
  | blank (text : List Char)
  | comment (text : List Char)
  | directive (text : List Char)
  | token (kind : TokenKind) (text : List Char)
  | badCharacter (c : Char)
  | badToken (text : List Char)
deriving DecidableEq, Repr, Inhabited

namespace Piece

def text : Piece → List Char
  | .blank text | .comment text | .directive text | .token _ text | .badToken text => text
  | .badCharacter c => [c]

def endsLine : Piece → Bool
  | .blank text => text.getLast? == some '\n'
  | _ => false

end Piece

namespace Scan

def isWordStart (c : Char) : Bool := c.isAlpha || c == '_'

def isWordChar (c : Char) : Bool := c.isAlphanum || c == '_'

def isEscape (c : Char) : Bool := ['n', 't', '0', '\\', '\'', '"'].contains c

def isPunct (c : Char) : Bool :=
  ['=', '!', '+', '-', '*', '/', '%', '(', ')', '[', ']', '\x7b', '\x7d', ',', ';', '.'].contains c

def pair? : Char → Char → Option TokenKind
  | '=', '=' => some (.comparison .eq)
  | '!', '=' => some (.comparison .ne)
  | '<', '=' => some (.comparison .le)
  | '>', '=' => some (.comparison .ge)
  | '[', ']' => some .arrayMark
  | _, _ => none

def single? (c : Char) : Option TokenKind :=
  if c == '<' then some (.comparison .lt)
  else if c == '>' then some (.comparison .gt)
  else if isPunct c then some (.punct c)
  else none

/-- Splits what follows the start of a block comment behind the first star and slash. A comment that is never closed
    takes all. -/
def closeComment : List Char → List Char × List Char
  | [] => ([], [])
  | '*' :: '/' :: rest => (['*', '/'], rest)
  | c :: rest => (c :: (closeComment rest).1, (closeComment rest).2)

theorem closeComment_append (cs : List Char) : (closeComment cs).1 ++ (closeComment cs).2 = cs := by
  fun_induction closeComment cs <;> simp_all

/-- What follows an opening quote: the text up to and with the closing quote, the rest, how many characters are
    quoted, and whether the constant is closed and all its escapes are known. -/
structure Quoted where
  text : List Char
  rest : List Char
  count : Nat
  sound : Bool

def closeQuote (quote : Char) : List Char → Quoted
  | [] => ⟨[], [], 0, false⟩
  | '\\' :: e :: rest =>
    if isEscape e then
      let q := closeQuote quote rest
      ⟨'\\' :: e :: q.text, q.rest, q.count + 1, q.sound⟩
    else
      let q := closeQuote quote (e :: rest)
      ⟨'\\' :: q.text, q.rest, q.count + 1, false⟩
  | c :: rest =>
    if c = '\n' then ⟨[], c :: rest, 0, false⟩
    else if c = quote then ⟨[c], rest, 0, true⟩
    else
      let q := closeQuote quote rest
      ⟨c :: q.text, q.rest, q.count + 1, q.sound⟩

theorem closeQuote_append (quote : Char) (cs : List Char) :
    (closeQuote quote cs).text ++ (closeQuote quote cs).rest = cs := by
  fun_induction closeQuote quote cs <;> grind

def word (text : List Char) : Piece :=
  .token ((TokenKind.ofReserved? (String.ofList text)).getD .name) text

def number (cs : List Char) : Piece × List Char :=
  let rest := cs.dropWhile Char.isDigit
  match rest with
  | c :: _ =>
    if isWordStart c then
      (.badToken (cs.takeWhile Char.isDigit ++ rest.takeWhile isWordChar), rest.dropWhile isWordChar)
    else (.token (.literal .int) (cs.takeWhile Char.isDigit), rest)
  | [] => (.token (.literal .int) (cs.takeWhile Char.isDigit), rest)

/-- A quoted constant is a token if it is closed, its escapes are known and, between single quotes, it quotes one
    character. -/
def quoted (quote : Char) (rest : List Char) : Piece × List Char :=
  let q := closeQuote quote rest
  if q.sound && quote == '"' then (.token (.literal .string) (quote :: q.text), q.rest)
  else if q.sound && q.count == 1 then (.token (.literal .char) (quote :: q.text), q.rest)
  else (.badToken (quote :: q.text), q.rest)

def mark (c : Char) (rest : List Char) : Piece × List Char :=
  match rest with
  | d :: rest' =>
    match pair? c d with
    | some kind => (.token kind [c, d], rest')
    | none => (((single? c).map fun kind => .token kind [c]).getD (.badCharacter c), rest)
  | [] => (((single? c).map fun kind => .token kind [c]).getD (.badCharacter c), rest)

def first (lineStart : Bool) (c : Char) (rest : List Char) : Piece × List Char :=
  if Text.isBlank c then (.blank ((c :: rest).takeWhile Text.isBlank), (c :: rest).dropWhile Text.isBlank)
  else if c == '/' && rest.head? == some '/' then
    (.comment ((c :: rest).takeWhile (· != '\n')), (c :: rest).dropWhile (· != '\n'))
  else if c == '/' && rest.head? == some '*' then
    (.comment ('/' :: '*' :: (closeComment rest.tail).1), (closeComment rest.tail).2)
  else if c == '#' && lineStart then
    (.directive ((c :: rest).takeWhile (· != '\n')), (c :: rest).dropWhile (· != '\n'))
  else if isWordStart c then (word ((c :: rest).takeWhile isWordChar), (c :: rest).dropWhile isWordChar)
  else if c.isDigit then number (c :: rest)
  else if c == '\'' || c == '"' then quoted c rest
  else mark c rest

theorem number_joined (cs : List Char) : (number cs).1.text ++ (number cs).2 = cs := by
  simp only [number]
  split
  · split <;> simp [Piece.text]
  · simp [Piece.text]

theorem quoted_joined (quote : Char) (rest : List Char) :
    (quoted quote rest).1.text ++ (quoted quote rest).2 = quote :: rest := by
  have joined := closeQuote_append quote rest
  simp only [quoted]
  split
  · simpa [Piece.text] using joined
  · split <;> simpa [Piece.text] using joined

theorem mark_joined (c : Char) (rest : List Char) : (mark c rest).1.text ++ (mark c rest).2 = c :: rest := by
  unfold mark
  split
  · split
    · simp [Piece.text]
    · cases single? c <;> simp [Piece.text]
  · cases single? c <;> simp [Piece.text]

theorem first_joined (lineStart : Bool) (c : Char) (rest : List Char) :
    (first lineStart c rest).1.text ++ (first lineStart c rest).2 = c :: rest := by
  unfold first
  split
  · exact List.takeWhile_append_dropWhile
  split
  · exact List.takeWhile_append_dropWhile
  split
  · rename_i opened
    have comment := closeComment_append rest.tail
    cases rest <;> simp_all [Piece.text]
  split
  · exact List.takeWhile_append_dropWhile
  split
  · exact List.takeWhile_append_dropWhile
  split
  · exact number_joined _
  split
  · exact quoted_joined _ _
  · exact mark_joined _ _

theorem isWordChar_of_isWordStart {c : Char} (h : isWordStart c = true) : isWordChar c = true := by
  simp only [isWordStart, isWordChar, Char.isAlphanum, Bool.or_eq_true] at h ⊢
  exact h.imp_left Or.inl

theorem number_nonempty {c : Char} (digit : c.isDigit = true) (rest : List Char) :
    (number (c :: rest)).1.text ≠ [] := by
  simp only [number]
  split
  · split <;> simp [Piece.text, digit]
  · simp [Piece.text, digit]

theorem quoted_nonempty (quote : Char) (rest : List Char) : (quoted quote rest).1.text ≠ [] := by
  simp only [quoted]
  split
  · simp [Piece.text]
  · split <;> simp [Piece.text]

theorem mark_nonempty (c : Char) (rest : List Char) : (mark c rest).1.text ≠ [] := by
  unfold mark
  split
  · split
    · simp [Piece.text]
    · cases single? c <;> simp [Piece.text]
  · cases single? c <;> simp [Piece.text]

theorem first_nonempty (lineStart : Bool) (c : Char) (rest : List Char) :
    (first lineStart c rest).1.text ≠ [] := by
  unfold first
  split
  · rename_i blank
    simp [Piece.text, blank]
  split
  · rename_i slashes
    simp_all [Piece.text]
  split
  · simp [Piece.text]
  split
  · rename_i sign
    simp_all [Piece.text]
  split
  · rename_i start
    simp [Piece.text, word, isWordChar_of_isWordStart start]
  split
  · rename_i digit
    exact number_nonempty digit rest
  split
  · exact quoted_nonempty c rest
  · exact mark_nonempty c rest

theorem first_rest_length_lt (lineStart : Bool) (c : Char) (rest : List Char) :
    (first lineStart c rest).2.length < (c :: rest).length := by
  have joined := congrArg List.length (first_joined lineStart c rest)
  have nonempty := List.length_pos_iff.mpr (first_nonempty lineStart c rest)
  rw [List.length_append] at joined
  omega

def pieces (lineStart : Bool) : List Char → List Piece
  | [] => []
  | c :: rest =>
    let cut := first lineStart c rest
    cut.1 :: pieces cut.1.endsLine cut.2
termination_by cs => cs.length
decreasing_by exact first_rest_length_lt lineStart c rest

theorem text_ne_nil_of_mem_pieces {lineStart : Bool} {cs : List Char} {p : Piece} (h : p ∈ pieces lineStart cs) :
    p.text ≠ [] := by
  fun_induction pieces lineStart cs with
  | case1 => simp at h
  | case2 lineStart c rest cut ih =>
    rcases List.mem_cons.mp h with rfl | later
    · exact first_nonempty lineStart c rest
    · exact ih later

end Scan

end OcCompiler
