import OcCompiler.Proofs.Faultless
import OcCompiler.Proofs.LexicalGrammar
import OcCompiler.Proofs.Places

/-! How a text is cut into pieces. Every piece is what the lexical grammar calls for at its place, and tokens are the
    longest that stand there. -/

namespace OcCompiler

namespace Lexical

variable {ps : List Piece} {before cs rest : List Char} {p : Piece}

def AtLineStart (before : List Char) : Prop := ∀ c ∈ before.getLast?, c = '\n'

def ToLineEnd (text rest : List Char) : Prop := '\n' ∉ text ∧ ∀ c ∈ rest.head?, c = '\n'

/-- The text is a comment. A comment that starts with a slash and a star ends with the first star and slash; the last one
    may lack them. -/
inductive IsComment : List Char → List Char → Prop where
  | line {cs rest : List Char} (h : ToLineEnd ('/' :: '/' :: cs) rest) : IsComment ('/' :: '/' :: cs) rest
  | block {cs rest : List Char} (h : ¬['*', '/'] <:+: cs ++ ['*']) : IsComment ('/' :: '*' :: (cs ++ ['*', '/'])) rest
  | unclosed {cs : List Char} (h : ¬['*', '/'] <:+: cs) : IsComment ('/' :: '*' :: cs) []

/-- The text is no token: a number that runs on into a word, or a quoted constant that the grammar does not have, up to a
    quote or to the end of the line. -/
inductive IsBadToken : List Char → List Char → Prop where
  | number {digits word rest : List Char} {c : Char} (hne : digits ≠ []) (hdigits : ∀ d ∈ digits, d.isDigit = true)
    (hc : IsLetter c) (hword : ∀ d ∈ word, IsLetter d ∨ d.isDigit = true)
    (hrest : ∀ d ∈ rest.head?, ¬(IsLetter d ∨ d.isDigit = true)) : IsBadToken (digits ++ c :: word) rest
  | quoted {quote : Char} {cs rest : List Char} (hquote : quote = '\'' ∨ quote = '"')
    (hnone : Tokenless (quote :: (cs ++ rest))) (hline : '\n' ∉ cs)
    (hend : cs.getLast? = some quote ∨ ∀ c ∈ rest.head?, c = '\n') : IsBadToken (quote :: cs) rest

def Stands (before rest : List Char) : Piece → Prop
  | .blank text => text ≠ [] ∧ (∀ c ∈ text, Text.isBlank c = true) ∧ ∀ c ∈ rest.head?, Text.isBlank c = false
  | .comment text => IsComment text rest
  | .directive text => AtLineStart before ∧ text.head? = some '#' ∧ ToLineEnd text rest
  | .token kind text =>
    Longest kind text rest ∧ ¬['/', '/'] <+: text ++ rest ∧ ¬['/', '*'] <+: text ++ rest ∧
      (kind = .literal .int → ∀ c ∈ rest.head?, ¬IsLetter c)
  | .badCharacter c => Text.isBlank c = false ∧ ¬(c = '#' ∧ AtLineStart before) ∧ Tokenless (c :: rest)
  | .badToken text => IsBadToken text rest

/-- A text, behind another one, is cut into the pieces. -/
inductive Cut : List Char → List Char → List Piece → Prop where
  | done (before : List Char) : Cut before [] []
  | piece {before rest : List Char} {p : Piece} {ps : List Piece} (h : Stands before rest p)
    (hrest : Cut (before ++ p.text) rest ps) : Cut before (p.text ++ rest) (p :: ps)

theorem Cut.joined (h : Cut before cs ps) : (ps.map Piece.text).flatten = cs := by
  induction h with
  | done before => rfl
  | piece _ _ ih => rw [List.map_cons, List.flatten_cons, ih]

theorem toLineEnd_takeWhile (cs : List Char) : ToLineEnd (cs.takeWhile (· != '\n')) (cs.dropWhile (· != '\n')) := by
  refine ⟨fun h => ?_, fun c hc => ?_⟩
  · have := List.all_eq_true.mp List.all_takeWhile _ h
    simp at this
  · have := List.head?_dropWhile_not (· != '\n') cs
    rw [hc] at this
    simpa using this

theorem isComment_closeComment (cs : List Char) :
    IsComment ('/' :: '*' :: (Scan.closeComment cs).1) (Scan.closeComment cs).2 := by
  have hclose : (∃ body, (Scan.closeComment cs).1 = body ++ ['*', '/'] ∧ ¬['*', '/'] <:+: body ++ ['*']) ∨
      (Scan.closeComment cs).2 = [] ∧ (Scan.closeComment cs).1 = cs ∧ ¬['*', '/'] <:+: cs := by
    fun_induction Scan.closeComment cs with
    | case1 => exact .inr ⟨rfl, rfl, by decide⟩
    | case2 rest => exact .inl ⟨[], rfl, by decide⟩
    | case3 c rest hopen ih =>
      rcases ih with ⟨body, htext, hnone⟩ | ⟨hrest, htext, hnone⟩
      · refine .inl ⟨c :: body, by rw [htext]; rfl, ?_⟩
        rw [List.cons_append, List.infix_cons_iff]
        rintro (hstart | hlater)
        · -- the star would be followed by a slash in the text itself
          have hjoined := Scan.closeComment_append rest
          rw [htext] at hjoined
          obtain ⟨rfl, hnext⟩ := List.cons_prefix_cons.mp hstart
          cases body with
          | nil => exact absurd hnext (by decide)
          | cons b body =>
            obtain ⟨rfl, -⟩ := List.cons_prefix_cons.mp hnext
            exact hopen _ rfl hjoined.symm
        · exact hnone hlater
      · refine .inr ⟨hrest, by rw [htext], ?_⟩
        rw [List.infix_cons_iff]
        rintro (hstart | hlater)
        · obtain ⟨rest', heq⟩ := hstart
          cases heq
          exact hopen rest' rfl rfl
        · exact hnone hlater
  rcases hclose with ⟨body, htext, hnone⟩ | ⟨hrest, htext, hnone⟩
  · rw [htext]
    exact .block hnone
  · rw [hrest, htext]
    exact .unclosed hnone

theorem closeQuote_extent (quote : Char) (cs : List Char) : '\n' ∉ (Scan.closeQuote quote cs).text ∧
    ((Scan.closeQuote quote cs).text.getLast? = some quote ∨ ∀ c ∈ (Scan.closeQuote quote cs).rest.head?, c = '\n') := by
  have hlonger {c : Char} {q : Scan.Quoted} (h : q.text.getLast? = some quote ∨ ∀ c ∈ q.rest.head?, c = '\n') :
      (c :: q.text).getLast? = some quote ∨ ∀ c ∈ q.rest.head?, c = '\n' :=
    h.imp_left fun h => by rw [List.getLast?_cons, h, Option.getD_some]
  fun_induction Scan.closeQuote quote cs with
  | case1 => exact ⟨by simp, .inr (by simp)⟩
  | case2 e rest he q ih =>
    have hne : e ≠ '\n' := by
      rintro rfl
      cases he
    refine ⟨by simp [hne.symm, ih.1, q], ?_⟩
    exact (hlonger ih.2).imp_left fun h => by rw [List.getLast?_cons, h, Option.getD_some]
  | case3 e rest he q ih => exact ⟨by simp [ih.1, q], hlonger ih.2⟩
  | case4 rest hslash => exact ⟨by simp, .inr (by simp)⟩
  | case5 rest hslash hline => exact ⟨by simp [Ne.symm hline], .inl rfl⟩
  | case6 c rest hslash hline hquote q ih => exact ⟨by simp [Ne.symm hline, ih.1, q], hlonger ih.2⟩

section First

variable {before : List Char} {c : Char} {rest : List Char}

def Uncommented (cs : List Char) : Prop := ¬['/', '/'] <+: cs ∧ ¬['/', '*'] <+: cs

theorem stands_number (hc : c.isDigit = true) (hcomment : Uncommented (c :: rest)) :
    Stands before (Scan.number (c :: rest)).2 (Scan.number (c :: rest)).1 := by
  have htoken (h : ∀ d ∈ ((c :: rest).dropWhile Char.isDigit).head?, ¬IsLetter d) :
      Stands before ((c :: rest).dropWhile Char.isDigit) (.token (.literal .int) ((c :: rest).takeWhile Char.isDigit)) := by
    refine ⟨longest_number hc, ?_, ?_, fun _ => h⟩
    · rw [List.takeWhile_append_dropWhile]
      exact hcomment.1
    · rw [List.takeWhile_append_dropWhile]
      exact hcomment.2
  unfold Scan.number
  dsimp only
  split
  · rename_i d rest' hrest
    split
    · rename_i hd
      dsimp only
      rw [hrest, List.takeWhile_cons_of_pos (Scan.isWordChar_of_isWordStart hd),
        List.dropWhile_cons_of_pos (Scan.isWordChar_of_isWordStart hd)]
      refine .number ?_ (fun e he => List.all_eq_true.mp List.all_takeWhile e he) (isLetter_iff.mpr hd)
        (fun e he => isLetter_or_isDigit_iff.mpr (List.all_eq_true.mp List.all_takeWhile e he)) fun e he => ?_
      · rw [List.takeWhile_cons_of_pos hc]
        exact List.cons_ne_nil _ _
      · have hstop := List.head?_dropWhile_not Scan.isWordChar rest'
        rw [he] at hstop
        rw [isLetter_or_isDigit_iff]
        simpa using hstop
    · rename_i hd
      refine htoken ?_
      rw [hrest]
      rintro e he
      cases he
      rwa [isLetter_iff]
  · rename_i hrest
    exact htoken (by simp [hrest])

theorem uncommented_of_ne (hc : c ≠ '/') (rest : List Char) : Uncommented (c :: rest) :=
  ⟨fun h => hc (List.cons_prefix_cons.mp h).1.symm, fun h => hc (List.cons_prefix_cons.mp h).1.symm⟩

theorem stands_quoted {quote : Char} (hquote : quote = '\'' ∨ quote = '"') :
    Stands before (Scan.quoted quote rest).2 (Scan.quoted quote rest).1 := by
  have hslash : quote ≠ '/' := by rcases hquote with rfl | rfl <;> decide
  have htoken (hsound : (Scan.closeQuote quote rest).sound = true)
      (hcount : quote = '\'' → (Scan.closeQuote quote rest).count = 1) :
      Stands before (Scan.closeQuote quote rest).rest
        (.token (quotedKind quote) (quote :: (Scan.closeQuote quote rest).text)) := by
    have hcomment := uncommented_of_ne hslash ((Scan.closeQuote quote rest).text ++ (Scan.closeQuote quote rest).rest)
    refine ⟨longest_quoted hquote hsound hcount, hcomment.1, hcomment.2, fun h => ?_⟩
    rcases hquote with rfl | rfl <;> cases h
  unfold Scan.quoted
  dsimp only
  split
  · rename_i h
    simp only [Bool.and_eq_true, beq_iff_eq] at h
    obtain ⟨hsound, rfl⟩ := h
    exact htoken hsound fun h => absurd h (by decide)
  · rename_i hstring
    split
    · rename_i h
      simp only [Bool.and_eq_true, beq_iff_eq] at h hstring
      obtain rfl := hquote.resolve_right fun hdouble => hstring ⟨h.1, hdouble⟩
      exact htoken h.1 fun _ => h.2
    · rename_i hchar
      simp only [Bool.and_eq_true, beq_iff_eq, not_and] at hstring hchar
      obtain ⟨hline, hend⟩ := closeQuote_extent quote rest
      refine .quoted hquote ?_ hline hend
      rw [Scan.closeQuote_append]
      exact tokenless_quoted hquote fun hsound => ⟨hquote.resolve_right (hstring hsound), hchar hsound⟩

theorem stands_mark (hc : StartsMark c) (hblank : Text.isBlank c = false) (hcomment : Uncommented (c :: rest))
    (hsign : ¬(c = '#' ∧ AtLineStart before)) : Stands before (Scan.mark c rest).2 (Scan.mark c rest).1 := by
  have hint {text : List Char} (h : (text, TokenKind.literal .int) ∈ marks) : False := by
    have hall : ∀ p ∈ marks, p.2 ≠ .literal .int := by decide
    exact hall _ h rfl
  -- without a mark of two characters there is one of one character, or nothing that the grammar knows
  have hone (hpair : ∀ d, rest.head? = some d → Scan.pair? c d = none) :
      Stands before rest (((Scan.single? c).map fun kind => .token kind [c]).getD (.badCharacter c)) := by
    cases hsingle : Scan.single? c with
    | some kind =>
      have hlongest := longest_single hc hsingle hpair
      refine ⟨hlongest, hcomment.1, hcomment.2, ?_⟩
      rintro rfl
      exact absurd (single?_eq_some_iff.mp hsingle) hint
    | none => exact ⟨hblank, hsign, tokenless_mark hc hsingle hpair⟩
  unfold Scan.mark
  split
  · rename_i d rest'
    split
    · rename_i kind hpair
      refine ⟨longest_pair hc hpair, hcomment.1, hcomment.2, ?_⟩
      rintro rfl
      exact absurd (pair?_eq_some_iff.mp hpair) hint
    · rename_i hpair
      exact hone fun e he => by cases he; exact hpair
  · exact hone nofun

theorem stands_word (hc : IsLetter c) :
    Stands before ((c :: rest).dropWhile Scan.isWordChar) (Scan.word ((c :: rest).takeWhile Scan.isWordChar)) := by
  have hslash : c ≠ '/' := by
    rintro rfl
    simp [IsLetter] at hc
  have hcomment := uncommented_of_ne hslash rest
  have hkind (text : List Char) : wordKind text ≠ .literal .int := by
    have hall : ∀ p ∈ reserved, p.2 ≠ .literal .int := by decide
    unfold wordKind
    cases hlookup : reserved.lookup (String.ofList text) with
    | none => exact TokenKind.noConfusion
    | some kind =>
      obtain ⟨l₁, l₂, hreserved, -⟩ := List.lookup_eq_some_iff.mp hlookup
      exact hall (String.ofList text, kind) (by rw [hreserved]; simp)
  rw [Scan.word, ofReserved?_eq_lookup]
  refine ⟨longest_word hc, ?_, ?_, fun h => absurd h (hkind _)⟩
  · rw [List.takeWhile_append_dropWhile]
    exact hcomment.1
  · rw [List.takeWhile_append_dropWhile]
    exact hcomment.2

theorem stands_first {lineStart : Bool} (hline : lineStart = true ↔ AtLineStart before) :
    Stands before (Scan.first lineStart c rest).2 (Scan.first lineStart c rest).1 := by
  unfold Scan.first
  split
  · rename_i hblank
    refine ⟨by simp [hblank], fun d hd => List.all_eq_true.mp List.all_takeWhile d hd, fun d hd => ?_⟩
    have hstop := List.head?_dropWhile_not Text.isBlank (c :: rest)
    rw [hd] at hstop
    exact hstop
  rename_i hblank
  rw [Bool.not_eq_true] at hblank
  split
  · rename_i hslashes
    simp only [Bool.and_eq_true, beq_iff_eq] at hslashes
    obtain ⟨rfl, hslashes⟩ := hslashes
    obtain ⟨rest, rfl⟩ := List.head?_eq_some_iff.mp hslashes
    exact .line (toLineEnd_takeWhile ('/' :: '/' :: rest))
  rename_i hslashes
  split
  · rename_i hopen
    exact isComment_closeComment _
  rename_i hopen
  simp only [Bool.and_eq_true, beq_iff_eq, not_and] at hslashes hopen
  have hcomment : Uncommented (c :: rest) := by
    refine ⟨fun h => ?_, fun h => ?_⟩
    · obtain ⟨rfl, hrest⟩ := List.cons_prefix_cons.mp h
      exact hslashes rfl (List.singleton_prefix_iff_head?_eq_some.mp hrest)
    · obtain ⟨rfl, hrest⟩ := List.cons_prefix_cons.mp h
      exact hopen rfl (List.singleton_prefix_iff_head?_eq_some.mp hrest)
  split
  · rename_i hsign
    simp only [Bool.and_eq_true, beq_iff_eq] at hsign
    obtain ⟨rfl, hstart⟩ := hsign
    exact ⟨hline.mp hstart, by simp, toLineEnd_takeWhile _⟩
  rename_i hsign
  simp only [Bool.and_eq_true, beq_iff_eq, hline] at hsign
  split
  · rename_i hletter
    exact stands_word (isLetter_iff.mpr hletter)
  rename_i hletter
  split
  · rename_i hdigit
    exact stands_number hdigit hcomment
  rename_i hdigit
  split
  · rename_i hquote
    simp only [Bool.or_eq_true, beq_iff_eq] at hquote
    exact stands_quoted hquote
  rename_i hquote
  simp only [Bool.or_eq_true, beq_iff_eq] at hquote
  rw [← isLetter_iff] at hletter
  exact stands_mark ⟨hletter, by simpa using hdigit, hquote⟩ hblank hcomment hsign

end First

section Lines

variable {before rest text : List Char} {kind : TokenKind}

theorem ne_newline {c : Char} (hc : IsLetter c ∨ c.isDigit = true) : c ≠ '\n' := by
  rintro rfl
  exact absurd (isLetter_or_isDigit_iff.mp hc) (by decide)

theorem IsToken.newline_not_mem (h : IsToken kind text) : '\n' ∉ text := by
  have hbody {quote : Char} {n : Nat} {cs : List Char} (h : Body quote n cs) : '\n' ∉ cs := by
    induction h with
    | nil => simp
    | plain hc _ ih => grind
    | escape he _ ih => grind
  have hmarks : ∀ p ∈ marks, '\n' ∉ p.1 := by decide
  intro hmem
  cases h with
  | word hc hcs =>
    rcases List.mem_cons.mp hmem with hfirst | hlater
    · exact ne_newline (.inl hc) hfirst.symm
    · exact ne_newline (hcs _ hlater) rfl
  | number _ h => exact ne_newline (.inr (h _ hmem)) rfl
  | char h => simp [hbody h] at hmem
  | string h => simp [hbody h] at hmem
  | mark h => exact hmarks _ h hmem

theorem Stands.newline_not_mem {p : Piece} (h : Stands before rest p) (hblank : ∀ text, p ≠ .blank text)
    (hcomment : ∀ text, p ≠ .comment text) : '\n' ∉ p.text := by
  cases p with
  | blank text => exact absurd rfl (hblank text)
  | comment text => exact absurd rfl (hcomment text)
  | directive text => exact h.2.2.1
  | token kind text => exact h.1.isToken.newline_not_mem
  | badCharacter d =>
    rintro hmem
    obtain rfl := List.mem_singleton.mp hmem
    exact absurd h.1 (by decide)
  | badToken text =>
    intro hmem
    cases h with
    | number _ hdigits hc hword _ =>
      rcases List.mem_append.mp hmem with hmem | hmem
      · exact ne_newline (.inr (hdigits _ hmem)) rfl
      · rcases List.mem_cons.mp hmem with hmem | hmem
        · exact ne_newline (.inl hc) hmem.symm
        · exact ne_newline (hword _ hmem) rfl
    | quoted hquote _ hline _ =>
      rcases List.mem_cons.mp hmem with hmem | hmem
      · rcases hquote with rfl | rfl <;> cases hmem
      · exact hline hmem

theorem Stands.endsLine_iff {p : Piece} (h : Stands before rest p) (hne : p.text ≠ []) (hrest : rest ≠ []) :
    p.endsLine = true ↔ AtLineStart (before ++ p.text) := by
  obtain ⟨c, hlast⟩ := Option.isSome_iff_exists.mp (List.getLast?_isSome.mpr hne)
  have hstart : AtLineStart (before ++ p.text) ↔ c = '\n' := by
    rw [AtLineStart, List.getLast?_append, hlast]
    simp
  rw [hstart]
  -- what has no line end in it cannot end with one
  have hinside (hmem : '\n' ∉ p.text) : c ≠ '\n' := by
    rintro rfl
    exact hmem (List.mem_of_getLast? hlast)
  cases p with
  | blank text => simp [Piece.endsLine, show text.getLast? = some c from hlast]
  | comment text =>
    refine iff_of_false Bool.false_ne_true ?_
    cases h with
    | line h => exact hinside h.1
    | block h =>
      rw [Piece.text, List.getLast?_cons, List.getLast?_cons, List.getLast?_append] at hlast
      cases hlast
      simp
    | unclosed h => exact absurd rfl hrest
  | _ => exact iff_of_false Bool.false_ne_true (hinside (h.newline_not_mem (by simp) (by simp)))

end Lines

theorem cut_pieces {lineStart : Bool} (hline : lineStart = true ↔ AtLineStart before) :
    Cut before cs (Scan.pieces lineStart cs) := by
  fun_induction Scan.pieces lineStart cs generalizing before with
  | case1 lineStart => exact .done before
  | case2 lineStart c rest cut =>
    rename_i ih
    have hstands : Stands before cut.2 cut.1 := stands_first hline
    have hcut : Cut (before ++ cut.1.text) cut.2 (Scan.pieces cut.1.endsLine cut.2) := by
      cases hrest : cut.2 with
      | nil =>
        rw [Scan.pieces]
        exact .done _
      | cons d ds =>
        rw [← hrest]
        exact ih (hstands.endsLine_iff (Scan.first_nonempty lineStart c rest) (by rw [hrest]; exact List.cons_ne_nil _ _))
    rw [← Scan.first_joined lineStart c rest]
    exact .piece hstands hcut

theorem cut_text (cs : List Char) : Cut [] cs (Scan.pieces true cs) := cut_pieces (by simp [AtLineStart])

/-- The line is a line marker: a number sign, a number that lines can have, and a name in quotes. Blanks may stand before
    both, and anything behind them. -/
inductive IsMarker : List Char → Marker → Prop where
  | intro {indent digits gap name rest : List Char} (hindent : ∀ c ∈ indent, Text.isBlank c = true) (hne : digits ≠ [])
    (hdigits : ∀ c ∈ digits, c.isDigit = true) (hvalue : Nat.ofDigitChars 10 digits 0 ≤ counterMax)
    (hgap : ∀ c ∈ gap, Text.isBlank c = true) (hname : '"' ∉ name) :
    IsMarker ('#' :: (indent ++ (digits ++ (gap ++ '"' :: (name ++ '"' :: rest)))))
      ⟨Nat.ofDigitChars 10 digits 0, String.ofList name⟩

section Marker

theorem span_of_forall {p : Char → Bool} {run : List Char} (rest : List Char) (hrun : ∀ c ∈ run, p c = true)
    (hrest : ∀ c ∈ rest.head?, p c = false) :
    (run ++ rest).takeWhile p = run ∧ (run ++ rest).dropWhile p = rest := by
  rw [List.takeWhile_append_of_pos hrun, List.dropWhile_append_of_pos hrun]
  cases rest with
  | nil => simp
  | cons c rest =>
    have hc := hrest c rfl
    simp [hc]

theorem isBlank_eq_false_of_isDigit {c : Char} (h : c.isDigit = true) : Text.isBlank c = false := by
  have hcodes : ∀ code ∈ Text.blankCodes, code < 48 ∨ 57 < code := by decide
  simp only [Char.isDigit, Bool.and_eq_true, decide_eq_true_eq] at h
  have hlow : 48 ≤ c.toNat := UInt32.le_iff_toNat_le.mp h.1
  have hhigh : c.toNat ≤ 57 := UInt32.le_iff_toNat_le.mp h.2
  rw [Text.isBlank, ← Bool.not_eq_true, List.contains_iff_mem]
  intro hmem
  rcases hcodes _ hmem with hcode | hcode
  · exact absurd hlow (Nat.not_le.mpr hcode)
  · exact absurd hhigh (Nat.not_le.mpr hcode)

theorem lineNumber?_eq_some_iff {digits : List Char} {line : Nat} : Marker.lineNumber? digits = some line ↔
    digits ≠ [] ∧ Nat.ofDigitChars 10 digits 0 ≤ counterMax ∧ line = Nat.ofDigitChars 10 digits 0 := by
  unfold Marker.lineNumber?
  rw [← Nat.ofDigitChars]
  dsimp only
  split
  · rename_i h
    refine iff_of_false nofun ?_
    rintro ⟨hne, hvalue, -⟩
    simp only [Bool.or_eq_true, List.isEmpty_iff, decide_eq_true_eq] at h
    exact h.elim hne (Nat.not_lt.mpr hvalue)
  · rename_i h
    simp only [Bool.or_eq_true, List.isEmpty_iff, decide_eq_true_eq, not_or, Nat.not_lt] at h
    constructor
    · rintro ⟨⟩
      exact ⟨h.1, h.2, rfl⟩
    · rintro ⟨-, -, rfl⟩
      rfl

theorem ofDirective?_eq_some_iff {cs : List Char} {m : Marker} :
    Marker.ofDirective? ('#' :: cs) = some m ↔ IsMarker ('#' :: cs) m := by
  simp only [Marker.ofDirective?, Option.bind_eq_bind, Option.bind_eq_some_iff, List.tail_cons, Text.trimStart]
  constructor
  · rintro ⟨line, hline, h⟩
    obtain ⟨hne, hvalue, rfl⟩ := lineNumber?_eq_some_iff.mp hline
    split at h
    · rename_i quoted hquoted
      split at h
      · rename_i hclosed
        cases h
        -- the text is put together from the runs that it was taken apart into
        have hjoined (p : Char → Bool) (text : List Char) : text = text.takeWhile p ++ text.dropWhile p :=
          List.takeWhile_append_dropWhile.symm
        obtain ⟨rest, hrest⟩ : ∃ rest, quoted = quoted.takeWhile (· != '"') ++ '"' :: rest := by
          have hname := hjoined (· != '"') quoted
          have hstop := List.head?_dropWhile_not (· != '"') quoted
          cases hrest : quoted.dropWhile (· != '"') with
          | nil =>
            rw [hrest, List.append_nil] at hname
            have hmem := List.contains_iff_mem.mp hclosed
            rw [hname] at hmem
            have := List.all_eq_true.mp List.all_takeWhile _ hmem
            simp at this
          | cons c rest =>
            rw [hrest] at hstop hname
            obtain rfl : c = '"' := by simpa using hstop
            exact ⟨rest, hname⟩
        have hall (p : Char → Bool) (text : List Char) : ∀ c ∈ text.takeWhile p, p c = true :=
          fun c hc => List.all_eq_true.mp List.all_takeWhile c hc
        have hmarker := @IsMarker.intro _ _ _ _ rest (hall Text.isBlank cs) hne (hall Char.isDigit _) hvalue
          (hall Text.isBlank ((cs.dropWhile Text.isBlank).dropWhile Char.isDigit))
          (fun hmem => by simpa using hall (· != '"') quoted _ hmem)
        rw [← hrest, ← hquoted, ← hjoined, ← hjoined, ← hjoined] at hmarker
        exact hmarker
      · cases h
    · cases h
  · rintro (@⟨indent, digits, gap, name, rest, hindent, hne, hdigits, hvalue, hgap, hname⟩)
    obtain ⟨d, ds, rfl⟩ := List.exists_cons_of_ne_nil hne
    have hd := isBlank_eq_false_of_isDigit (hdigits d List.mem_cons_self)
    have hmark : ∀ c ∈ (gap ++ '"' :: (name ++ '"' :: rest)).head?, c.isDigit = false := by
      intro c hc
      cases gap with
      | nil =>
        cases hc
        rfl
      | cons g gap =>
        cases hc
        by_contra hdigit
        rw [Bool.not_eq_false] at hdigit
        simp [isBlank_eq_false_of_isDigit hdigit] at hgap
    have hplain : ∀ c ∈ name, (c != '"') = true := by
      rintro c hc
      rw [bne_iff_ne]
      rintro rfl
      exact hname hc
    obtain ⟨-, hafter⟩ := span_of_forall (d :: ds ++ (gap ++ '"' :: (name ++ '"' :: rest))) hindent fun c hc => by
      cases hc
      exact hd
    obtain ⟨htake, hdrop⟩ := span_of_forall _ hdigits hmark
    obtain ⟨-, hquoted⟩ := span_of_forall ('"' :: (name ++ '"' :: rest)) hgap fun c hc => by
      cases hc
      rfl
    obtain ⟨hend, -⟩ := span_of_forall ('"' :: rest) hplain fun c hc => by
      cases hc
      rfl
    rw [hafter, htake, hdrop, hquoted]
    refine ⟨_, lineNumber?_eq_some_iff.mpr ⟨hne, hvalue, rfl⟩, ?_⟩
    refine (if_pos (by simp)).trans ?_
    rw [hend]

instance decidableIsMarker : (text : List Char) → Decidable (∃ m, IsMarker text m)
  | [] => isFalse nofun
  | c :: cs =>
    if hc : c = '#' then
      decidable_of_iff ((Marker.ofDirective? ('#' :: cs)).isSome = true) <| by
        rw [hc, Option.isSome_iff_exists]
        exact exists_congr fun m => ofDirective?_eq_some_iff
    else
      isFalse <| by
        rintro ⟨m, ⟨⟩⟩
        exact hc rfl

end Marker

/-! ### What is read off the pieces -/

def token? : Piece → Option (TokenKind × String)
  | .token kind text => some (kind, String.ofList text)
  | _ => none

/-- What the piece is complained of, and with which text. -/
def complaint? : Piece → Option (Cause × String)
  | .badCharacter c => some (.lexical .badCharacter, String.ofList [c])
  | .badToken text => some (.lexical .badToken, String.ofList text)
  | .directive text => if ∃ m, IsMarker text m then none else some (.lexical .badDirective, String.ofList text)
  | _ => none

/-- The text stays where counters can follow: it is not too long, none of its markers has a line number too near to the
    largest, and no piece quotes too much. -/
structure Fits (cs : List Char) (ps : List Piece) : Prop where
  length : cs.length < counterMax
  marker : ∀ {text : List Char} {m : Marker}, .directive text ∈ ps → IsMarker text m → m.line + cs.length ≤ counterMax
  quoted : ∀ p ∈ ps, p.quotedCount ≤ quotedMax

theorem Cut.stands (h : Cut before cs ps) (hp : p ∈ ps) :
    ∃ before rest, Stands before rest p := by
  induction h with
  | done before => cases hp
  | piece h _ ih =>
    rcases List.mem_cons.mp hp with rfl | hp
    · exact ⟨_, _, h⟩
    · exact ih hp

theorem Stands.marker?_eq_some_iff {text : List Char} {m : Marker} (h : Stands before rest (.directive text)) :
    (Piece.directive text).marker? = some m ↔ IsMarker text m := by
  obtain ⟨cs, rfl⟩ := List.head?_eq_some_iff.mp h.2.1
  exact ofDirective?_eq_some_iff

theorem Stands.complaint?_eq (h : Stands before rest p) :
    complaint? p = p.cause?.map fun cause => (.lexical cause, String.ofList p.text) := by
  cases p with
  | directive text =>
    have hmarker : (Marker.ofDirective? text).isSome = true ↔ ∃ m, IsMarker text m := by
      rw [Option.isSome_iff_exists]
      exact exists_congr fun m => h.marker?_eq_some_iff
    simp only [complaint?, Piece.cause?, hmarker]
    split <;> rfl
  | _ => rfl

end Lexical

namespace Location

theorem past_eq_ok_iff {loc next : Location} {c : Char} : loc.past c = .ok next ↔
    if c = '\n' then loc.line < counterMax ∧ next = { loc with line := loc.line + 1, column := 0 }
    else loc.column < counterMax ∧ next = { loc with column := loc.column + 1 } := by
  unfold past
  split
  · rw [map_eq_ok_iff]
    constructor
    · rintro ⟨line, hline, rfl⟩
      obtain ⟨hroom, rfl⟩ := countUp_eq_ok_iff.mp hline
      exact ⟨hroom, rfl⟩
    · rintro ⟨hroom, rfl⟩
      exact ⟨_, countUp_eq_ok_iff.mpr ⟨hroom, rfl⟩, rfl⟩
  · rw [map_eq_ok_iff]
    constructor
    · rintro ⟨column, hcolumn, rfl⟩
      obtain ⟨hroom, rfl⟩ := countUp_eq_ok_iff.mp hcolumn
      exact ⟨hroom, rfl⟩
    · rintro ⟨hroom, rfl⟩
      exact ⟨_, countUp_eq_ok_iff.mpr ⟨hroom, rfl⟩, rfl⟩

theorem pastAll_counts {text : List Char} {loc after : Location} (h : loc.pastAll text = .ok after)
    (hline : loc.line ≤ counterMax) : after.line = loc.line + text.count '\n' ∧ after.line ≤ counterMax ∧
      after.column ≤ loc.column + text.length := by
  induction text generalizing loc with
  | nil =>
    cases h
    exact ⟨rfl, hline, Nat.le_refl _⟩
  | cons c text ih =>
    rw [pastAll, List.foldlM_cons] at h
    obtain ⟨next, hnext, h⟩ := bind_eq_ok_iff.mp h
    rw [List.length_cons]
    by_cases hc : c = '\n'
    · rw [past_eq_ok_iff, if_pos hc] at hnext
      obtain ⟨hroom, rfl⟩ := hnext
      obtain ⟨hafter, hbound, hcolumn⟩ := ih h hroom
      rw [hc, List.count_cons_self]
      rw [Nat.zero_add] at hcolumn
      refine ⟨by rw [hafter, Nat.add_right_comm, Nat.add_assoc], hbound, ?_⟩
      exact Nat.le_add_left_of_le (Nat.le_succ_of_le hcolumn)
    · rw [past_eq_ok_iff, if_neg hc] at hnext
      obtain ⟨-, rfl⟩ := hnext
      obtain ⟨hafter, hbound, hcolumn⟩ := ih h hline
      rw [List.count_cons_of_ne hc]
      exact ⟨hafter, hbound, Nat.le_trans hcolumn (Nat.le_of_eq (Nat.add_right_comm ..))⟩

theorem exists_pastAll {text : List Char} {loc : Location} (hline : loc.line + text.count '\n' ≤ counterMax)
    (hcolumn : loc.column + text.length ≤ counterMax) : ∃ after, loc.pastAll text = .ok after := by
  induction text generalizing loc with
  | nil => exact ⟨loc, rfl⟩
  | cons c text ih =>
    rw [List.length_cons] at hcolumn
    by_cases hc : c = '\n'
    · rw [hc, List.count_cons_self] at hline
      have hpast : loc.past c = .ok { loc with line := loc.line + 1, column := 0 } := by
        rw [past_eq_ok_iff, if_pos hc]
        exact ⟨by omega, rfl⟩
      obtain ⟨after, hafter⟩ := @ih { loc with line := loc.line + 1, column := 0 } (by dsimp only; omega) (by dsimp only; omega)
      exact ⟨after, bind_eq_ok_iff.mpr ⟨_, hpast, hafter⟩⟩
    · rw [List.count_cons_of_ne hc] at hline
      have hpast : loc.past c = .ok { loc with column := loc.column + 1 } := by
        rw [past_eq_ok_iff, if_neg hc]
        exact ⟨by omega, rfl⟩
      obtain ⟨after, hafter⟩ := @ih { loc with column := loc.column + 1 } hline (by dsimp only; omega)
      exact ⟨after, bind_eq_ok_iff.mpr ⟨_, hpast, hafter⟩⟩

end Location

namespace TokenStream

variable {s : TokenStream} {name text : String}

theorem quotedCount_le_of_place {ps : List Piece} {loc : Location} {result : List Placed × Location}
    (h : place loc ps = .ok result) : ∀ p ∈ ps, p.quotedCount ≤ quotedMax := by
  induction ps generalizing loc result with
  | nil => exact List.forall_mem_nil _
  | cons p ps ih =>
    obtain ⟨next, hnext, h⟩ := bind_eq_ok_iff.mp h
    obtain ⟨later, hrest, -⟩ := bind_eq_ok_iff.mp h
    exact List.forall_mem_cons.mpr ⟨(Piece.finish_eq_ok_iff.mp hnext).1, ih hrest⟩

theorem exists_place {limit : Nat} {ps : List Piece} (loc : Location) (hquoted : ∀ p ∈ ps, p.quotedCount ≤ quotedMax)
    (hmarkers : ∀ p ∈ ps, ∀ m ∈ p.marker?, m.line + limit ≤ counterMax) (hlimit : (ps.map Piece.text).flatten.length ≤ limit)
    (hline : loc.line + (ps.map Piece.text).flatten.length ≤ counterMax)
    (hcolumn : loc.column + (ps.map Piece.text).flatten.length ≤ counterMax) : ∃ result, place loc ps = .ok result := by
  induction ps generalizing loc with
  | nil => exact ⟨_, rfl⟩
  | cons p ps ih =>
    rw [List.map_cons, List.flatten_cons, List.length_append] at hlimit hline hcolumn
    obtain ⟨hmarker, hlater⟩ := List.forall_mem_cons.mp hmarkers
    obtain ⟨hcounted, hquoted⟩ := List.forall_mem_cons.mp hquoted
    have hcount : p.text.count '\n' ≤ p.text.length := List.count_le_length
    obtain ⟨after, hafter⟩ := @Location.exists_pastAll p.text loc (by omega) (by omega)
    obtain ⟨hafterLine, -, hafterColumn⟩ := Location.pastAll_counts hafter (by omega)
    have hnext := Piece.finish_eq_ok_iff.mpr ⟨hcounted, after, hafter, rfl⟩
    have hroom : ((p.marker?.map after.follow).getD after).line + (ps.map Piece.text).flatten.length ≤ counterMax ∧
        ((p.marker?.map after.follow).getD after).column + (ps.map Piece.text).flatten.length ≤ counterMax := by
      cases hm : p.marker? with
      | none =>
        simp only [Option.map_none, Option.getD_none]
        omega
      | some m =>
        have := hmarker m hm
        simp only [Option.map_some, Option.getD_some, Location.follow]
        omega
    obtain ⟨⟨rest, finish⟩, hrest⟩ := ih _ hquoted hlater (by omega) hroom.1 hroom.2
    exact ⟨_, bind_eq_ok_iff.mpr ⟨_, hnext, bind_eq_ok_iff.mpr ⟨_, hrest, rfl⟩⟩⟩

theorem exists_ofText (name : String)
    (h : Lexical.Fits text.toList (Scan.pieces true text.toList)) : ∃ s, ofText name text = .ok s := by
  have hcut := Lexical.cut_text text.toList
  have hmarkers : ∀ p ∈ Scan.pieces true text.toList, ∀ m ∈ p.marker?, m.line + text.toList.length ≤ counterMax := by
    intro p hp m hm
    cases p with
    | directive line =>
      obtain ⟨before, rest, hstands⟩ := hcut.stands hp
      exact h.marker hp (hstands.marker?_eq_some_iff.mp hm)
    | _ => cases hm
  have hjoined := hcut.joined
  obtain ⟨⟨placed, finish⟩, hplace⟩ := exists_place { line := 1 } h.quoted hmarkers
    (Nat.le_of_eq (congrArg List.length hjoined)) (by rw [hjoined, Nat.add_comm]; exact h.length) (by rw [hjoined, Nat.zero_add]; exact Nat.le_of_lt h.length)
  exact ⟨_, bind_eq_ok_iff.mpr ⟨_, hplace, rfl⟩⟩

theorem map_tokens (h : ofText name text = .ok s) :
    s.tokens.map (fun t => (t.kind, t.text)) =
      (Scan.pieces true text.toList).filterMap Lexical.token? ++ [(.endOfFile, "")] := by
  rw [← (ofText_ordered h).1, tokens, List.map_append, List.map_filterMap, List.filterMap_map]
  congr 1
  refine List.filterMap_congr fun p _ => ?_
  obtain ⟨piece, loc⟩ := p
  cases piece <;> rfl

theorem map_errors (h : ofText name text = .ok s) :
    s.errors.map (fun d => (d.cause, d.name)) = (Scan.pieces true text.toList).filterMap Lexical.complaint? := by
  have hcut := Lexical.cut_text text.toList
  rw [← (ofText_ordered h).1] at hcut ⊢
  rw [errors, List.map_filterMap, List.filterMap_map]
  refine List.filterMap_congr fun p hp => ?_
  obtain ⟨before, rest, hstands⟩ := hcut.stands (List.mem_map_of_mem hp)
  rw [Function.comp_apply, hstands.complaint?_eq, Placed.error?, Option.map_map]
  rfl

/-- Every text is cut into pieces that may stand where they do. What is read from it has their tokens in order and then one
    end, and their errors in order. Reading gives nothing only if a line or a column passes the largest number. -/
theorem cut_ofText (name text : String) : ∃ ps,
    Lexical.Cut [] text.toList ps ∧ (ps.map Piece.text).flatten = text.toList ∧
      match ofText name text with
      | .ok s => s.tokens.map (fun t => (t.kind, t.text)) = ps.filterMap Lexical.token? ++ [(.endOfFile, "")] ∧
          s.errors.map (fun d => (d.cause, d.name)) = ps.filterMap Lexical.complaint?
      | .error f => f = .counterOverflow ∧ ¬Lexical.Fits text.toList ps := by
  have hcut := Lexical.cut_text text.toList
  refine ⟨_, hcut, hcut.joined, ?_⟩
  cases h : ofText name text with
  | ok s => exact ⟨map_tokens h, map_errors h⟩
  | error f =>
    refine ⟨ofText_overflows name text f h, fun hfits => ?_⟩
    obtain ⟨s, hs⟩ := exists_ofText name hfits
    rw [h] at hs
    cases hs

end TokenStream

end OcCompiler
