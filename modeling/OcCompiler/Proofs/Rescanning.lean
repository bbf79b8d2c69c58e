import OcCompiler.Proofs.TokenPlaces

/-! Scanning what was printed. Tokens that are printed with single spaces between them are cut out again as they were.
    -/

namespace OcCompiler

namespace Lexical

variable {ts : List (TokenKind × String)} {stop : List Char}

def Spaced (rest : List Char) : Prop := ∀ c ∈ rest.head?, c = ' '

section Token

variable {kind : TokenKind} {text rest : List Char} {c : Char}

theorem isBlank_eq_false_of_isLetter (h : IsLetter c) : Text.isBlank c = false := by
  have hblanks : ∀ code ∈ Text.blankCodes, Scan.isWordStart (Char.ofNat code) = false := by decide
  rw [← Bool.not_eq_true, Text.isBlank, List.contains_iff_mem]
  intro hmem
  have hstart := hblanks _ hmem
  rw [Char.ofNat_toNat, isLetter_iff.mp h] at hstart
  cases hstart

theorem IsToken.head_plain (h : IsToken kind (c :: text)) : Text.isBlank c = false ∧ c ≠ '#' := by
  have hmarks : ∀ p ∈ marks, p.1.head?.all (fun c => !Text.isBlank c && c != '#') = true := by decide
  cases h with
  | word hc _ =>
    refine ⟨isBlank_eq_false_of_isLetter hc, ?_⟩
    rintro rfl
    simp [IsLetter] at hc
  | number _ h =>
    have hc := h c List.mem_cons_self
    refine ⟨isBlank_eq_false_of_isDigit hc, ?_⟩
    rintro rfl
    cases hc
  | char _ => exact ⟨by decide, by decide⟩
  | string _ => exact ⟨by decide, by decide⟩
  | mark h => simpa using hmarks _ h

theorem IsToken.uncommented (h : IsToken kind (c :: text)) (hrest : Spaced rest) : Uncommented (c :: (text ++ rest)) := by
  by_cases hc : c = '/'
  · subst hc
    have hslash : ∀ p ∈ marks, p.1.head? = some '/' → p.1 = ['/'] := by decide
    obtain rfl : text = [] := by
      have hmark := h.of_other (by simp [IsLetter]) (by decide) (by decide)
      exact (List.cons.inj (hslash _ hmark rfl)).2
    cases rest with
    | nil => exact ⟨by decide, by decide⟩
    | cons d rest =>
      obtain rfl := hrest d rfl
      simp [Uncommented]
  · exact uncommented_of_ne hc _

theorem number_of_digits (h : ∀ d ∈ text, d.isDigit = true) (hrest : Spaced rest) :
    Scan.number (text ++ rest) = (.token (.literal .int) text, rest) := by
  obtain ⟨htake, hdrop⟩ := span_of_forall rest h fun d hd => by
    rw [hrest d hd]
    decide
  simp only [Scan.number, htake, hdrop]
  cases rest with
  | nil => rfl
  | cons d rest =>
    obtain rfl := hrest d rfl
    rfl

theorem word_of_letters (h : ∀ d ∈ text, IsLetter d ∨ d.isDigit = true) (hrest : Spaced rest) :
    Scan.word ((text ++ rest).takeWhile Scan.isWordChar) = .token (wordKind text) text ∧
      (text ++ rest).dropWhile Scan.isWordChar = rest := by
  have hrun : ∀ d ∈ text, Scan.isWordChar d = true := fun d hd => isLetter_or_isDigit_iff.mp (h d hd)
  obtain ⟨htake, hdrop⟩ := span_of_forall rest hrun fun d hd => by
    rw [hrest d hd]
    decide
  rw [htake, hdrop, Scan.word, ofReserved?_eq_lookup]
  exact ⟨rfl, rfl⟩

theorem mark_of_marks (h : (c :: text, kind) ∈ marks) (hrest : Spaced rest) :
    Scan.mark c (text ++ rest) = (.token kind (c :: text), rest) := by
  have hspace : ∀ p ∈ marks, ' ' ∉ p.1 := by decide
  match text with
  | [] =>
    have hsingle := single?_eq_some_iff.mpr h
    cases rest with
    | nil => simp [Scan.mark, hsingle]
    | cons d rest =>
      obtain rfl := hrest d rfl
      have hpair : Scan.pair? c ' ' = none := by
        rw [Option.eq_none_iff_forall_ne_some]
        intro kind' hpair
        exact hspace _ (pair?_eq_some_iff.mp hpair) (by simp)
      simp [Scan.mark, hsingle, hpair]
  | [d] => simp [Scan.mark, pair?_eq_some_iff.mpr h]
  | _ :: _ :: _ => exact absurd (marks_length h) (by simp)

theorem IsToken.first (h : IsToken kind (c :: text)) (hrest : Spaced rest) (lineStart : Bool) :
    Scan.first lineStart c (text ++ rest) = (.token kind (c :: text), rest) := by
  obtain ⟨hblank, hsign⟩ := h.head_plain
  obtain ⟨hline, hblock⟩ := h.uncommented hrest
  have hslashes : ¬((c == '/' && (text ++ rest).head? == some '/') = true) := by
    simp only [Bool.and_eq_true, beq_iff_eq]
    rintro ⟨rfl, hnext⟩
    exact hline (List.cons_prefix_cons.mpr ⟨rfl, List.singleton_prefix_iff_head?_eq_some.mpr hnext⟩)
  have hopen : ¬((c == '/' && (text ++ rest).head? == some '*') = true) := by
    simp only [Bool.and_eq_true, beq_iff_eq]
    rintro ⟨rfl, hnext⟩
    exact hblock (List.cons_prefix_cons.mpr ⟨rfl, List.singleton_prefix_iff_head?_eq_some.mpr hnext⟩)
  have hdirective : ¬((c == '#' && lineStart) = true) := by simp [hsign]
  unfold Scan.first
  rw [if_neg (by simp [hblank]), if_neg hslashes, if_neg hopen, if_neg hdirective]
  by_cases hletter : IsLetter c
  · obtain ⟨rfl, hcs⟩ := h.of_letter hletter
    obtain ⟨hword, hafter⟩ := word_of_letters (List.forall_mem_cons.mpr ⟨.inl hletter, hcs⟩) hrest
    rw [if_pos (isLetter_iff.mp hletter), ← List.cons_append, hword, hafter]
  rw [if_neg (mt isLetter_iff.mpr hletter)]
  by_cases hdigit : c.isDigit = true
  · obtain ⟨rfl, hcs⟩ := h.of_digit hdigit
    rw [if_pos hdigit, ← List.cons_append, number_of_digits (List.forall_mem_cons.mpr ⟨hdigit, hcs⟩) hrest]
  rw [if_neg hdigit]
  by_cases hquote : c = '\'' ∨ c = '"'
  · obtain ⟨rfl, n, body, rfl, hbody, hone⟩ := h.of_quote hquote
    rw [if_pos (by simpa using hquote), Scan.quoted, List.append_assoc, List.singleton_append,
      closeQuote_body hquote hbody]
    rcases hquote with rfl | rfl
    · simp [hone rfl, quotedKind]
    · simp [quotedKind]
  · have hmark := h.of_other hletter (by simpa using hdigit) hquote
    rw [if_neg (by simpa using hquote), mark_of_marks hmark hrest]

theorem IsToken.pieces (h : IsToken kind text) (hrest : Spaced rest) (lineStart : Bool) :
    Scan.pieces lineStart (text ++ rest) = .token kind text :: Scan.pieces false rest := by
  obtain ⟨c, cs, rfl⟩ := List.exists_cons_of_ne_nil h.ne_nil
  rw [List.cons_append, Scan.pieces, h.first hrest]
  rfl

end Token

structure Holds (ts : List (TokenKind × String)) (ps : List Piece) : Prop where
  tokens : ps.filterMap token? = ts
  complaints : ps.filterMap complaint? = []
  markers : markers ps = []

section Holds

variable {ts : List (TokenKind × String)} {ps : List Piece}

theorem Holds.nil : Holds [] [] := ⟨rfl, rfl, rfl⟩

theorem Holds.blank (h : Holds ts ps) (text : List Char) : Holds ts (.blank text :: ps) :=
  ⟨h.tokens, h.complaints, h.markers⟩

theorem Holds.token (h : Holds ts ps) (t : TokenKind × String) : Holds (t :: ts) (.token t.1 t.2.toList :: ps) := by
  refine ⟨?_, h.complaints, h.markers⟩
  rw [List.filterMap_cons_some (b := t) (by rw [token?, String.ofList_toList]), h.tokens]

end Holds

def spread (ts : List (TokenKind × String)) : List Char := ts.flatMap fun t => ' ' :: t.2.toList

theorem spaced_spread (ts : List (TokenKind × String)) (hstop : Spaced stop) :
    Spaced (spread ts ++ stop) := by
  cases ts with
  | nil => exact hstop
  | cons t ts =>
    rintro d ⟨⟩
    rfl

theorem pieces_space {rest : List Char} (h : ∀ c ∈ rest.head?, Text.isBlank c = false) :
    Scan.pieces false (' ' :: rest) = .blank [' '] :: Scan.pieces false rest := by
  have hspace : ∀ c ∈ [' '], Text.isBlank c = true := List.forall_mem_singleton.mpr (by decide)
  obtain ⟨htake, hdrop⟩ := span_of_forall rest hspace h
  rw [List.singleton_append] at htake hdrop
  rw [Scan.pieces, Scan.first, if_pos (by decide), htake, hdrop]
  rfl

theorem holds_spread (hts : ∀ t ∈ ts, IsToken t.1 t.2.toList)
    (hspaced : Spaced stop) (hstop : Holds [] (Scan.pieces false stop)) :
    Holds ts (Scan.pieces false (spread ts ++ stop)) := by
  induction ts with
  | nil => exact hstop
  | cons t ts ih =>
    obtain ⟨ht, hts⟩ := List.forall_mem_cons.mp hts
    have hblank : ∀ d ∈ (t.2.toList ++ (spread ts ++ stop)).head?, Text.isBlank d = false := by
      obtain ⟨c, cs, htext⟩ := List.exists_cons_of_ne_nil ht.ne_nil
      rw [htext] at ht ⊢
      rintro d ⟨⟩
      exact ht.head_plain.1
    rw [spread, List.flatMap_cons, ← spread, List.cons_append, List.cons_append, List.append_assoc, pieces_space hblank,
      ht.pieces (spaced_spread ts hspaced)]
    exact ((ih hts).token t).blank _

theorem intercalate_space (first : List Char) (texts : List (List Char)) :
    [' '].intercalate (first :: texts) = first ++ texts.flatMap (' ' :: ·) := by
  induction texts generalizing first with
  | nil => simp
  | cons next texts ih =>
    rw [List.intercalate_cons_cons, ih]
    simp

theorem holds_intercalate (hts : ∀ t ∈ ts, IsToken t.1 t.2.toList)
    {last : List String} (hlast : last = [] ∨ last = [""]) :
    Holds ts (Scan.pieces true (" ".intercalate (ts.map Prod.snd ++ last)).toList) := by
  rw [String.toList_intercalate, show " ".toList = [' '] from rfl]
  cases ts with
  | nil =>
    have hempty : [' '].intercalate (last.map String.toList) = [] := by rcases hlast with rfl | rfl <;> rfl
    rw [List.map_nil, List.nil_append, hempty, Scan.pieces]
    exact .nil
  | cons t ts =>
    obtain ⟨ht, hts⟩ := List.forall_mem_cons.mp hts
    -- behind the last token there is at most one space
    obtain ⟨stop, hlast, hspaced, hstop⟩ : ∃ stop, last.flatMap (fun text => ' ' :: text.toList) = stop ∧ Spaced stop ∧
        Holds [] (Scan.pieces false stop) := by
      rcases hlast with rfl | rfl
      · refine ⟨[], rfl, by simp [Spaced], ?_⟩
        rw [Scan.pieces]
        exact .nil
      · refine ⟨[' '], rfl, by simp [Spaced], ?_⟩
        rw [pieces_space (by simp), Scan.pieces]
        exact Holds.nil.blank _
    have htexts : [' '].intercalate (((t :: ts).map Prod.snd ++ last).map String.toList) =
        t.2.toList ++ (spread ts ++ stop) := by
      rw [List.map_cons, List.cons_append, List.map_cons, intercalate_space, List.flatMap_map, List.flatMap_append,
        List.flatMap_map, hlast]
      rfl
    rw [htexts, ht.pieces (spaced_spread ts hspaced)]
    exact (holds_spread hts hspaced hstop).token t

end Lexical

/-- Tokens as text: their texts with single spaces between them. -/
def Token.printed (ts : List Token) : String := " ".intercalate (ts.map Token.text)

namespace TokenStream

theorem isToken_of_mem {name text : String} {s : TokenStream} (h : ofText name text = .ok s) :
    ∃ ts, s.tokens.map (fun t => (t.kind, t.text)) = ts ++ [(.endOfFile, "")] ∧
      ∀ t ∈ ts, Lexical.IsToken t.1 t.2.toList ∧ (Piece.token t.1 t.2.toList).quotedCount ≤ quotedMax := by
  obtain ⟨result, hplace, -⟩ := bind_eq_ok_iff.mp h
  refine ⟨_, map_tokens h, fun t ht => ?_⟩
  obtain ⟨p, hp, hpt⟩ := List.mem_filterMap.mp ht
  obtain ⟨before, rest, hstands⟩ := (Lexical.cut_text text.toList).stands hp
  cases p with
  | token kind cs =>
    cases hpt
    rw [String.toList_ofList]
    exact ⟨hstands.1.isToken, quotedCount_le_of_place hplace _ hp⟩
  | _ => cases hpt

theorem exists_ofText_of_holds {text : String} {ts : List (TokenKind × String)} (name : String)
    (h : Lexical.Holds ts (Scan.pieces true text.toList))
    (hts : ∀ t ∈ ts, (Piece.token t.1 t.2.toList).quotedCount ≤ quotedMax) (hlength : text.length < counterMax) :
    ∃ s, ofText name text = .ok s := by
  refine exists_ofText name ⟨by rwa [String.length_toList], fun {line m} hline hmarker => ?_, fun p hp => ?_⟩
  · obtain ⟨before, rest, hstands⟩ := (Lexical.cut_text text.toList).stands hline
    have hmem : m ∈ Lexical.markers (Scan.pieces true text.toList) :=
      List.mem_filterMap.mpr ⟨_, hline, hstands.marker?_eq_some_iff.mpr hmarker⟩
    rw [h.markers] at hmem
    cases hmem
  · cases p with
    | token kind cs =>
      have hmem : (kind, String.ofList cs) ∈ ts := h.tokens ▸ List.mem_filterMap.mpr ⟨_, hp, rfl⟩
      have hcount := hts _ hmem
      rwa [String.toList_ofList] at hcount
    | badToken cs => cases List.filterMap_eq_nil_iff.mp h.complaints _ hp
    | _ => exact Nat.zero_le _

/-- Scanning the printed tokens of a text, with or without the end, gives the same tokens, no error and no line marker. It
    gives nothing only if there are more characters than a column can count. -/
theorem ofText_printed {name text : String} {s : TokenStream} (h : ofText name text = .ok s) (name' : String)
    {ts : List Token} (hts : ts = s.tokens ∨ ts = s.tokens.dropLast) :
    match ofText name' (Token.printed ts) with
    | .ok r => r.tokens.map (fun t => (t.kind, t.text)) = s.tokens.map (fun t => (t.kind, t.text)) ∧ r.errors = [] ∧
        r.files.names = #[name']
    | .error f => f = .counterOverflow ∧ counterMax ≤ (Token.printed ts).length := by
  obtain ⟨us, hus, htokens⟩ := isToken_of_mem h
  obtain ⟨last, hlast, htexts⟩ : ∃ last, (last = [] ∨ last = [""]) ∧ ts.map Token.text = us.map Prod.snd ++ last := by
    have hall : s.tokens.map Token.text = us.map Prod.snd ++ [""] := by
      rw [show Token.text = Prod.snd ∘ fun t : Token => (t.kind, t.text) from rfl, ← List.map_map, hus, List.map_append]
      rfl
    rcases hts with rfl | rfl
    · exact ⟨[""], .inr rfl, hall⟩
    · refine ⟨[], .inl rfl, ?_⟩
      rw [List.map_dropLast, hall, List.dropLast_concat, List.append_nil]
  have hholds := Lexical.holds_intercalate (fun t ht => (htokens t ht).1) hlast
  rw [← htexts, ← Token.printed] at hholds
  cases hr : ofText name' (Token.printed ts) with
  | ok r =>
    refine ⟨?_, ?_, ?_⟩
    · rw [map_tokens hr, hholds.tokens, hus]
    · have herrors := map_errors hr
      rw [hholds.complaints] at herrors
      exact List.map_eq_nil_iff.mp herrors
    · have hfiles := names_files hr
      rw [hholds.markers] at hfiles
      exact Array.toList_inj.mp hfiles
  | error f =>
    refine ⟨ofText_overflows name' _ f hr, Nat.le_of_not_lt fun hlength => ?_⟩
    obtain ⟨r, hok⟩ := exists_ofText_of_holds name' hholds (fun t ht => (htokens t ht).2) hlength
    rw [hr] at hok
    cases hok

/-- A marker, a line that is none, characters that are no tokens, and marks that would merge or start a comment without the
    spaces. -/
theorem ofText_printed_merging :
    ∃ s, ofText "a.oc" "# 7 \"b.oc\"\n#no\nx=/ /*c*/=3 1x \"//#\\\"\" '\\'' @[ ]" = .ok s ∧
      Token.printed s.tokens = "x = / = 3 \"//#\\\"\" '\\'' [ ] " ∧
      match ofText "c.oc" (Token.printed s.tokens) with
      | .ok r => r.tokens.map (fun t => (t.kind, t.text)) = s.tokens.map (fun t => (t.kind, t.text)) ∧ r.errors = [] ∧
          r.files.names = #["c.oc"]
      | .error f => f = .counterOverflow ∧ counterMax ≤ (Token.printed s.tokens).length := by
  exact exists_ok_and (by decide +kernel) fun hs => ofText_printed hs "c.oc" (.inl rfl)

end TokenStream

end OcCompiler
