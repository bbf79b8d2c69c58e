import OcCompiler.Token.Piece

/-! The lexical grammar of oc: which texts are tokens, and of which kind. A text that starts with a token starts with a
    longest one, and the first character says of which sort it is. -/

namespace OcCompiler

namespace Lexical

def IsLetter (c : Char) : Prop := c.isAlpha = true ∨ c = '_'

def reserved : List (String × TokenKind) :=
  [("void", .scalar .void), ("bool", .scalar .bool), ("char", .scalar .char), ("int", .scalar .int),
   ("string", .scalar .string), ("if", .keyword .ifWord), ("else", .keyword .elseWord), ("while", .keyword .whileWord),
   ("return", .keyword .returnWord), ("struct", .keyword .structWord), ("false", .keyword .falseWord),
   ("true", .keyword .trueWord), ("null", .keyword .nullWord), ("new", .keyword .newWord), ("ord", .keyword .ordWord),
   ("chr", .keyword .chrWord)]

def puncts : List Char :=
  ['=', '!', '+', '-', '*', '/', '%', '(', ')', '[', ']', '\x7b', '\x7d', ',', ';', '.']

def marks : List (List Char × TokenKind) :=
  [(['=', '='], .comparison .eq), (['!', '='], .comparison .ne), (['<', '='], .comparison .le),
   (['>', '='], .comparison .ge), (['[', ']'], .arrayMark), (['<'], .comparison .lt), (['>'], .comparison .gt)] ++
  puncts.map fun c => ([c], .punct c)

/-- What stands between two quotes: a number of characters, each by itself or as an escape. -/
inductive Body (quote : Char) : Nat → List Char → Prop where
  | nil : Body quote 0 []
  | plain {n : Nat} {c : Char} {cs : List Char} (hc : c ∉ [quote, '\\', '\n']) (h : Body quote n cs) :
    Body quote (n + 1) (c :: cs)
  | escape {n : Nat} {e : Char} {cs : List Char} (he : e ∈ ['n', 't', '0', '\\', '\'', '"']) (h : Body quote n cs) :
    Body quote (n + 1) ('\\' :: e :: cs)

def wordKind (text : List Char) : TokenKind := (reserved.lookup (String.ofList text)).getD .name

inductive IsToken : TokenKind → List Char → Prop where
  | word {c : Char} {cs : List Char} (hc : IsLetter c) (hcs : ∀ d ∈ cs, IsLetter d ∨ d.isDigit = true) :
    IsToken (wordKind (c :: cs)) (c :: cs)
  | number {digits : List Char} (hne : digits ≠ []) (h : ∀ d ∈ digits, d.isDigit = true) : IsToken (.literal .int) digits
  | char {cs : List Char} (h : Body '\'' 1 cs) : IsToken (.literal .char) ('\'' :: (cs ++ ['\'']))
  | string {n : Nat} {cs : List Char} (h : Body '"' n cs) : IsToken (.literal .string) ('"' :: (cs ++ ['"']))
  | mark {text : List Char} {kind : TokenKind} (h : (text, kind) ∈ marks) : IsToken kind text

/-- The text is a token of this kind and no other, and what follows does not make it a longer one. -/
structure Longest (kind : TokenKind) (text rest : List Char) : Prop where
  isToken : IsToken kind text
  kind_eq : ∀ {kind' : TokenKind}, IsToken kind' text → kind' = kind
  longest : ∀ {kind' : TokenKind} {text' : List Char}, IsToken kind' text' → text' <+: text ++ rest →
    text'.length ≤ text.length

def Tokenless (cs : List Char) : Prop := ∀ {kind : TokenKind} {text : List Char}, IsToken kind text → ¬text <+: cs

/-! ### What the first character says -/

section First

variable {kind : TokenKind} {text rest : List Char} {c : Char}

theorem mark_head (h : (text, kind) ∈ marks) :
    ∃ c cs, text = c :: cs ∧ ¬IsLetter c ∧ c.isDigit = false ∧ c ≠ '\'' ∧ c ≠ '"' := by
  have hall : ∀ p ∈ marks, p.1.head?.any (fun c => !c.isAlpha && c != '_' && !c.isDigit && c != '\'' && c != '"') = true := by
    decide
  obtain ⟨c, hc, hhead⟩ := (Option.any_eq_true _ _).mp (hall _ h)
  obtain ⟨cs, hcs⟩ := List.head?_eq_some_iff.mp hc
  simp only [Bool.and_eq_true, Bool.not_eq_true', bne_iff_ne] at hhead
  obtain ⟨⟨⟨⟨halpha, hunderscore⟩, hdigit⟩, hsingle⟩, hdouble⟩ := hhead
  refine ⟨c, cs, hcs, ?_, hdigit, hsingle, hdouble⟩
  rintro (h | h)
  · rw [halpha] at h
    cases h
  · exact hunderscore h

theorem IsLetter.isDigit (h : IsLetter c) : c.isDigit = false := by
  rcases h with h | rfl
  · have hcases : (decide (c.val ≥ 'A'.val ∧ c.val ≤ 'Z'.val) || decide (c.val ≥ 'a'.val) && decide (c.val ≤ 'z'.val)) = true := h
    simp only [Bool.or_eq_true, Bool.and_eq_true, decide_eq_true_eq] at hcases
    simp only [Char.isDigit, Bool.and_eq_false_iff, decide_eq_false_iff_not]
    grind
  · decide

theorem not_isLetter_quote : ¬IsLetter '\'' ∧ ¬IsLetter '"' := by simp [IsLetter]

theorem IsToken.of_letter (h : IsToken kind (c :: text)) (hc : IsLetter c) :
    kind = wordKind (c :: text) ∧ ∀ d ∈ text, IsLetter d ∨ d.isDigit = true := by
  cases h with
  | word _ hcs => exact ⟨rfl, hcs⟩
  | number _ h => simp [hc.isDigit] at h
  | char _ => exact absurd hc not_isLetter_quote.1
  | string _ => exact absurd hc not_isLetter_quote.2
  | mark h =>
    obtain ⟨d, ds, heq, hletter, -⟩ := mark_head h
    cases heq
    exact absurd hc hletter

theorem IsToken.of_digit (h : IsToken kind (c :: text)) (hc : c.isDigit = true) :
    kind = .literal .int ∧ ∀ d ∈ text, d.isDigit = true := by
  cases h with
  | word hletter _ => simp [hletter.isDigit] at hc
  | number _ h => exact ⟨rfl, fun d hd => h d (List.mem_cons_of_mem _ hd)⟩
  | char _ => simp at hc
  | string _ => simp at hc
  | mark h =>
    obtain ⟨d, ds, heq, -, hdigit, -⟩ := mark_head h
    cases heq
    simp [hc] at hdigit

def quotedKind (quote : Char) : TokenKind := if quote = '"' then .literal .string else .literal .char

theorem IsToken.of_quote (h : IsToken kind (c :: text)) (hc : c = '\'' ∨ c = '"') :
    kind = quotedKind c ∧ ∃ n body, text = body ++ [c] ∧ Body c n body ∧ (c = '\'' → n = 1) := by
  have hquote : ¬IsLetter c ∧ c.isDigit = false := by
    rcases hc with rfl | rfl
    · exact ⟨not_isLetter_quote.1, by decide⟩
    · exact ⟨not_isLetter_quote.2, by decide⟩
  cases h with
  | word hletter _ => exact absurd hletter hquote.1
  | number _ h => simp [hquote.2] at h
  | char h => exact ⟨rfl, 1, _, rfl, h, fun _ => rfl⟩
  | string h => exact ⟨rfl, _, _, rfl, h, nofun⟩
  | mark h =>
    obtain ⟨d, ds, heq, -, -, hsingle, hdouble⟩ := mark_head h
    cases heq
    exact absurd hc (not_or.mpr ⟨hsingle, hdouble⟩)

theorem IsToken.of_other (h : IsToken kind (c :: text)) (hletter : ¬IsLetter c) (hdigit : c.isDigit = false)
    (hquote : ¬(c = '\'' ∨ c = '"')) : (c :: text, kind) ∈ marks := by
  cases h with
  | word hc _ => exact absurd hc hletter
  | number _ h => simp [hdigit] at h
  | char _ => exact absurd (.inl rfl) hquote
  | string _ => exact absurd (.inr rfl) hquote
  | mark h => exact h

theorem IsToken.ne_nil (h : IsToken kind text) : text ≠ [] := by
  rintro rfl
  generalize htext : ([] : List Char) = text at h
  cases h with
  | word | char | string => cases htext
  | number hne _ => exact hne htext.symm
  | mark h =>
    obtain ⟨c, cs, rfl, -⟩ := mark_head h
    cases htext

theorem IsToken.exists_cons (h : IsToken kind text) (hstart : text <+: c :: rest) : ∃ cs, text = c :: cs ∧ cs <+: rest := by
  cases text with
  | nil => exact absurd rfl h.ne_nil
  | cons d cs =>
    obtain ⟨rfl, hcs⟩ := List.cons_prefix_cons.mp hstart
    exact ⟨cs, rfl, hcs⟩

end First

/-! ### The tokens that are cut off -/

section Cut

variable {c : Char} {rest : List Char} {kind : TokenKind} {d quote : Char} {cs text : List Char}

theorem isLetter_iff : IsLetter c ↔ Scan.isWordStart c = true := by simp [IsLetter, Scan.isWordStart]

theorem isLetter_or_isDigit_iff : IsLetter c ∨ c.isDigit = true ↔ Scan.isWordChar c = true := by
  simp only [IsLetter, Scan.isWordChar, Char.isAlphanum, Bool.or_eq_true, beq_iff_eq]
  constructor
  · rintro ((h | h) | h)
    · exact .inl (.inl h)
    · exact .inr h
    · exact .inl (.inr h)
  · rintro ((h | h) | h)
    · exact .inl (.inl h)
    · exact .inr h
    · exact .inl (.inr h)

theorem ofReserved?_eq_lookup (word : String) : TokenKind.ofReserved? word = reserved.lookup word := by
  unfold TokenKind.ofReserved?
  split
  iterate 16 rfl
  · exact (List.lookup_eq_none_iff.mpr (by simp_all [reserved])).symm

theorem length_le_takeWhile {p : Char → Bool} (hstart : text <+: cs) (h : ∀ c ∈ text, p c = true) :
    text.length ≤ (cs.takeWhile p).length := by
  obtain ⟨rest, rfl⟩ := hstart
  rw [List.takeWhile_append_of_pos h, List.length_append]
  exact Nat.le_add_right _ _

theorem longest_word (hc : IsLetter c) :
    Longest (wordKind ((c :: rest).takeWhile Scan.isWordChar)) ((c :: rest).takeWhile Scan.isWordChar)
      ((c :: rest).dropWhile Scan.isWordChar) := by
  have hfirst : Scan.isWordChar c = true := isLetter_or_isDigit_iff.mp (.inl hc)
  rw [List.takeWhile_cons_of_pos hfirst, List.dropWhile_cons_of_pos hfirst]
  have hrest (d : Char) (hd : d ∈ rest.takeWhile Scan.isWordChar) : IsLetter d ∨ d.isDigit = true :=
    isLetter_or_isDigit_iff.mpr (List.all_eq_true.mp List.all_takeWhile d hd)
  refine ⟨.word hc hrest, fun h => (h.of_letter hc).1, fun h hstart => ?_⟩
  rw [List.cons_append, List.takeWhile_append_dropWhile] at hstart
  obtain ⟨cs, rfl, hcs⟩ := h.exists_cons hstart
  have hword := (h.of_letter hc).2
  exact Nat.succ_le_succ (length_le_takeWhile hcs fun d hd => isLetter_or_isDigit_iff.mp (hword d hd))

theorem longest_number (hc : c.isDigit = true) :
    Longest (.literal .int) ((c :: rest).takeWhile Char.isDigit) ((c :: rest).dropWhile Char.isDigit) := by
  rw [List.takeWhile_cons_of_pos hc, List.dropWhile_cons_of_pos hc]
  have hdigits (d : Char) (hd : d ∈ c :: rest.takeWhile Char.isDigit) : d.isDigit = true := by
    rcases List.mem_cons.mp hd with rfl | hd
    · exact hc
    · exact List.all_eq_true.mp List.all_takeWhile d hd
  refine ⟨.number (List.cons_ne_nil _ _) hdigits, fun h => (h.of_digit hc).1, fun h hstart => ?_⟩
  rw [List.cons_append, List.takeWhile_append_dropWhile] at hstart
  obtain ⟨cs, rfl, hcs⟩ := h.exists_cons hstart
  exact Nat.succ_le_succ (length_le_takeWhile hcs (h.of_digit hc).2)

theorem closeQuote_body {n : Nat} {body : List Char} (hquote : quote = '\'' ∨ quote = '"')
    (h : Body quote n body) (rest : List Char) :
    Scan.closeQuote quote (body ++ quote :: rest) = ⟨body ++ [quote], rest, n, true⟩ := by
  have hclose : Scan.closeQuote quote (quote :: rest) = ⟨[quote], rest, 0, true⟩ := by
    rcases hquote with rfl | rfl <;> simp [Scan.closeQuote]
  induction h with
  | nil => exact hclose
  | @plain n c cs hc h ih =>
    have hplain : c ≠ quote ∧ c ≠ '\\' ∧ c ≠ '\n' := by simpa using hc
    rw [List.cons_append, Scan.closeQuote.eq_3 _ _ _ fun e _ hslash => absurd hslash hplain.2.1, if_neg hplain.2.2,
      if_neg hplain.1, ih]
    rfl
  | @escape n e cs he h ih =>
    have hescape : Scan.isEscape e = true := by simpa [Scan.isEscape] using he
    rw [List.cons_append, List.cons_append, Scan.closeQuote.eq_2, if_pos hescape, ih]
    rfl

theorem body_of_closeQuote (h : (Scan.closeQuote quote cs).sound = true) :
    ∃ body, (Scan.closeQuote quote cs).text = body ++ [quote] ∧ Body quote (Scan.closeQuote quote cs).count body := by
  fun_induction Scan.closeQuote quote cs with
  | case1 => cases h
  | case2 e rest he q ih =>
    obtain ⟨body, htext, hbody⟩ := ih h
    exact ⟨'\\' :: e :: body, congrArg ('\\' :: e :: ·) htext, .escape (by simpa [Scan.isEscape] using he) hbody⟩
  | case3 => cases h
  | case4 => cases h
  | case5 rest hline => exact ⟨[], rfl, .nil⟩
  | case6 c rest hslash hline hquote q ih =>
    obtain ⟨body, htext, hbody⟩ := ih h
    refine ⟨c :: body, congrArg (c :: ·) htext, .plain ?_ hbody⟩
    -- a backslash at the end of the text would leave the constant open
    have hbackslash : c ≠ '\\' := by
      rintro rfl
      cases rest with
      | nil => cases h
      | cons e rest => exact hslash e rest rfl rfl
    simp [hquote, hbackslash, hline]

theorem longest_quoted (hquote : quote = '\'' ∨ quote = '"')
    (hsound : (Scan.closeQuote quote rest).sound = true)
    (hcount : quote = '\'' → (Scan.closeQuote quote rest).count = 1) :
    Longest (quotedKind quote) (quote :: (Scan.closeQuote quote rest).text) (Scan.closeQuote quote rest).rest := by
  obtain ⟨body, htext, hbody⟩ := body_of_closeQuote hsound
  have hjoined := Scan.closeQuote_append quote rest
  refine ⟨?_, fun h => (h.of_quote hquote).1, fun h hstart => ?_⟩
  · rw [htext]
    rcases hquote with rfl | rfl
    · rw [hcount rfl] at hbody
      exact .char hbody
    · exact .string hbody
  · -- another constant would be closed at the same place
    rw [List.cons_append, hjoined] at hstart
    obtain ⟨cs, rfl, ⟨rest', hrest⟩⟩ := h.exists_cons hstart
    obtain ⟨-, n, body', rfl, hbody', -⟩ := h.of_quote hquote
    have hclosed := closeQuote_body hquote hbody' rest'
    rw [← List.singleton_append, ← List.append_assoc, hrest] at hclosed
    refine Nat.le_of_eq ?_
    rw [hclosed]

theorem tokenless_quoted (hquote : quote = '\'' ∨ quote = '"')
    (h : (Scan.closeQuote quote rest).sound = true → quote = '\'' ∧ (Scan.closeQuote quote rest).count ≠ 1) :
    Tokenless (quote :: rest) := by
  intro kind text htoken hstart
  obtain ⟨cs, rfl, ⟨rest', hrest⟩⟩ := htoken.exists_cons hstart
  obtain ⟨-, n, body, rfl, hbody, hone⟩ := htoken.of_quote hquote
  have hclosed := closeQuote_body hquote hbody rest'
  rw [← List.singleton_append, ← List.append_assoc, hrest] at hclosed
  obtain ⟨hsingle, hcount⟩ := h (by rw [hclosed])
  rw [hclosed] at hcount
  exact hcount (hone hsingle)

theorem pair?_eq_some_iff : Scan.pair? c d = some kind ↔ ([c, d], kind) ∈ marks := by
  constructor
  · intro h
    unfold Scan.pair? at h
    split at h <;> cases h <;> decide
  · intro h
    simp only [marks, puncts, List.map_cons, List.map_nil, List.cons_append, List.nil_append, List.mem_cons, Prod.mk.injEq,
      List.cons.injEq, List.not_mem_nil, or_false, and_true, reduceCtorEq, and_false, false_and] at h
    rcases h with ⟨⟨rfl, rfl⟩, rfl⟩ | ⟨⟨rfl, rfl⟩, rfl⟩ | ⟨⟨rfl, rfl⟩, rfl⟩ | ⟨⟨rfl, rfl⟩, rfl⟩ | ⟨⟨rfl, rfl⟩, rfl⟩ <;> rfl

theorem single?_eq_some_iff : Scan.single? c = some kind ↔ ([c], kind) ∈ marks := by
  constructor
  · intro h
    unfold Scan.single? at h
    split at h
    · rename_i hc
      obtain rfl := beq_iff_eq.mp hc
      cases h
      decide
    · split at h
      · rename_i hc
        obtain rfl := beq_iff_eq.mp hc
        cases h
        decide
      · split at h
        · rename_i hpunct
          cases h
          exact List.mem_append_right _ (List.mem_map.mpr ⟨c, List.contains_iff_mem.mp hpunct, rfl⟩)
        · cases h
  · intro h
    have hpuncts : puncts.all (fun c => Scan.single? c = some (.punct c)) = true := by decide
    rcases List.mem_append.mp h with h | h
    · simp only [List.mem_cons, Prod.mk.injEq, List.cons.injEq, List.not_mem_nil, or_false, and_true, reduceCtorEq,
        and_false, false_and, false_or] at h
      rcases h with ⟨rfl, rfl⟩ | ⟨rfl, rfl⟩ <;> rfl
    · obtain ⟨c', hc', heq⟩ := List.mem_map.mp h
      cases heq
      exact of_decide_eq_true (List.all_eq_true.mp hpuncts _ hc')

theorem marks_length (h : (text, kind) ∈ marks) : text.length ≤ 2 := by
  have hall : ∀ p ∈ marks, p.1.length ≤ 2 := by decide
  exact hall _ h

def StartsMark (c : Char) : Prop := ¬IsLetter c ∧ c.isDigit = false ∧ ¬(c = '\'' ∨ c = '"')

theorem longest_pair (hc : StartsMark c) (h : Scan.pair? c d = some kind) :
    Longest kind [c, d] rest := by
  have hmark := pair?_eq_some_iff.mp h
  refine ⟨.mark hmark, fun h' => ?_, fun h' hstart => ?_⟩
  · have hmark' := pair?_eq_some_iff.mpr (h'.of_other hc.1 hc.2.1 hc.2.2)
    exact Option.some.inj (hmark'.symm.trans h)
  · obtain ⟨cs, rfl, -⟩ := h'.exists_cons hstart
    exact marks_length (h'.of_other hc.1 hc.2.1 hc.2.2)

theorem longest_single (hc : StartsMark c) (h : Scan.single? c = some kind)
    (hpair : ∀ d, rest.head? = some d → Scan.pair? c d = none) : Longest kind [c] rest := by
  have hmark := single?_eq_some_iff.mp h
  refine ⟨.mark hmark, fun h' => ?_, fun h' hstart => ?_⟩
  · have hmark' := single?_eq_some_iff.mpr (h'.of_other hc.1 hc.2.1 hc.2.2)
    exact Option.some.inj (hmark'.symm.trans h)
  · obtain ⟨cs, rfl, hcs⟩ := h'.exists_cons hstart
    have hmark' := h'.of_other hc.1 hc.2.1 hc.2.2
    match cs with
    | [] => exact Nat.le_refl _
    | [d] =>
      obtain ⟨rest', rfl⟩ := hcs
      rw [← pair?_eq_some_iff, hpair d rfl] at hmark'
      cases hmark'
    | _ :: _ :: _ => exact absurd (marks_length hmark') (by simp)

theorem tokenless_mark (hc : StartsMark c) (h : Scan.single? c = none)
    (hpair : ∀ d, rest.head? = some d → Scan.pair? c d = none) : Tokenless (c :: rest) := by
  intro kind text htoken hstart
  obtain ⟨cs, rfl, hcs⟩ := htoken.exists_cons hstart
  have hmark := htoken.of_other hc.1 hc.2.1 hc.2.2
  match cs with
  | [] =>
    rw [← single?_eq_some_iff, h] at hmark
    cases hmark
  | [d] =>
    obtain ⟨rest', rfl⟩ := hcs
    rw [← pair?_eq_some_iff, hpair d rfl] at hmark
    cases hmark
  | _ :: _ :: _ => exact absurd (marks_length hmark) (by simp)

end Cut

end Lexical

end OcCompiler
