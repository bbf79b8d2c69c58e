import OcCompiler.Proofs.Places

/-! What tokens look like. The kind of a token says how its text is spelled: an integer constant is made of digits, a
    character constant starts with a quote, and an operator has one spelling. -/

namespace OcCompiler

def Comparison.spelling : Comparison → String
  | .eq => "=="
  | .ne => "!="
  | .lt => "<"
  | .le => "<="
  | .gt => ">"
  | .ge => ">="

def TokenKind.Spells : TokenKind → List Char → Prop
  | .literal .int, text => text ≠ [] ∧ ∀ c ∈ text, c.isDigit = true
  | .literal .char, text => text.head? = some '\''
  | .comparison c, text => text = c.spelling.toList
  | .punct c, text => text = [c]
  | _, _ => True

def Token.Spelled (t : Token) : Prop := t.kind.Spells t.text.toList

namespace Scan

variable {kind : TokenKind} {c : Char} {lineStart : Bool}

theorem spells_reserved {word : String} (h : TokenKind.ofReserved? word = some kind)
    (text : List Char) : kind.Spells text := by
  unfold TokenKind.ofReserved? at h
  split at h <;> cases h <;> trivial

theorem spells_word (text : List Char) : ((TokenKind.ofReserved? (String.ofList text)).getD .name).Spells text := by
  cases h : TokenKind.ofReserved? (String.ofList text) with
  | none => trivial
  | some kind => exact spells_reserved h text

theorem spells_digits (h : c.isDigit = true) (rest : List Char) :
    (TokenKind.literal .int).Spells ((c :: rest).takeWhile Char.isDigit) := by
  refine ⟨?_, fun d hd => List.all_eq_true.mp List.all_takeWhile d hd⟩
  rw [List.takeWhile_cons_of_pos h]
  exact List.cons_ne_nil _ _

theorem spells_number {rest text : List Char} (hdigit : c.isDigit = true)
    (h : (number (c :: rest)).1 = .token kind text) : kind.Spells text := by
  simp only [number] at h
  split at h
  · split at h
    · cases h
    · cases h
      exact spells_digits hdigit rest
  · cases h
    exact spells_digits hdigit rest

theorem spells_quoted {quote : Char} {rest text : List Char} (hquote : quote = '\'' ∨ quote = '"')
    (h : (quoted quote rest).1 = .token kind text) : kind.Spells text := by
  simp only [quoted] at h
  split at h
  · cases h
    trivial
  · rename_i hstring
    split at h
    · rename_i hsound
      cases h
      rcases hquote with rfl | rfl
      · rfl
      · rw [beq_self_eq_true, Bool.and_true] at hstring
        exact absurd (Bool.and_eq_true_iff.mp hsound).1 hstring
    · cases h

theorem spells_pair {d : Char} (h : pair? c d = some kind) : kind.Spells [c, d] := by
  unfold pair? at h
  split at h <;> cases h
  · rfl
  · rfl
  · rfl
  · rfl
  · trivial

theorem spells_single (h : single? c = some kind) : kind.Spells [c] := by
  unfold single? at h
  split at h
  · rename_i hc
    cases h
    rw [eq_of_beq hc]
    rfl
  · split at h
    · rename_i hc
      cases h
      rw [eq_of_beq hc]
      rfl
    · split at h
      · cases h
        rfl
      · cases h

theorem spells_mark {rest text : List Char} (h : (mark c rest).1 = .token kind text) :
    kind.Spells text := by
  have hone (h : ((single? c).map fun kind => Piece.token kind [c]).getD (.badCharacter c) = .token kind text) :
      kind.Spells text := by
    cases hsingle : single? c with
    | none =>
      rw [hsingle] at h
      cases h
    | some found =>
      rw [hsingle] at h
      cases h
      exact spells_single hsingle
  unfold mark at h
  split at h
  · split at h
    · rename_i hpair
      cases h
      exact spells_pair hpair
    · exact hone h
  · exact hone h

theorem spells_first {rest text : List Char}
    (h : (first lineStart c rest).1 = .token kind text) : kind.Spells text := by
  unfold first at h
  split at h
  · cases h
  split at h
  · cases h
  split at h
  · cases h
  split at h
  · cases h
  split at h
  · cases h
    exact spells_word _
  split at h
  · rename_i hdigit
    exact spells_number hdigit h
  split at h
  · rename_i hquote
    exact spells_quoted (by simpa using hquote) h
  · exact spells_mark h

theorem spells_of_mem_pieces {cs text : List Char}
    (h : .token kind text ∈ pieces lineStart cs) : kind.Spells text := by
  fun_induction pieces lineStart cs with
  | case1 => cases h
  | case2 lineStart c rest cut ih =>
    rcases List.mem_cons.mp h with hfirst | hlater
    · exact spells_first hfirst.symm
    · exact ih hlater

end Scan

variable {name text : String} {s : TokenStream}

theorem TokenStream.spelled {t : Token} (h : ofText name text = .ok s) (ht : t ∈ s.tokens) : t.Spelled := by
  obtain ⟨hpieces, -⟩ := ofText_ordered h
  rcases List.mem_append.mp ht with ht | ht
  · obtain ⟨⟨piece, loc⟩, hp, htoken⟩ := List.mem_filterMap.mp ht
    have hpiece : piece ∈ Scan.pieces true text.toList := hpieces ▸ List.mem_map_of_mem (f := Placed.piece) hp
    cases piece with
    | token kind cs =>
      cases htoken
      have hspells := Scan.spells_of_mem_pieces hpiece
      rwa [← String.toList_ofList (l := cs)] at hspells
    | blank | comment | directive | badCharacter | badToken => cases htoken
  · rw [List.mem_singleton.mp ht]
    trivial

theorem Program.spelled_of_mem_tokens {n : NodeId} {t : Tree} (hs : TokenStream.ofText name text = .ok s)
    (h : Tree.empty.parse s.tokens = (.ok n, t)) {x : Token} (hx : x ∈ tokens (ofTokens s.tokens).items) : x.Spelled :=
  TokenStream.spelled hs ((tokens_sublist s.closed_tokens h).subset hx)

end OcCompiler
