import OcCompiler.Proofs.TokenPlaces

/-! When the counters of the scanner run out. In a text that is not too long itself there are two ways: lines are counted
    from the one that a line marker names, so there may be fewer numbers left than lines, and the characters of a quoted
    constant are counted with a sign, so there may be more of them than numbers. -/

namespace OcCompiler

namespace Lexical

/-! ### The lines behind a marker -/

def linesAhead (ps : List Piece) : Nat := (joined (ps.takeWhile (·.marker?.isNone))).count '\n'

/-- Behind every line marker there are numbers for the lines up to the next one. -/
def LineRoom (ps : List Piece) : Prop :=
  ∀ (before after : List Piece) (p : Piece) (m : Marker), ps = before ++ p :: after → p.marker? = some m →
    m.line - 1 + linesAhead after ≤ counterMax

/-- No piece quotes more characters than can be counted. -/
def QuoteRoom (ps : List Piece) : Prop := ∀ p ∈ ps, p.quotedCount ≤ quotedMax

section Room

variable {p : Piece} {ps : List Piece} {m : Marker}

theorem linesAhead_of_none (h : p.marker? = none) : linesAhead (p :: ps) = p.text.count '\n' + linesAhead ps := by
  rw [linesAhead, List.takeWhile_cons_of_pos (by rw [h]; rfl), joined, List.map_cons, List.flatten_cons, List.count_append]
  rfl

theorem linesAhead_of_some (h : p.marker? = some m) : linesAhead (p :: ps) = 0 := by
  rw [linesAhead, List.takeWhile_cons_of_neg (by simp [h])]
  rfl

theorem linesAhead_le (ps : List Piece) : linesAhead ps ≤ (joined ps).length := by
  induction ps with
  | nil => exact Nat.le_refl _
  | cons p ps ih =>
    have hjoined : (joined (p :: ps)).length = p.text.length + (joined ps).length := by simp [joined]
    rw [hjoined]
    cases h : p.marker? with
    | none =>
      rw [linesAhead_of_none h]
      exact Nat.add_le_add List.count_le_length ih
    | some m =>
      rw [linesAhead_of_some h]
      exact Nat.zero_le _

theorem lineRoom_nil : LineRoom [] := by
  intro before after p m h
  cases before <;> cases h

theorem lineRoom_cons_iff :
    LineRoom (p :: ps) ↔ (∀ m ∈ p.marker?, m.line - 1 + linesAhead ps ≤ counterMax) ∧ LineRoom ps := by
  constructor
  · intro h
    refine ⟨fun m hm => h [] ps p m rfl hm, fun before after q m hps hm => ?_⟩
    exact h (p :: before) after q m (by rw [hps]; rfl) hm
  · rintro ⟨hp, hps⟩ before after q m heq hm
    cases before with
    | nil =>
      obtain ⟨rfl, rfl⟩ := List.cons.inj heq
      exact hp m hm
    | cons r before =>
      obtain ⟨-, rfl⟩ := List.cons.inj heq
      exact hps before after q m rfl hm

theorem quotedCount_of_body {kind : TokenKind} {quote : Char} {n : Nat} {body : List Char}
    (hquote : quote = '\'' ∨ quote = '"') (h : Body quote n body) :
    (Piece.token kind (quote :: (body ++ [quote]))).quotedCount = n := by
  rw [Piece.quotedCount, if_pos (by simpa using hquote), closeQuote_body hquote h]

theorem Stands.marker_bounds {before rest : List Char} (h : Stands before rest p) (hm : p.marker? = some m) :
    m.line ≤ counterMax ∧ p.text.count '\n' = 0 := by
  cases p with
  | directive text =>
    obtain ⟨hindent, hne, hdigits, hvalue, -⟩ := h.marker?_eq_some_iff.mp hm
    exact ⟨hvalue, List.count_eq_zero.mpr h.2.2.1⟩
  | _ => cases hm

end Room

end Lexical

open Lexical

namespace TokenStream

theorem exists_place_iff {before cs : List Char} {ps : List Piece} {loc : Location} (hcut : Cut before cs ps)
    (hquotes : QuoteRoom ps) (hline : loc.line ≤ counterMax) (hcolumn : loc.column + (joined ps).length ≤ counterMax) :
    (∃ result, place loc ps = .ok result) ↔ loc.line + linesAhead ps ≤ counterMax ∧ LineRoom ps := by
  induction hcut generalizing loc with
  | done before => exact iff_of_true ⟨_, rfl⟩ ⟨hline, lineRoom_nil⟩
  | @piece before rest p ps hstands _ ih =>
    have hjoined : (joined (p :: ps)).length = p.text.length + (joined ps).length := by simp [joined]
    rw [hjoined] at hcolumn
    obtain ⟨hquoted, hquotes⟩ := List.forall_mem_cons.mp hquotes
    have hplace : (∃ result, place loc (p :: ps) = .ok result) ↔
        ∃ after, loc.pastAll p.text = .ok after ∧
          ∃ result, place ((p.marker?.map after.follow).getD after) ps = .ok result := by
      constructor
      · rintro ⟨result, h⟩
        obtain ⟨next, hnext, h⟩ := bind_eq_ok_iff.mp h
        obtain ⟨-, after, hafter, rfl⟩ := Piece.finish_eq_ok_iff.mp hnext
        obtain ⟨result', hrest, -⟩ := bind_eq_ok_iff.mp h
        exact ⟨after, hafter, result', hrest⟩
      · rintro ⟨after, hafter, ⟨placed, finish⟩, hrest⟩
        have hnext := Piece.finish_eq_ok_iff.mpr ⟨hquoted, after, hafter, rfl⟩
        exact ⟨_, bind_eq_ok_iff.mpr ⟨_, hnext, bind_eq_ok_iff.mpr ⟨_, hrest, rfl⟩⟩⟩
    rw [hplace, lineRoom_cons_iff]
    -- what follows is counted from the line behind the piece, or from the one that the marker names
    have hnext {after next : Location} (hafter : loc.pastAll p.text = .ok after) (hsame : next.column = after.column)
        (hbound : next.line ≤ counterMax) :
        (∃ result, place next ps = .ok result) ↔ next.line + linesAhead ps ≤ counterMax ∧ LineRoom ps := by
      obtain ⟨-, -, hreached⟩ := Location.pastAll_counts hafter hline
      exact ih hquotes hbound (by omega)
    cases hm : p.marker? with
    | none =>
      rw [linesAhead_of_none hm]
      constructor
      · rintro ⟨after, hafter, hrest⟩
        obtain ⟨hcount, hbound, -⟩ := Location.pastAll_counts hafter hline
        obtain ⟨hroom, hlater⟩ := (hnext hafter rfl hbound).mp hrest
        exact ⟨by omega, by simp, hlater⟩
      · rintro ⟨hroom, -, hlater⟩
        obtain ⟨after, hafter⟩ := @Location.exists_pastAll p.text loc (by omega) (by omega)
        obtain ⟨hcount, hbound, -⟩ := Location.pastAll_counts hafter hline
        exact ⟨after, hafter, (hnext hafter rfl hbound).mpr ⟨by omega, hlater⟩⟩
    | some m =>
      obtain ⟨hvalue, hinside⟩ := hstands.marker_bounds hm
      have hbound : m.line - 1 ≤ counterMax := Nat.le_trans (Nat.sub_le ..) hvalue
      rw [linesAhead_of_some hm]
      constructor
      · rintro ⟨after, hafter, hrest⟩
        obtain ⟨hroom, hlater⟩ := (@hnext after (after.follow m) hafter rfl hbound).mp hrest
        refine ⟨hline, ?_, hlater⟩
        rintro m' ⟨⟩
        exact hroom
      · rintro ⟨-, hroom, hlater⟩
        obtain ⟨after, hafter⟩ := @Location.exists_pastAll p.text loc (by omega) (by omega)
        exact ⟨after, hafter, (@hnext after (after.follow m) hafter rfl hbound).mpr ⟨hroom m rfl, hlater⟩⟩

theorem place_bounds {before cs : List Char} {ps : List Piece} {loc finish : Location} {placed : List Placed}
    (hcut : Cut before cs ps) (hline : loc.line ≤ counterMax) (hcolumn : loc.column + (joined ps).length ≤ counterMax)
    (h : place loc ps = .ok (placed, finish)) :
    ∀ l ∈ placed.map Placed.loc ++ [finish], l.line ≤ counterMax ∧ l.column ≤ counterMax := by
  induction hcut generalizing loc placed with
  | done before =>
    cases h
    rintro l hl
    obtain rfl := List.mem_singleton.mp hl
    exact ⟨hline, Nat.le_trans (Nat.le_add_right ..) hcolumn⟩
  | @piece before rest p ps hstands _ ih =>
    have hjoined : (joined (p :: ps)).length = p.text.length + (joined ps).length := by simp [joined]
    rw [hjoined] at hcolumn
    obtain ⟨next, hnext, h⟩ := bind_eq_ok_iff.mp h
    obtain ⟨⟨later, finish⟩, hrest, h⟩ := bind_eq_ok_iff.mp h
    cases h
    obtain ⟨-, after, hafter, rfl⟩ := Piece.finish_eq_ok_iff.mp hnext
    obtain ⟨-, hbound, hreached⟩ := Location.pastAll_counts hafter hline
    have hnext : ((p.marker?.map after.follow).getD after).line ≤ counterMax ∧
        ((p.marker?.map after.follow).getD after).column = after.column := by
      cases hm : p.marker? with
      | none => exact ⟨hbound, rfl⟩
      | some m => exact ⟨Nat.le_trans (Nat.sub_le ..) (hstands.marker_bounds hm).1, rfl⟩
    intro l hl
    rw [List.map_cons, List.cons_append, List.mem_cons] at hl
    rcases hl with rfl | hl
    · exact ⟨hline, by omega⟩
    · exact ih hnext.1 (by omega) hrest l hl

/-- A text with fewer characters than a counter can count is read to its end if and only if behind every line marker in it
    there are numbers for the lines up to the next one, and none of its constants quotes more characters than can be
    counted. Otherwise a counter runs out. -/
theorem ofText_ok_iff_lineRoom (name : String) {text : String} (hlength : text.length < counterMax) :
    ∃ ps, Cut [] text.toList ps ∧
      (∀ line, .directive line ∈ ps → ∀ m, (Piece.directive line).marker? = some m ↔ IsMarker line m) ∧
      (∀ kind quote n body, .token kind (quote :: (body ++ [quote])) ∈ ps → quote = '\'' ∨ quote = '"' →
        Body quote n body → (Piece.token kind (quote :: (body ++ [quote]))).quotedCount = n) ∧
      match ofText name text with
      | .ok s => LineRoom ps ∧ QuoteRoom ps ∧ ∀ t ∈ s.tokens, t.loc.line ≤ counterMax ∧ t.loc.column ≤ counterMax
      | .error f => f = .counterOverflow ∧ ¬(LineRoom ps ∧ QuoteRoom ps) := by
  have hcut := cut_text text.toList
  refine ⟨_, hcut, fun line hline m => ?_, fun kind quote n body _ => quotedCount_of_body, ?_⟩
  · obtain ⟨before, rest, hstands⟩ := hcut.stands hline
    exact hstands.marker?_eq_some_iff
  have hjoined : 0 + (joined (Scan.pieces true text.toList)).length < counterMax := by
    rw [joined, hcut.joined, String.length_toList, Nat.zero_add]
    exact hlength
  have hplace hquotes := @exists_place_iff _ _ _ { line := 1 } hcut hquotes (by decide) (Nat.le_of_lt hjoined)
  have hahead := linesAhead_le (Scan.pieces true text.toList)
  cases h : ofText name text with
  | ok s =>
    obtain ⟨⟨placed, finish⟩, hresult, h⟩ := bind_eq_ok_iff.mp h
    cases h
    have hquotes := quotedCount_le_of_place hresult
    refine ⟨((hplace hquotes).mp ⟨_, hresult⟩).2, hquotes, fun t ht => ?_⟩
    refine place_bounds hcut (by decide) (Nat.le_of_lt hjoined) hresult t.loc ?_
    rcases List.mem_append.mp ht with ht | ht
    · obtain ⟨p, hp, hpt⟩ := List.mem_filterMap.mp ht
      have hloc : t.loc = p.loc := congrArg Lexeme.loc (loc_of_token? hpt)
      rw [hloc]
      exact List.mem_append_left _ (List.mem_map_of_mem hp)
    · obtain rfl := List.mem_singleton.mp ht
      exact List.mem_append_right _ (List.mem_singleton_self _)
  | error f =>
    refine ⟨ofText_overflows name text f h, ?_⟩
    rintro ⟨hroom, hquotes⟩
    obtain ⟨⟨placed, finish⟩, hresult⟩ := (hplace hquotes).mpr ⟨by dsimp only; omega, hroom⟩
    rw [ofText, hresult] at h
    cases h

/-- The last line that there is: the one behind a marker with the largest number. -/
theorem ofText_ok_iff_lineRoom_last :
    ∃ s, ofText "a.oc" "# 4294967295 \"b.oc\"\nx" = .ok s ∧
      s.tokens.map (fun t => (t.text, t.loc.text)) = [("x", "1.4294967295.0"), ("", "1.4294967295.1")] ∧
      ∃ ps, Cut [] "# 4294967295 \"b.oc\"\nx".toList ps ∧ LineRoom ps ∧ QuoteRoom ps := by
  refine exists_ok_and (by decide +kernel) fun hs => ?_
  obtain ⟨ps, hcut, -, -, hroom⟩ := @ofText_ok_iff_lineRoom "a.oc" "# 4294967295 \"b.oc\"\nx" (by decide)
  rw [hs] at hroom
  exact ⟨ps, hcut, hroom.1, hroom.2.1⟩

/-- One line more, and the counter runs out, though the text is short. -/
theorem ofText_overflow_behind_marker : "# 4294967295 \"a\"\n\n".length < counterMax ∧
    ofText "test.oc" "# 4294967295 \"a\"\n\n" = .error .counterOverflow := by
  refine ⟨by decide, ?_⟩
  cases h : ofText "test.oc" "# 4294967295 \"a\"\n\n" with
  | ok s =>
    have hnone : (ofText "test.oc" "# 4294967295 \"a\"\n\n").toOption.isNone = true := by decide +kernel
    rw [h] at hnone
    cases hnone
  | error f => rw [ofText_overflows _ _ f h]

end TokenStream

end OcCompiler
