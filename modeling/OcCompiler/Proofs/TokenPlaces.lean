import Mathlib.Data.List.DropRight
import OcCompiler.Proofs.Emission
import OcCompiler.Proofs.Segmentation

/-! The places of tokens. What stands before a token settles its place: the line markers give its file and, with the line
    ends behind the last of them, its line, and the characters since the last line end give its column. -/

namespace OcCompiler

/-- How many characters of a text stand behind its last line end. -/
def Text.column (cs : List Char) : Nat := (cs.rtakeWhile (· != '\n')).length

theorem Text.column_concat (cs : List Char) (c : Char) :
    column (cs ++ [c]) = if c = '\n' then 0 else column cs + 1 := by
  by_cases hc : c = '\n' <;> simp [column, hc]

theorem Location.pastAll_eq {loc after : Location} {cs text : List Char} (hcolumn : loc.column = Text.column cs)
    (h : loc.pastAll text = .ok after) : after = ⟨loc.file, loc.line + text.count '\n', Text.column (cs ++ text)⟩ := by
  induction text generalizing loc cs with
  | nil =>
    cases h
    rw [List.append_nil, ← hcolumn]
    rfl
  | cons c text ih =>
    rw [pastAll, List.foldlM_cons] at h
    obtain ⟨next, hnext, hrest⟩ := bind_eq_ok_iff.mp h
    rw [List.append_cons]
    by_cases hc : c = '\n'
    · rw [past_eq_ok_iff, if_pos hc] at hnext
      obtain ⟨-, rfl⟩ := hnext
      have hnext : 0 = Text.column (cs ++ [c]) := by rw [Text.column_concat, if_pos hc]
      rw [ih hnext hrest, hc, List.count_cons_self, Nat.add_right_comm, Nat.add_assoc]
    · rw [past_eq_ok_iff, if_neg hc] at hnext
      obtain ⟨-, rfl⟩ := hnext
      have hnext : loc.column + 1 = Text.column (cs ++ [c]) := by rw [Text.column_concat, if_neg hc, hcolumn]
      rw [ih hnext hrest, List.count_cons_of_ne hc]

namespace Lexical

def joined (ps : List Piece) : List Char := (ps.map Piece.text).flatten

def markers (ps : List Piece) : List Marker := ps.filterMap Piece.marker?

/-- The place behind the pieces of a text. The file is the number of line markers. The lines are counted from 1 or, if there
    are markers, from the one before that of the last marker, at the marker's end. -/
def position (ps : List Piece) : Location where
  file := (markers ps).length
  line := (markers ps).getLast?.elim 1 (·.line - 1) + (joined (ps.rtakeWhile (·.marker?.isNone))).count '\n'
  column := Text.column (joined ps)

theorem finish_position {ps : List Piece} {p : Piece} {after : Location} (h : p.finish (position ps) = .ok after) :
    after = position (ps ++ [p]) := by
  obtain ⟨-, reached, hreached, rfl⟩ := Piece.finish_eq_ok_iff.mp h
  have hjoined : joined (ps ++ [p]) = joined ps ++ p.text := by simp [joined]
  rw [Location.pastAll_eq rfl hreached, position, position, hjoined, List.rtakeWhile_concat]
  cases hm : p.marker? with
  | none => simp [markers, hm, joined, Nat.add_assoc]
  | some m => simp [markers, hm, joined, Location.follow]

end Lexical

open Lexical

theorem TokenStream.place_positions {before ps : List Piece} {placed : List Placed} {finish : Location}
    (h : place (position before) ps = .ok (placed, finish)) :
    finish = position (before ++ ps) ∧ ∀ p : Placed, p ∈ placed ↔
      ∃ ps₁ ps₂, ps = ps₁ ++ p.piece :: ps₂ ∧ p.loc = position (before ++ ps₁) := by
  induction ps generalizing before placed with
  | nil =>
    cases h
    simp
  | cons q ps ih =>
    rw [place] at h
    obtain ⟨next, hnext, h⟩ := bind_eq_ok_iff.mp h
    obtain ⟨⟨rest, last⟩, hrest, h⟩ := bind_eq_ok_iff.mp h
    cases h
    rw [finish_position hnext] at hrest
    obtain ⟨hfinish, hrest⟩ := ih hrest
    rw [List.append_assoc] at hfinish
    refine ⟨hfinish, fun p => ?_⟩
    rw [List.mem_cons, hrest]
    constructor
    · rintro (rfl | ⟨ps₁, ps₂, rfl, hloc⟩)
      · exact ⟨[], ps, rfl, by rw [List.append_nil]⟩
      · exact ⟨q :: ps₁, ps₂, rfl, by rw [hloc, List.append_assoc]; rfl⟩
    · rintro ⟨ps₁, ps₂, hps, hloc⟩
      cases ps₁ with
      | nil =>
        obtain ⟨rfl, rfl⟩ := List.cons.inj hps
        rw [List.append_nil] at hloc
        exact .inl (by rw [← hloc])
      | cons q' ps₁ =>
        obtain ⟨rfl, rfl⟩ := List.cons.inj hps
        exact .inr ⟨ps₁, ps₂, rfl, by rw [hloc, List.append_assoc]; rfl⟩

namespace Lexical

/-! ### Lines that start with a number sign -/

theorem directive_of_sign {before cs u v : List Char} {ps : List Piece} (h : Cut before cs ps) (hcs : cs = u ++ '#' :: v)
    (hline : AtLineStart (before ++ u)) :
    (∃ ps₁ line ps₂, ps = ps₁ ++ .directive line :: ps₂ ∧ joined ps₁ = u) ∨
      ∃ ps₁ inside rest ps₂, ps = ps₁ ++ .comment (inside ++ '#' :: rest) :: ps₂ ∧ ['/', '*'] <+: inside ++ '#' :: rest ∧
        joined ps₁ ++ inside = u := by
  induction h generalizing u with
  | done before => exact absurd hcs.symm (List.append_ne_nil_of_right_ne_nil u (List.cons_ne_nil _ v))
  | @piece before rest p ps hstands _ ih =>
    have hlater {w : List Char} (hu : u = p.text ++ w) (hrest : rest = w ++ '#' :: v) :
        (∃ ps₁ line ps₂, p :: ps = ps₁ ++ .directive line :: ps₂ ∧ joined ps₁ = u) ∨
          ∃ ps₁ inside rest ps₂, p :: ps = ps₁ ++ .comment (inside ++ '#' :: rest) :: ps₂ ∧
            ['/', '*'] <+: inside ++ '#' :: rest ∧ joined ps₁ ++ inside = u := by
      subst hu
      rw [← List.append_assoc] at hline
      rcases ih hrest hline with ⟨ps₁, line, ps₂, rfl, rfl⟩ | ⟨ps₁, inside, rest', ps₂, rfl, hstart, rfl⟩
      · exact .inl ⟨p :: ps₁, line, ps₂, rfl, rfl⟩
      · exact .inr ⟨p :: ps₁, inside, rest', ps₂, rfl, hstart, List.append_assoc ..⟩
    rcases List.append_eq_append_iff.mp hcs with ⟨w, hu, hrest⟩ | ⟨w, htext, hsign⟩
    · exact hlater hu hrest
    cases w with
    | nil => exact hlater (w := []) (by rw [List.append_nil, htext, List.append_nil]) hsign.symm
    | cons c w =>
      obtain ⟨rfl, -⟩ := List.cons.inj hsign
      clear hlater ih hcs hsign
      -- The sign is at the start of the piece or behind a line end in it.
      have hstart : u = [] ∧ AtLineStart before ∨ '\n' ∈ u := by
        rcases List.eq_nil_or_concat u with rfl | ⟨u, d, rfl⟩
        · exact .inl ⟨rfl, by rwa [List.append_nil] at hline⟩
        · refine .inr ?_
          rw [hline d (by simp)]
          simp
      have hinside (hnot : '\n' ∉ p.text) : u = [] ∧ AtLineStart before :=
        hstart.resolve_right fun hmem => hnot (htext ▸ List.mem_append_left _ hmem)
      cases p with
      | blank text =>
        obtain rfl : text = u ++ '#' :: w := htext
        exact absurd (hstands.2.1 '#' (by simp)) (by decide)
      | comment text =>
        have hopen : ['/', '*'] <+: text := by
          cases hstands with
          | line hend =>
            obtain ⟨rfl, -⟩ := hinside hend.1
            cases htext
          | block => exact ⟨_, rfl⟩
          | unclosed => exact ⟨_, rfl⟩
        obtain rfl : text = u ++ '#' :: w := htext
        exact .inr ⟨[], u, w, ps, rfl, hopen, rfl⟩
      | directive text =>
        obtain ⟨rfl, -⟩ := hinside (hstands.newline_not_mem (by simp) (by simp))
        exact .inl ⟨[], text, ps, rfl, rfl⟩
      | token kind text =>
        obtain ⟨rfl, -⟩ := hinside (hstands.newline_not_mem (by simp) (by simp))
        obtain rfl : text = '#' :: w := htext
        have hmark := hstands.1.isToken.of_other (by simp [IsLetter]) (by decide) (by decide)
        have hall : ∀ p ∈ marks, p.1.head? ≠ some '#' := by decide
        exact absurd rfl (hall _ hmark)
      | badCharacter d =>
        obtain ⟨rfl, hbefore⟩ := hinside (hstands.newline_not_mem (by simp) (by simp))
        exact absurd ⟨(List.cons.inj htext).1, hbefore⟩ hstands.2.1
      | badToken text =>
        obtain ⟨rfl, -⟩ := hinside (hstands.newline_not_mem (by simp) (by simp))
        cases hstands with
        | @number digits _ _ _ hne hdigits =>
          cases digits with
          | nil => exact absurd rfl hne
          | cons d digits =>
            have hdigit := hdigits d (List.mem_cons_self ..)
            rw [(List.cons.inj htext).1] at hdigit
            exact absurd hdigit (by decide)
        | quoted hquote => rcases hquote with rfl | rfl <;> cases htext

/-- The pieces of a text and what was read from it belong together. The tokens are those of the pieces, each at the place to
    which the pieces before it lead, and the end. The directives are the lines that start with a number sign outside of
    block comments; those that are line markers give the files their names. -/
structure Locates (name : String) (cs : List Char) (s : TokenStream) (ps : List Piece) : Prop where
  cut : Cut [] cs ps
  token : ∀ t, t ∈ s.tokens ↔ t = .atEnd (position ps) ∨
    ∃ ps₁ kind text ps₂, ps = ps₁ ++ .token kind text :: ps₂ ∧ t = ⟨kind, ⟨String.ofList text, position ps₁⟩⟩
  directive : ∀ u v, cs = u ++ '#' :: v → AtLineStart u →
    (∃ ps₁ line ps₂, ps = ps₁ ++ .directive line :: ps₂ ∧ joined ps₁ = u) ∨
      ∃ ps₁ inside rest ps₂, ps = ps₁ ++ .comment (inside ++ '#' :: rest) :: ps₂ ∧ ['/', '*'] <+: inside ++ '#' :: rest ∧
        joined ps₁ ++ inside = u
  marker : ∀ line, .directive line ∈ ps → ∀ m, (Piece.directive line).marker? = some m ↔ IsMarker line m
  files : s.files.names.toList = name :: (markers ps).map Marker.name

end Lexical

namespace TokenStream

variable {name text : String} {s : TokenStream}

theorem placed_positions (h : ofText name text = .ok s) :
    s.finish = position (Scan.pieces true text.toList) ∧ ∀ p : Placed, p ∈ s.placed ↔
      ∃ ps₁ ps₂, Scan.pieces true text.toList = ps₁ ++ p.piece :: ps₂ ∧ p.loc = position ps₁ := by
  obtain ⟨⟨placed, finish⟩, hplace, h⟩ := bind_eq_ok_iff.mp h
  cases h
  have hstart : position [] = { line := 1 } := rfl
  exact place_positions (hstart ▸ hplace)

theorem mem_tokens_iff (h : ofText name text = .ok s) (t : Token) :
    t ∈ s.tokens ↔ t = .atEnd (position (Scan.pieces true text.toList)) ∨
      ∃ ps₁ kind cs ps₂, Scan.pieces true text.toList = ps₁ ++ .token kind cs :: ps₂ ∧
        t = ⟨kind, ⟨String.ofList cs, position ps₁⟩⟩ := by
  obtain ⟨hfinish, hplaced⟩ := placed_positions h
  rw [tokens, List.mem_append, List.mem_filterMap, List.mem_singleton, hfinish, or_comm]
  refine or_congr_right ⟨?_, ?_⟩
  · rintro ⟨⟨piece, loc⟩, hp, ht⟩
    obtain ⟨ps₁, ps₂, hps, rfl⟩ := (hplaced _).mp hp
    cases piece with
    | token kind cs =>
      cases ht
      exact ⟨ps₁, kind, cs, ps₂, hps, rfl⟩
    | _ => cases ht
  · rintro ⟨ps₁, kind, cs, ps₂, hps, rfl⟩
    exact ⟨⟨.token kind cs, position ps₁⟩, (hplaced _).mpr ⟨ps₁, ps₂, hps, rfl⟩, rfl⟩

theorem names_files (h : ofText name text = .ok s) :
    s.files.names.toList = name :: (markers (Scan.pieces true text.toList)).map Marker.name := by
  have hname : s.fileName = name := by
    obtain ⟨result, -, h⟩ := bind_eq_ok_iff.mp h
    cases h
    rfl
  rw [files, ← (ofText_ordered h).1, markers, List.filterMap_map, List.map_filterMap, hname]
  rfl

/-- Every token of a text, the end among them, stands at the place that the markers, line ends and characters before it
    lead to, and the names of the markers are those of the files. So the places grow from token to token. -/
theorem locates_tokens (h : ofText name text = .ok s) :
    (∃ ps, Locates name text.toList s ps) ∧ (s.tokens.map Token.loc).Pairwise Location.Before := by
  have hcut := cut_text text.toList
  refine ⟨⟨Scan.pieces true text.toList, ?_⟩, tokens_ordered h⟩
  exact {
    cut := hcut
    token := mem_tokens_iff h
    directive := fun u v hcs hline => directive_of_sign hcut hcs hline
    marker := fun line hline m => by
      obtain ⟨before, rest, hstands⟩ := hcut.stands hline
      exact hstands.marker?_eq_some_iff
    files := names_files h }

/-- Two markers, the second with line number 0, and lines that only look like markers. -/
theorem locates_tokens_markers :
    ∃ s, ofText "a.oc" "x\n/*\n# 9 \"no\"\n*/ y # 9 \"no\"\n# 7 \"b.oc\" 2\n\n  z\n#0\"c.oc\"\nw" = .ok s ∧
      s.tokens.map (fun t => (t.text, t.loc.text)) = [("x", "0.1.0"), ("y", "0.4.3"), ("9", "0.4.7"), ("\"no\"", "0.4.9"),
        ("z", "1.8.2"), ("w", "2.1.0"), ("", "2.1.1")] ∧
      (∃ ps, Locates "a.oc" "x\n/*\n# 9 \"no\"\n*/ y # 9 \"no\"\n# 7 \"b.oc\" 2\n\n  z\n#0\"c.oc\"\nw".toList s ps) ∧
      (s.tokens.map Token.loc).Pairwise Location.Before := by
  exact exists_ok_and (by decide +kernel) locates_tokens

end TokenStream

end OcCompiler
