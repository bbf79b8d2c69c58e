import OcCompiler.Proofs.Building
import OcCompiler.Proofs.GrammarSound
import OcCompiler.Token.Stream

/-! Where tokens stand. Within a file the line or the column grows, and a line marker opens a file with a higher number.
    So all tokens of a text stand at different places, and so do the constructs of a program. -/

namespace OcCompiler

namespace Location

variable {a b c : Location}

/-- Places are ordered by file, then by line, then by column. -/
def Before (a b : Location) : Prop :=
  a.file < b.file ∨ a.file = b.file ∧ (a.line < b.line ∨ a.line = b.line ∧ a.column < b.column)

theorem Before.ne (h : a.Before b) : a ≠ b := by
  rintro rfl
  simp [Before] at h

theorem Before.trans (hab : a.Before b) (hbc : b.Before c) : a.Before c := by
  unfold Before at *
  omega

theorem before_past {ch : Char} (h : a.past ch = .ok b) : a.Before b := by
  unfold past at h
  split at h
  · obtain ⟨line, hline, rfl⟩ := map_eq_ok_iff.mp h
    obtain ⟨-, rfl⟩ := countUp_eq_ok_iff.mp hline
    exact .inr ⟨rfl, .inl (Nat.lt_succ_self _)⟩
  · obtain ⟨column, hcolumn, rfl⟩ := map_eq_ok_iff.mp h
    obtain ⟨-, rfl⟩ := countUp_eq_ok_iff.mp hcolumn
    exact .inr ⟨rfl, .inr ⟨rfl, Nat.lt_succ_self _⟩⟩

theorem before_pastAll {text : List Char} (h : a.pastAll text = .ok b) : text = [] ∧ a = b ∨ a.Before b := by
  induction text generalizing a with
  | nil =>
    cases h
    exact .inl ⟨rfl, rfl⟩
  | cons ch text ih =>
    rw [pastAll, List.foldlM_cons] at h
    obtain ⟨next, hnext, hrest⟩ := bind_eq_ok_iff.mp h
    rcases ih hrest with ⟨-, rfl⟩ | hbefore
    · exact .inr (before_past hnext)
    · exact .inr ((before_past hnext).trans hbefore)

theorem Before.follow (h : a.Before b) (m : Marker) : a.Before (b.follow m) := by
  have hfile : a.file ≤ b.file := by
    rcases h with hlt | ⟨heq, -⟩
    · exact Nat.le_of_lt hlt
    · exact Nat.le_of_eq heq
  exact .inl (Nat.lt_succ_of_le hfile)

end Location

theorem Piece.before_finish {p : Piece} {loc after : Location} (hp : p.text ≠ []) (h : p.finish loc = .ok after) :
    loc.Before after := by
  obtain ⟨-, reached, hreached, rfl⟩ := finish_eq_ok_iff.mp h
  have hbefore : loc.Before reached := by
    rcases Location.before_pastAll hreached with ⟨hnil, -⟩ | hbefore
    · exact absurd hnil hp
    · exact hbefore
  cases p.marker? with
  | none => exact hbefore
  | some m => exact hbefore.follow m

namespace TokenStream

theorem place_ordered {pieces : List Piece} {loc finish : Location} {placed : List Placed}
    (hpieces : ∀ p ∈ pieces, p.text ≠ []) (h : place loc pieces = .ok (placed, finish)) :
    placed.map Placed.piece = pieces ∧ (placed.map Placed.loc ++ [finish]).Pairwise Location.Before ∧
      ∀ l ∈ placed.map Placed.loc ++ [finish], loc = l ∨ loc.Before l := by
  induction pieces generalizing loc placed with
  | nil =>
    cases h
    simp
  | cons p ps ih =>
    rw [place] at h
    obtain ⟨next, hnext, h⟩ := bind_eq_ok_iff.mp h
    obtain ⟨rest, hrest, h⟩ := bind_eq_ok_iff.mp h
    cases h
    obtain ⟨hp, hps⟩ := List.forall_mem_cons.mp hpieces
    have hbefore := Piece.before_finish hp hnext
    obtain ⟨hmap, hordered, hfrom⟩ := ih hps hrest
    have hlater : ∀ l ∈ rest.1.map Placed.loc ++ [rest.2], loc.Before l := by
      intro l hl
      rcases hfrom l hl with rfl | hl
      · exact hbefore
      · exact hbefore.trans hl
    refine ⟨by rw [List.map_cons, hmap], hordered.cons hlater, ?_⟩
    intro l hl
    rcases List.mem_cons.mp hl with rfl | hl
    · exact .inl rfl
    · exact .inr (hlater l hl)

variable {name text : String} {s : TokenStream}

theorem ofText_ordered (h : ofText name text = .ok s) :
    s.placed.map Placed.piece = Scan.pieces true text.toList ∧
      (s.placed.map Placed.loc ++ [s.finish]).Pairwise Location.Before := by
  obtain ⟨result, hplace, h⟩ := bind_eq_ok_iff.mp h
  cases h
  obtain ⟨hpieces, hordered, -⟩ := place_ordered (fun p hp => Scan.text_ne_nil_of_mem_pieces hp) hplace
  exact ⟨hpieces, hordered⟩

theorem loc_of_token? {p : Placed} {t : Token} (h : p.token? = some t) : t.lexeme = p.lexeme := by
  unfold Placed.token? at h
  split at h
  · cases h
    rfl
  · cases h

theorem tokens_ordered (h : ofText name text = .ok s) : (s.tokens.map Token.loc).Pairwise Location.Before := by
  obtain ⟨-, hordered⟩ := ofText_ordered h
  refine hordered.sublist ?_
  rw [tokens, List.map_append]
  refine List.Sublist.append ?_ (.refl _)
  generalize s.placed = placed
  induction placed with
  | nil => exact .slnil
  | cons p placed ih =>
    rw [List.filterMap_cons]
    cases htoken : p.token? with
    | none => exact ih.cons _
    | some t =>
      have hloc : t.loc = p.loc := congrArg Lexeme.loc (loc_of_token? htoken)
      rw [List.map_cons, List.map_cons, hloc]
      exact ih.cons_cons _

theorem nodup_locs (h : ofText name text = .ok s) : (s.tokens.map Token.loc).Nodup :=
  (tokens_ordered h).imp Location.Before.ne

theorem text_ne_empty {t : Token} (h : ofText name text = .ok s) (ht : t ∈ s.tokens) (hkind : t.kind ≠ .endOfFile) :
    t.text ≠ "" := by
  obtain ⟨hpieces, -⟩ := ofText_ordered h
  rcases List.mem_append.mp ht with ht | ht
  · obtain ⟨p, hp, htoken⟩ := List.mem_filterMap.mp ht
    have hpiece : p.piece ∈ Scan.pieces true text.toList := hpieces ▸ List.mem_map_of_mem hp
    have htext : t.text = String.ofList p.piece.text := congrArg Lexeme.text (loc_of_token? htoken)
    intro hempty
    rw [htext] at hempty
    exact Scan.text_ne_nil_of_mem_pieces hpiece (by simpa using congrArg String.toList hempty)
  · rw [List.mem_singleton.mp ht] at hkind
    exact absurd rfl hkind

theorem closed_tokens (s : TokenStream) : (Cursor.ofTokens s.tokens).Closed :=
  ⟨.atEnd s.finish, by simp [Cursor.ofTokens, tokens], rfl⟩

end TokenStream

namespace Program

def tokens (items : List Item) : List Token := items.flatMap Item.tokens

theorem tokens_sublist {ts : List Token} {n : NodeId} {t : Tree} (hclosed : (Cursor.ofTokens ts).Closed)
    (h : Tree.empty.parse ts = (.ok n, t)) : (tokens (ofTokens ts).items).Sublist ts := by
  obtain ⟨passed, r, hpassed, -, -, hkept⟩ := spans_read hclosed (Tree.parse_ok_iff.mp ⟨n, t, h⟩)
  have hts : ts = passed ++ r.ahead := hpassed.ahead
  rw [hts] at hkept ⊢
  exact hkept.trans (List.sublist_append_left passed r.ahead)

variable {name text : String} {s : TokenStream} {n : NodeId} {t : Tree}

theorem nodup_locs_tokens (hs : TokenStream.ofText name text = .ok s) (h : Tree.empty.parse s.tokens = (.ok n, t)) :
    ((tokens (ofTokens s.tokens).items).map Token.loc).Nodup :=
  (TokenStream.nodup_locs hs).sublist ((tokens_sublist s.closed_tokens h).map _)

theorem text_ne_empty_of_mem_tokens (hs : TokenStream.ofText name text = .ok s)
    (h : Tree.empty.parse s.tokens = (.ok n, t)) {x : Token} (hx : x ∈ tokens (ofTokens s.tokens).items)
    (hkind : x.kind ≠ .endOfFile) : x.text ≠ "" :=
  TokenStream.text_ne_empty hs ((tokens_sublist s.closed_tokens h).subset hx) hkind

end Program

end OcCompiler
