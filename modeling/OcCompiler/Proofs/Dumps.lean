import Mathlib.Data.List.Forall2
import OcCompiler.Proofs.Rescanning
import OcCompiler.Proofs.Scoping
import OcCompiler.Proofs.Spelling
import OcCompiler.Proofs.TreeShape

/-! A dump can be read back. Whatever characters are in the lexemes, each line can be told from the next one, a tag ends
    in front of the first quote and a place starts behind the last one. -/

namespace OcCompiler

theorem flatMap_lines_inj {α : Type} {line : α → List Char} (hinj : ∀ x y, line x = line y → x = y) {xs ys : List α}
    (hxs : ∀ x ∈ xs, '\n' ∉ line x) (hys : ∀ y ∈ ys, '\n' ∉ line y)
    (h : xs.flatMap (line · ++ ['\n']) = ys.flatMap (line · ++ ['\n'])) : xs = ys := by
  induction xs generalizing ys with
  | nil =>
    cases ys with
    | nil => rfl
    | cons y ys => simp at h
  | cons x xs ih =>
    cases ys with
    | nil => simp at h
    | cons y ys =>
      obtain ⟨hx, hxs⟩ := List.forall_mem_cons.mp hxs
      obtain ⟨hy, hys⟩ := List.forall_mem_cons.mp hys
      simp only [List.flatMap_cons, List.append_assoc, List.singleton_append] at h
      obtain ⟨hline, hrest⟩ := cut_inj hx hy h
      rw [hinj x y hline, ih hxs hys hrest]

theorem cut_inj_last {α : Type} {x : α} {as bs cs ds : List α} (hcs : x ∉ cs) (hds : x ∉ ds)
    (h : as ++ x :: cs = bs ++ x :: ds) : as = bs ∧ cs = ds := by
  have hcut : cs.reverse ++ x :: as.reverse = ds.reverse ++ x :: bs.reverse := by simpa using congrArg List.reverse h
  obtain ⟨hc, ha⟩ := cut_inj (by simpa using hcs) (by simpa using hds) hcut
  exact ⟨List.reverse_inj.mp ha, List.reverse_inj.mp hc⟩

namespace Tag

def all : List Tag :=
  List.flatten [[.root, .struct, .function, .prototype, .paramList, .block, .varDecl, .array, .typeName, .declName, .field, .name,
      .whileLoop, .ifThen, .ifElse, .returnValue, .returnVoid, .semicolon, .newStruct, .newString, .newArray, .call, .index,
      .select, .binary .assign, .released],
    [Scalar.void, .bool, .char, .int, .string].map .scalar,
    [UnaryOp.pos, .neg, .not, .ord, .chr].map .unary,
    [Comparison.eq, .ne, .lt, .le, .gt, .ge].map fun c => .binary (.compare c),
    [Arithmetic.add, .sub, .mul, .div, .rem].map fun op => .binary (.arith op),
    [Constant.null, .truth true, .truth false, .literal .int, .literal .char, .literal .string].map .constant]

theorem mem_all (tag : Tag) : tag ∈ all := by
  cases tag with
  | scalar s => cases s <;> decide
  | unary op => cases op <;> decide
  | binary op =>
    cases op with
    | assign => decide
    | compare c => cases c <;> decide
    | arith a => cases a <;> decide
  | constant c =>
    cases c with
    | literal l => cases l <;> decide
    | truth b => cases b <;> decide
    | null => decide
  | _ => decide

theorem text_inj {a b : Tag} (h : a.text = b.text) : a = b := by
  have hdistinct : (all.map text).Nodup := by decide +kernel
  exact List.inj_on_of_nodup_map hdistinct a.mem_all b.mem_all h

theorem text_plain (tag : Tag) :
    '"' ∉ tag.text.toList ∧ '\n' ∉ tag.text.toList ∧ tag.text.toList.head? ≠ some '|' := by
  have hall : ∀ tag ∈ all, '"' ∉ tag.text.toList ∧ '\n' ∉ tag.text.toList ∧ tag.text.toList.head? ≠ some '|' := by
    decide +kernel
  exact hall tag tag.mem_all

end Tag

theorem Location.isDigit_of_mem_text {loc : Location} {c : Char} (h : c ∈ loc.text.toList) : c.isDigit = true ∨ c = '.' := by
  simp only [text, String.toList_append, List.mem_append] at h
  rcases h with (((h | h) | h) | h) | h
  · exact .inl (isDigit_of_mem_repr h)
  · exact .inr (List.mem_singleton.mp h)
  · exact .inl (isDigit_of_mem_repr h)
  · exact .inr (List.mem_singleton.mp h)
  · exact .inl (isDigit_of_mem_repr h)

namespace Tree

/-- What a line of a dump says: the level of a node, its tag and its lexeme. -/
abbrev Facts := Nat × Tag × Lexeme

def facts (t : Tree) (p : Nat × NodeId) : Facts := (p.1, t.tag p.2, t.lexeme p.2)

namespace Facts

def words (f : Facts) : List Char :=
  (f.2.1.text.toList ++ [' ']) ++ '"' :: (f.2.2.text.toList ++ '"' :: ([' ', '('] ++ f.2.2.loc.text.toList ++ [')']))

def line (f : Facts) : List Char := (List.replicate f.1 ['|', ' ', ' ']).flatten ++ f.words

theorem words_inj {f g : Facts} (h : f.words = g.words) : f.2 = g.2 := by
  obtain ⟨level, tag, text, loc⟩ := f
  obtain ⟨level', tag', text', loc'⟩ := g
  have htag (tag : Tag) : '"' ∉ tag.text.toList ++ [' '] := by simp [tag.text_plain.1]
  have hloc (loc : Location) : '"' ∉ [' ', '('] ++ loc.text.toList ++ [')'] := by
    have hmem : '"' ∉ loc.text.toList := fun hmem => absurd (loc.isDigit_of_mem_text hmem) (by decide)
    simp [hmem]
  obtain ⟨htags, hrest⟩ := cut_inj (htag tag) (htag tag') h
  obtain ⟨htexts, hlocs⟩ := cut_inj_last (hloc loc) (hloc loc') hrest
  obtain rfl := Tag.text_inj (String.toList_inj.mp (List.append_cancel_right htags))
  obtain rfl : text = text' := String.toList_inj.mp htexts
  obtain rfl := Location.text_inj (String.toList_inj.mp (List.append_cancel_left (List.append_cancel_right hlocs)))
  rfl

theorem marks_inj {m n : Nat} {as bs : List Char} (has : ∀ c ∈ as.head?, c ≠ '|') (hbs : ∀ c ∈ bs.head?, c ≠ '|')
    (h : (List.replicate m ['|', ' ', ' ']).flatten ++ as = (List.replicate n ['|', ' ', ' ']).flatten ++ bs) :
    m = n ∧ as = bs := by
  induction m generalizing n with
  | zero =>
    cases n with
    | zero => exact ⟨rfl, h⟩
    | succ n =>
      simp only [List.replicate_zero, List.flatten_nil, List.nil_append] at h
      exact absurd rfl (has '|' (by rw [h]; rfl))
  | succ m ih =>
    cases n with
    | zero =>
      simp only [List.replicate_zero, List.flatten_nil, List.nil_append] at h
      exact absurd rfl (hbs '|' (by rw [← h]; rfl))
    | succ n =>
      simp only [List.replicate_succ, List.flatten_cons, List.append_assoc] at h
      obtain ⟨rfl, hrest⟩ := ih (List.append_cancel_left h)
      exact ⟨rfl, hrest⟩

theorem line_inj (f g : Facts) (h : f.line = g.line) : f = g := by
  have hstart (f : Facts) : ∀ c ∈ f.words.head?, c ≠ '|' := by
    have hplain := f.2.1.text_plain.2.2
    cases htext : f.2.1.text.toList with
    | nil => simp [words, htext]
    | cons c cs => simpa [words, htext] using hplain
  obtain ⟨hlevel, hwords⟩ := marks_inj (hstart f) (hstart g) h
  exact Prod.ext hlevel (words_inj hwords)

theorem newline_not_mem_line {f : Facts} (h : '\n' ∉ f.2.2.text.toList) : '\n' ∉ f.line := by
  have hloc : '\n' ∉ f.2.2.loc.text.toList := fun hmem => absurd (Location.isDigit_of_mem_text hmem) (by decide)
  simp [line, words, f.2.1.text_plain.2.1, h, hloc]

end Facts

theorem toList_dump (t : Tree) : t.dump.toList = (t.outline.map t.facts).flatMap (Facts.line · ++ ['\n']) := by
  simp only [dump, dumpWith, String.toList_join, List.flatMap_def, List.map_map]
  congr 2
  funext p
  simp [rawLine, Text.repeated, String.toList_join, Facts.line, Facts.words, facts, text, loc, List.flatMap_def]

end Tree

namespace Tree

variable {name text name' text' : String} {s s' : TokenStream} {root root' : NodeId} {t t' : Tree}

theorem newline_not_mem_text (hs : TokenStream.ofText name text = .ok s) (h : empty.parse s.tokens = (.ok root, t))
    (n : NodeId) : '\n' ∉ (t.text n).toList := by
  obtain ⟨-, hshows, hsize⟩ := parse_shows h
  by_cases hn : n.index < t.size
  swap
  · rw [Tree.text, lexeme, node_eq_absent (Nat.le_of_not_lt hn)]
    exact List.not_mem_nil
  have hmem : t.entry n.index ∈ (Program.sapling (Program.ofTokens s.tokens).items).nodes 0 := by
    rw [hshows.nodes_eq, ← hsize]
    exact List.mem_map_of_mem (List.mem_range'_1.mpr ⟨Nat.zero_le _, by rwa [Nat.zero_add]⟩)
  by_cases hkept : NameStep.isKept (t.entry n.index) = true
  · have hlexeme : t.lexeme n ∈ (Program.tokens (Program.ofTokens s.tokens).items).map Token.lexeme := by
      rw [← List.count_pos_iff, ← Item.count_lexemesAll _ 1, List.count_pos_iff]
      rcases List.mem_cons.mp hmem with heq | hmem
      · rw [heq] at hkept
        cases hkept
      · exact List.mem_map.mpr ⟨_, List.mem_filter.mpr ⟨hmem, hkept⟩, rfl⟩
    obtain ⟨token, htoken, hlexeme⟩ := List.mem_map.mp hlexeme
    obtain ⟨ts, hts, htokens⟩ := TokenStream.isToken_of_mem hs
    have hpair : (token.kind, token.text) ∈ ts ++ [(.endOfFile, "")] := by
      rw [← hts]
      exact List.mem_map_of_mem ((Program.tokens_sublist s.closed_tokens h).subset htoken)
    rw [Tree.text, ← hlexeme]
    rcases List.mem_append.mp hpair with hpair | hpair
    · exact (htokens _ hpair).1.newline_not_mem
    · rw [show token.lexeme.text = "" from congrArg Prod.snd (List.mem_singleton.mp hpair)]
      exact List.not_mem_nil
  · have hmade : t.text n ∈ ["<<ROOT>>", "<<FUNCTION>>", "<<PROTOTYPE>>"] := by
      unfold NameStep.isKept entry at hkept
      split at hkept <;> simp_all [Tree.text]
    have hplain : ∀ x ∈ ["<<ROOT>>", "<<FUNCTION>>", "<<PROTOTYPE>>"], '\n' ∉ x.toList := by decide
    exact hplain _ hmade

def Within (t : Tree) : Nat → NodeId → Prop
  | 0, _ => False
  | depth + 1, n => t.tag n ≠ .released ∧ ∀ c ∈ t.children n, t.Within depth c

mutual

theorem Shows.within {t : Tree} {p : Option NodeId} {k depth : Nat} {s : Sapling} (h : t.Shows p k s)
    (hlive : ∀ n c, c ∈ t.children n → t.tag c ≠ .released) (hdepth : s.depth ≤ depth) :
    ∀ n ∈ s.top k, t.tag n ≠ .released → t.Within depth n := by
  match s, h with
  | .node tag x before after, ⟨hnode, hbefore, hafter⟩ =>
    rintro n ⟨⟩ htag
    rw [Sapling.depth] at hdepth
    obtain ⟨depth, rfl⟩ : ∃ d, depth = d + 1 := ⟨depth - 1, by omega⟩
    refine ⟨htag, fun c hc => ?_⟩
    have hc' := hlive _ c hc
    rw [children, hnode] at hc
    rcases List.mem_append.mp hc with hc | hc
    · exact ShowsAll.within hbefore hlive (by omega) c hc hc'
    · exact ShowsAll.within hafter hlive (by omega) c hc hc'
  | .spent x, _ => exact nofun

theorem ShowsAll.within {t : Tree} {p : Option NodeId} {k depth : Nat} {ss : List Sapling} (h : t.ShowsAll p k ss)
    (hlive : ∀ n c, c ∈ t.children n → t.tag c ≠ .released) (hdepth : Sapling.depths ss ≤ depth) :
    ∀ n ∈ Sapling.tops k ss, t.tag n ≠ .released → t.Within depth n := by
  match ss, h with
  | [], _ => exact nofun
  | s :: ss, ⟨hs, hss⟩ =>
    rw [Sapling.depths] at hdepth
    intro n hn
    rcases List.mem_append.mp hn with hn | hn
    · exact Shows.within hs hlive (by omega) n (Option.mem_toList.mp hn)
    · exact ShowsAll.within hss hlive (by omega) n hn

end

/-- What hangs below two nodes is the same: tags, lexemes and places, and children in the same order. -/
inductive SameBelow (t t' : Tree) : NodeId → NodeId → Prop
  | node {n n' : NodeId} (tag : t.tag n = t'.tag n') (lexeme : t.lexeme n = t'.lexeme n')
      (children : List.Forall₂ (SameBelow t t') (t.children n) (t'.children n')) : SameBelow t t' n n'

def outlines (t : Tree) (depth level : Nat) (ns : List NodeId) : List Facts :=
  (ns.flatMap (t.outlineWithin depth level)).map t.facts

theorem outlines_cons {depth level : Nat} {n : NodeId} {ns : List NodeId} (hn : t.tag n ≠ .released) :
    t.outlines (depth + 1) level (n :: ns) = (level, t.tag n, t.lexeme n) ::
      (t.outlines depth (level + 1) (t.children n) ++ t.outlines (depth + 1) level ns) := by
  simp [outlines, outlineWithin, hn, facts]

def Ends (level : Nat) (rest : List Facts) : Prop := ∀ f ∈ rest.head?, f.1 < level

theorem Ends.outlines {depth level : Nat} {ns : List NodeId} {rest : List Facts} (hns : ∀ n ∈ ns, t.Within depth n)
    (h : Ends level rest) : Ends (level + 1) (t.outlines depth level ns ++ rest) := by
  cases ns with
  | nil => exact fun f hf => Nat.lt_succ_of_lt (h f hf)
  | cons n ns =>
    obtain ⟨hn, -⟩ := List.forall_mem_cons.mp hns
    cases depth with
    | zero => exact hn.elim
    | succ depth =>
      rw [outlines_cons hn.1]
      rintro f ⟨⟩
      exact Nat.lt_succ_self level

theorem Ends.ne_outlines {depth level : Nat} {n : NodeId} {ns : List NodeId} {rest rest' : List Facts} (hn : t.Within depth n)
    (h : Ends level rest) : rest ≠ t.outlines depth level (n :: ns) ++ rest' := by
  rintro rfl
  cases depth with
  | zero => exact hn
  | succ depth =>
    rw [outlines_cons hn.1] at h
    exact Nat.lt_irrefl _ (h _ rfl)

theorem sameBelow_of_outlines {t t' : Tree} {depth depth' level : Nat} {ns ns' : List NodeId} {rest rest' : List Facts}
    (hns : ∀ n ∈ ns, t.Within depth n) (hns' : ∀ n ∈ ns', t'.Within depth' n) (hrest : Ends level rest)
    (hrest' : Ends level rest')
    (h : t.outlines depth level ns ++ rest = t'.outlines depth' level ns' ++ rest') :
    List.Forall₂ (SameBelow t t') ns ns' ∧ rest = rest' := by
  induction depth generalizing depth' level ns ns' rest rest' with
  | zero =>
    cases ns with
    | cons n ns => exact (List.forall_mem_cons.mp hns).1.elim
    | nil =>
      cases ns' with
      | nil => exact ⟨.nil, h⟩
      | cons n' ns' => exact absurd h (hrest.ne_outlines (List.forall_mem_cons.mp hns').1)
  | succ depth ih =>
    induction ns generalizing ns' with
    | nil =>
      cases ns' with
      | nil => exact ⟨.nil, h⟩
      | cons n' ns' => exact absurd h (hrest.ne_outlines (List.forall_mem_cons.mp hns').1)
    | cons n ns ihns =>
      obtain ⟨hn, hns⟩ := List.forall_mem_cons.mp hns
      cases ns' with
      | nil => exact absurd h.symm (hrest'.ne_outlines hn)
      | cons n' ns' =>
        obtain ⟨hn', hns'⟩ := List.forall_mem_cons.mp hns'
        cases depth' with
        | zero => exact hn'.elim
        | succ depth' =>
          rw [outlines_cons hn.1, outlines_cons hn'.1, List.cons_append, List.cons_append, List.append_assoc,
            List.append_assoc] at h
          obtain ⟨hhead, htail⟩ := List.cons.inj h
          obtain ⟨hchildren, htail⟩ := ih hn.2 hn'.2 (hrest.outlines hns) (hrest'.outlines hns') htail
          obtain ⟨hlater, hends⟩ := ihns hns hns' htail
          exact ⟨.cons ⟨congrArg (·.2.1) hhead, congrArg (·.2.2) hhead, hchildren⟩ hlater, hends⟩

theorem tag_child_ne_released (h : empty.parse s.tokens = (.ok root, t)) (n c : NodeId) (hc : c ∈ t.children n) :
    t.tag c ≠ .released := by
  have hshape := wellShaped_of_parse h (List.Subset.refl _)
  have hparent := (hshape.mem_children c n).mp hc
  intro htag
  by_cases hindex : c.index < t.size
  · rw [(hshape.released_free c hindex htag).2.1] at hparent
    cases hparent
  · rw [parent, node_eq_absent (Nat.le_of_not_lt hindex)] at hparent
    cases hparent

theorem outline_of_parse (h : empty.parse s.tokens = (.ok root, t)) :
    root = .root ∧ t.outline.map t.facts = t.outlines t.size 0 [root] ∧ t.Within t.size root := by
  have hlive := tag_child_ne_released h
  obtain ⟨rfl, hshows, hsize⟩ := parse_shows h
  refine ⟨rfl, by simp [outline, outlines], ?_⟩
  refine hshows.within hlive (hsize ▸ Sapling.depth_le_size _) .root rfl ?_
  rw [tag, show t.node .root = _ from hshows.1]
  simp

/-- The dump of a tree determines the tree. If the trees of two texts have the same dump, they have the same shape, with the
    same tags, lexemes and places, whatever characters the constants of the texts are made of. -/
theorem sameBelow_of_dump_eq (hs : TokenStream.ofText name text = .ok s) (h : empty.parse s.tokens = (.ok root, t))
    (hs' : TokenStream.ofText name' text' = .ok s') (h' : empty.parse s'.tokens = (.ok root', t'))
    (hdump : t.dump = t'.dump) : t.SameBelow t' root root' := by
  obtain ⟨rfl, houtline, hwithin⟩ := outline_of_parse h
  obtain ⟨rfl, houtline', hwithin'⟩ := outline_of_parse h'
  have hfacts : t.outline.map t.facts = t'.outline.map t'.facts := by
    refine flatMap_lines_inj Facts.line_inj (fun f hf => ?_) (fun f hf => ?_) (by rw [← toList_dump, hdump, toList_dump])
    · obtain ⟨p, -, rfl⟩ := List.mem_map.mp hf
      exact Facts.newline_not_mem_line (newline_not_mem_text hs h p.2)
    · obtain ⟨p, -, rfl⟩ := List.mem_map.mp hf
      exact Facts.newline_not_mem_line (newline_not_mem_text hs' h' p.2)
  rw [houtline, houtline'] at hfacts
  have hends : Ends 0 [] := nofun
  obtain ⟨hsame, -⟩ := sameBelow_of_outlines (List.forall_mem_singleton.mpr hwithin) (List.forall_mem_singleton.mpr hwithin')
    hends hends (congrArg (· ++ []) hfacts)
  exact (List.forall₂_cons.mp hsame).1

/-- A constant that looks like the end of a line and the line behind it. The texts differ in a blank, and so do the trees, in
    the place of a node that is released; their dumps do not. -/
theorem sameBelow_of_dump_eq_quotes :
    ∃ s s' root root' t t',
      TokenStream.ofText "t" "string s = \"\\\" (0.1.0)|  IDENT \\\"\"; int f();" = .ok s ∧
      empty.parse s.tokens = (.ok root, t) ∧
      TokenStream.ofText "t" "string s = \"\\\" (0.1.0)|  IDENT \\\"\"; int f() ;" = .ok s' ∧
      empty.parse s'.tokens = (.ok root', t') ∧ t.dump = t'.dump ∧ t ≠ t' ∧ t.SameBelow t' root root' := by
  have hrun : passes "string s = \"\\\" (0.1.0)|  IDENT \\\"\"; int f();" (fun _ t =>
      passes "string s = \"\\\" (0.1.0)|  IDENT \\\"\"; int f() ;" fun _ t' => t.dump = t'.dump ∧ t ≠ t') = true := by
    decide +kernel
  obtain ⟨s, root, t, hs, h, hrun⟩ := exists_of_passes hrun
  obtain ⟨s', root', t', hs', h', hrun⟩ := exists_of_passes hrun
  obtain ⟨hdump, hne⟩ := of_decide_eq_true hrun
  exact ⟨s, s', root, root', t, t', hs, h, hs', h', hdump, hne, sameBelow_of_dump_eq hs h hs' h' hdump⟩

end Tree

end OcCompiler
