import Mathlib
import OcCompiler.Proofs.Building
import OcCompiler.Proofs.GrammarSound

/-! Reading comes to an end. Whatever is read passes at least one token, and the token that closes the list is never
    passed. So the items of a program lie one behind the other in its token list. -/

namespace OcCompiler

namespace Cursor

variable {c r s : Cursor} {m n : Nat}

/-- Reading got from `c` to `r` by passing `n` of the tokens ahead, but not all of them. -/
structure Reaches (c : Cursor) (n : Nat) (r : Cursor) : Prop where
  ahead : r.ahead = c.ahead.drop n
  again : r.again = c.again
  lt : n < c.ahead.length

theorem Reaches.trans (h : c.Reaches m r) (h' : r.Reaches n s) : c.Reaches (m + n) s := by
  have hlt := h'.lt
  rw [h.ahead, List.length_drop] at hlt
  exact ⟨by rw [h'.ahead, h.ahead, List.drop_drop], h'.again.trans h.again, by omega⟩

theorem Spans.reaches {ts : List Token} (h : c.Spans ts r) : c.Reaches ts.length r := by
  obtain ⟨t, ht, -⟩ := h.closed
  have hpos := List.length_pos_of_mem ht
  exact ⟨by rw [h.ahead, List.drop_left], h.again, by rw [h.ahead, List.length_append]; omega⟩

theorem Reaches.pos (h : c.Reaches n r) (near : r.size < c.size) : 0 < n := by
  rw [size, size, h.ahead, h.again, List.length_drop] at near
  omega

end Cursor

variable {α : Type} {P : Cursor → Prop} {c : Cursor}

/-- Reading from `c` passes at least `least` tokens. Where it fails, it stops at `c` or behind. -/
def Advances (c : Cursor) (least : Nat) : Except Failure (α × { r : Cursor // P r }) → Prop
  | .ok (_, r) => ∃ n, least ≤ n ∧ c.Reaches n r.1
  | .error f => ∃ n, c.Reaches n f.stop

section

variable {rule : Grammar.Kinds → Prop} {keeps : List Token → α → Prop}

theorem Follows.advances_zero {p : Except Failure (α × { r : Cursor // P r })} (h : Follows c rule keeps p) :
    Advances c 0 p := by
  match p, h with
  | .ok _, ⟨ts, hts, _⟩ => exact ⟨ts.length, Nat.zero_le _, hts.reaches⟩
  | .error _, ⟨ts, hts, _⟩ => exact ⟨ts.length, hts.reaches⟩

theorem Follows.advances {p : Parsed α c} (h : Follows c rule keeps p) : Advances c 1 p := by
  match p, h.advances_zero with
  | .ok (_, r), ⟨n, _, hn⟩ => exact ⟨n, hn.pos r.2, hn⟩
  | .error _, hn => exact hn

end

namespace Build

/-- Building from `c` passes at least `least` tokens. Where it fails, it blames the token at `c` or one behind. -/
def Advances (c : Cursor) (least : Nat) :
    EStateM.Result ParseError Tree (NodeId × { r : Cursor // P r }) → Prop
  | .ok (_, r) _ => ∃ n, least ≤ n ∧ c.Reaches n r.1
  | .error e _ => ∃ n stop expected, c.Reaches n stop ∧ e = .unexpected expected stop.current

theorem advances {least : Nat} {good : α → NodeId → Tree → Prop} {p : Except Failure (α × { r : Cursor // P r })}
    {b : EStateM.Result ParseError Tree (NodeId × { r : Cursor // P r })} (h : OcCompiler.Advances c least p)
    (hb : Alongside good p b) : Advances c least b := by
  cases hb with
  | ok _ => exact h
  | error =>
    obtain ⟨n, hn⟩ := h
    exact ⟨n, _, _, hn, rfl⟩

end Build

open Parse

/-- All that can be built at `c` is built by passing tokens, whatever the tree. Only behind an operand there may be nothing
    to pass. What goes on with a node needs one of the kind that it goes on with. -/
structure Cursor.Progress (c : Cursor) : Prop where
  item : ∀ t, Build.Advances c 1 (Build.item c t)
  stmt : ∀ t, Build.Advances c 1 (Build.stmt c t)
  expr : ∀ level t, Build.Advances c 1 (Build.expr level c t)
  decl : ∀ nameTag t, nameTag ≠ .released → Build.Advances c 1 (Build.decl nameTag c t)
  operand : ∀ t, Build.Advances c 1 (Build.operand c t)
  climb : ∀ (level : Nat) (left : Expr) (n : NodeId) (t u : Tree), t.Grows left.sapling n u → Build.Advances c 0 (Build.climb level n c u)
  args : ∀ x before after n (t u : Tree), t.Grows (.node .call x before after) n u → Build.Advances c 1 (Build.moreArgs n c u)
  stmts : ∀ x after n (t u : Tree), t.Grows (.node .block x [] after) n u → Build.Advances c 1 (Build.stmts n c u)
  fields : ∀ x after n (t u : Tree), t.Grows (.node .struct x [] after) n u → Build.Advances c 1 (Build.fields n c u)
  params : ∀ x after n (t u : Tree), t.Grows (.node .paramList x [] after) n u → Build.Advances c 1 (Build.moreParams n c u)

theorem Cursor.Closed.makesProgress (hc : c.Closed) : c.Progress where
  item t := Build.advances (follows_item hc).advances (Build.along_item c t)
  stmt t := Build.advances (follows_stmt hc).advances (Build.along_stmt c t)
  expr level t := Build.advances (follows_expr hc).advances (Build.along_expr level c t)
  decl nameTag t hname := Build.advances (follows_decl hc).advances (Build.along_decl nameTag hname c t)
  operand t := Build.advances (follows_operand hc).advances (Build.along_operand c t)
  climb level left _ _ _ h := Build.advances (follows_climb level left hc).advances_zero (Build.along_climb level c h)
  args _ _ _ _ _ _ h := Build.advances (follows_moreArgs hc).advances (Build.along_moreArgs c h)
  stmts _ _ _ _ _ h := Build.advances (follows_stmts hc).advances (Build.along_stmts c h)
  fields _ _ _ _ _ h := Build.advances (follows_fields hc).advances (Build.along_fields c h)
  params _ _ _ _ _ h := Build.advances (follows_moreParams hc).advances (Build.along_moreParams c h)

namespace Program

/-- From `c` on, the items of a program lie one behind the other, each of them with a token at least, up to the end of
    the file or to the position from which the failure was found. -/
def Progress (c : Cursor) (p : Program) : Prop :=
  ∃ (lengths : List Nat) (r : Cursor), lengths.length = p.items.length ∧ (∀ n ∈ lengths, 0 < n) ∧
    c.Reaches lengths.sum r ∧ (p.failure = none → r.kind = .endOfFile) ∧
    ∀ f, p.failure = some f → ∃ n, r.Reaches n f.stop

theorem progress_read (hc : c.Closed) : Progress c (read c) := by
  fun_induction Program.read c with
  | case1 c hend => exact ⟨[], c, rfl, by simp, hc.spans.reaches, fun _ => hend, by simp⟩
  | case2 c hend f hitem =>
    have hadvances := hitem ▸ (follows_item hc).advances
    refine ⟨[], c, rfl, by simp, hc.spans.reaches, by simp, ?_⟩
    rintro _ ⟨⟩
    exact hadvances
  | case3 c hend i r near hitem rest ih =>
    obtain ⟨ts, hts, -⟩ := hitem ▸ follows_item hc
    obtain ⟨lengths, s, hlength, hpos, hreach, hends⟩ := ih hts.closed
    refine ⟨ts.length :: lengths, s, congrArg (· + 1) hlength, ?_, hts.reaches.trans hreach, hends⟩
    rintro n (_ | ⟨_, hn⟩)
    · exact hts.reaches.pos near
    · exact hpos n hn

end Program

/-- In a token list that closes with the end of the file, building makes progress wherever it starts, and so does the
    reading of the whole program, which the tree gets node by node. -/
theorem Parse.progress {tokens : List Token} (hend : tokens.getLast?.map Token.kind = some .endOfFile) :
    (∀ c : Cursor, c.ahead <:+ tokens → c.ahead ≠ [] → c.Progress) ∧
      Program.Progress (.ofTokens tokens) (.ofTokens tokens) ∧
      ∃ t, Tree.empty.parse tokens =
          ((Program.ofTokens tokens).failure.elim (.ok .root) fun f => .error (.unexpected f.expected f.stop.current), t) ∧
        ((Program.ofTokens tokens).failure = none →
          (t.children .root).length = (Program.ofTokens tokens).items.length) := by
  obtain ⟨last, hlast, hkind⟩ := Option.map_eq_some_iff.mp hend
  refine ⟨?_, Program.progress_read ⟨last, List.mem_of_getLast? hlast, hkind⟩, ?_⟩
  · rintro c ⟨before, rfl⟩ hne
    rw [List.getLast?_append, List.getLast?_eq_some_getLast hne, Option.some_or] at hlast
    exact Cursor.Closed.makesProgress ⟨last, Option.some.inj hlast ▸ List.getLast_mem hne, hkind⟩
  · obtain ⟨t, ht, hgrows⟩ := Tree.parse_eq tokens
    refine ⟨t, ht, fun hnone => ?_⟩
    rw [Tree.children, (Tree.shows_root.mp (hgrows hnone).bears.shows.1).1]
    exact Sapling.length_tops_of_live Item.live_sapling 1 _

/-- Two items, the second of which is a loop. -/
theorem Parse.progress_loop :
    ∃ s, TokenStream.ofText "t" "int n = 3; while (n > 0) n = n - 1;" = .ok s ∧
      s.tokens.getLast?.map Token.kind = some .endOfFile ∧ (Program.ofTokens s.tokens).items.length = 2 ∧
      (∀ c : Cursor, c.ahead <:+ s.tokens → c.ahead ≠ [] → c.Progress) ∧
      Program.Progress (.ofTokens s.tokens) (.ofTokens s.tokens) ∧
      ∃ t, Tree.empty.parse s.tokens = (.ok .root, t) ∧ (t.children .root).length = 2 := by
  have hread : Tree.passes "int n = 3; while (n > 0) n = n - 1;" (fun s _ =>
      s.tokens.getLast?.map Token.kind = some .endOfFile ∧ (Program.ofTokens s.tokens).items.length = 2) = true := by
    decide +kernel
  obtain ⟨s, root, t, hs, hparse, hcheck⟩ := Tree.exists_of_passes hread
  obtain ⟨hend, hitems⟩ := of_decide_eq_true hcheck
  obtain ⟨hall, hprogram, t', ht', hlength⟩ := Parse.progress hend
  have hnone := Tree.parse_ok_iff.mp ⟨root, t, hparse⟩
  rw [hnone] at ht'
  exact ⟨s, hs, hend, hitems, hall, hprogram, t', ht', hitems ▸ hlength hnone⟩

end OcCompiler
