import Mathlib.Data.List.Basic
import OcCompiler.Proofs.Building
import OcCompiler.Proofs.GrammarComplete
import OcCompiler.Proofs.Lockstep

/-! A syntax error names the first token that is wrong. The tokens before it begin a program, so that no earlier token
    could be blamed; with it they begin none, so that nothing behind it could help. -/

namespace OcCompiler

theorem Program.no_grammar_of_failure {ts us : List Token} {t : Token} {f : Failure}
    (hend : (ts ++ t :: us).getLast?.map Token.kind = some .endOfFile)
    (h : (ofTokens (ts ++ t :: us)).failure = some f) (hstop : f.stop.ahead = t :: us) {ks : Grammar.Kinds}
    (hks : Grammar.Program ks) : ¬(ts ++ [t]).map Token.kind <+: ks ++ [.endOfFile] := by
  rintro ⟨kr, hkr⟩
  -- The same list, followed by the rest of the program instead.
  let c := Cursor.ofTokens (ts ++ t :: us)
  let d : Cursor := ⟨ts ++ t :: kr.map (Token.mk · t.lexeme), t, 0⟩
  let w : Window :=
    { left := c.ahead, right := d.ahead, last := ts.length
      closed := by
        obtain ⟨last, hlast, hkind⟩ := Option.map_eq_some_iff.mp hend
        refine ⟨last, ?_, hkind⟩
        rw [List.getLast?_append_cons] at hlast
        simpa [c, Cursor.ofTokens] using List.mem_of_getLast? hlast
      alike := by simp [c, d, Cursor.ofTokens, List.take_length_add_append] }
  have hbehind : w.behind < f.stop.ahead.length := by
    simp only [w, Window.behind, hstop, c, Cursor.ofTokens, List.length_append, List.length_cons]
    omega
  have hbeside : w.Beside c d := ⟨0, Nat.zero_le _, rfl, rfl⟩
  obtain ⟨f', hf'⟩ := failure_of_beside hbeside h hbehind
  have hread : (read d).failure = none := by
    refine failure_read_of_grammar hks [] ?_
    rw [← hkr]
    simp [Cursor.kinds, d, Function.comp_def]
  exact absurd (hf'.symm.trans hread) (Option.some_ne_none f')

theorem ParseError.message_eq_iff {expected : Expectation} {found : Token} :
    (ParseError.unexpected expected found).message = "syntax error: unexpected end of file, expected " ++ expected.text ↔
      found.kind = .endOfFile := by
  by_cases hend : found.kind = .endOfFile
  · exact iff_of_true (if_pos hend) hend
  · refine iff_of_false (fun h => ?_) hend
    have hchars := congrArg (·.toList[14]?) ((if_neg hend).symm.trans h)
    simp at hchars

namespace Tree

/-- Reading that fails blames a token of the list: what comes before it can be completed to a program, and no program
    followed by the end of the file starts with it and what comes before. The message tells whether that token is the
    end of the file. -/
theorem parse_error_at_first_impossible {tokens : List Token} {e : ParseError} {t : Tree}
    (hend : tokens.getLast?.map Token.kind = some .endOfFile) (h : empty.parse tokens = (.error e, t)) :
    ∃ k expected found, tokens[k]? = some found ∧ e = .unexpected expected found ∧
      Grammar.Begins Grammar.Program ((tokens.take k).map Token.kind) ∧
      (∀ ks, Grammar.Program ks → ¬(tokens.take (k + 1)).map Token.kind <+: ks ++ [.endOfFile]) ∧
      (e.message = "syntax error: unexpected end of file, expected " ++ expected.text ↔ found.kind = .endOfFile) := by
  obtain ⟨f, hf, rfl⟩ := failure_of_parse h
  have hclosed : (Cursor.ofTokens tokens).Closed := by
    obtain ⟨last, hlast, hkind⟩ := Option.map_eq_some_iff.mp hend
    exact ⟨last, List.mem_of_getLast? hlast, hkind⟩
  obtain ⟨ts, ⟨htokens, -, hstop⟩, hbegins⟩ := Program.halts_read hclosed hf
  obtain ⟨u, us, hahead⟩ := List.exists_cons_of_ne_nil (List.ne_nil_of_mem hstop.choose_spec.1)
  have hcurrent : f.stop.current = u := by rw [Cursor.current, hahead]
  replace htokens : tokens = ts ++ u :: us := hahead ▸ htokens
  subst htokens
  refine ⟨ts.length, f.expected, f.stop.current, by simp [hcurrent], rfl, by simpa using hbegins, fun ks hks => ?_,
    ParseError.message_eq_iff⟩
  have htake : (ts ++ u :: us).take (ts.length + 1) = ts ++ [u] := by simp [List.take_length_add_append]
  rw [htake]
  exact Program.no_grammar_of_failure hend hf hahead hks

/-- Two names begin a declaration, and a declaration needs a value. -/
theorem parse_error_at_first_impossible_semicolon :
    let token (kind : TokenKind) : Token := ⟨kind, "", 0, 1, 0⟩
    let tokens := [TokenKind.name, .name, .punct ';', .endOfFile].map token
    (empty.parse tokens).1 = .error (.unexpected (.token (.punct '=')) (token (.punct ';'))) ∧
      Grammar.Begins Grammar.Program [.name, .name] ∧
      ∀ ks, Grammar.Program ks → ¬[.name, .name, .punct ';'] <+: ks ++ [.endOfFile] := by
  intro token tokens
  have hparse : (empty.parse tokens).1 = .error (.unexpected (.token (.punct '=')) (token (.punct ';'))) := by
    decide +kernel
  obtain ⟨k, expected, found, hfound, he, hbegins, hnone, -⟩ :=
    parse_error_at_first_impossible (rfl : tokens.getLast?.map Token.kind = _) (Prod.ext hparse rfl)
  cases he
  have hk : k = 2 := by
    match k with
    | 0 | 1 => exact absurd hfound (by decide)
    | 2 => rfl
    | 3 => exact absurd hfound (by decide)
    | k + 4 => cases hfound
  subst hk
  exact ⟨hparse, hbegins, hnone⟩

end Tree

end OcCompiler
