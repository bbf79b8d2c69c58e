import OcCompiler.Proofs.Building
import OcCompiler.Proofs.Lockstep
import OcCompiler.Proofs.Relabelling

/-! Layout does not influence compilation: token lists that agree in kind and text at every position are read alike,
    analyzed alike and emitted alike, but for places. -/

namespace OcCompiler

open Oil

/-- Two trees that differ at most in places. -/
structure Tree.Alike (t t' : Tree) : Prop where
  size : t.size = t'.size
  tag : ∀ n, t.tag n = t'.tag n
  text : ∀ n, t.text n = t'.text n
  children : ∀ n, t.children n = t'.children n
  parent : ∀ n, t.parent n = t'.parent n

def Log.complaints (log : Log) : List (Cause × String) := log.toList.map fun d => (d.cause, d.name)

/-- Two analyses that differ at most in the places of symbols and diagnostics. -/
structure Analysis.Alike (a a' : Analysis) : Prop where
  decor : a.decor = a'.decor
  queues : a.queues = a'.queues
  symbols : a.symbols.unplaced = a'.symbols.unplaced
  complaints : a.log.complaints = a'.log.complaints

/-- Two modules that are one, but that each label has its place from its own tree. -/
def Oil.Module.Alike (t t' : Tree) (m m' : Module) : Prop :=
  ∃ common : Module, m = common.relabel t.loc ∧ m' = common.relabel t'.loc ∧
    ∀ body ∈ common.bodies, ∀ i ∈ body, i.Marks t

variable {ts ts' : List Token}

theorem Token.alike_of_same (hsame : ts.map (fun u => (u.kind, u.text)) = ts'.map fun u => (u.kind, u.text))
    (hclosed : ts.getLast?.map Token.kind = some .endOfFile) : Token.Alike ts ts' := by
  have hunplaced (us : List Token) : us.map Token.unplaced =
      (us.map fun u => (u.kind, u.text)).map fun p => ⟨p.1, ⟨p.2, {}⟩⟩ := by
    rw [List.map_map]
    rfl
  exact ⟨by rw [hunplaced, hsame, ← hunplaced], hclosed⟩

theorem Tree.alike_of_unplaced {t t' : Tree} (h : t.unplaced = t'.unplaced) : t.Alike t' where
  size := by rw [← t.size_unplaced, h, t'.size_unplaced]
  tag n := by rw [← t.tag_unplaced, h, t'.tag_unplaced]
  text n := by
    have hlexeme : (t.lexeme n).unplaced = (t'.lexeme n).unplaced := by
      rw [← t.lexeme_unplaced, h, t'.lexeme_unplaced]
    exact Lexeme.text_eq_of_unplaced hlexeme
  children n := by rw [← t.children_unplaced, h, t'.children_unplaced]
  parent n := by rw [← t.parent_unplaced, h, t'.parent_unplaced]

theorem Log.unplaced_eq_iff {log log' : Log} : log.unplaced = log'.unplaced ↔ log.complaints = log'.complaints := by
  have hcomplaints (log : Log) : log.complaints = log.unplaced.complaints := by
    simp [complaints, unplaced, Diagnostic.unplaced, Function.comp_def]
  have hunplaced (log : Log) : log.unplaced = (log.complaints.map fun p => ⟨p.1, p.2, {}⟩).toArray := by
    apply Array.toList_inj.mp
    simp [complaints, unplaced, Diagnostic.unplaced, Function.comp_def]
  constructor
  · intro h
    rw [hcomplaints, h, ← hcomplaints]
  · intro h
    rw [hunplaced, h, ← hunplaced]

theorem Analysis.alike_of_unplaced {a a' : Analysis} (h : a.unplaced = a'.unplaced) : a.Alike a' where
  decor := show a.unplaced.decor = a'.unplaced.decor by rw [h]
  queues := show a.unplaced.queues = a'.unplaced.queues by rw [h]
  symbols := congrArg Analysis.symbols h
  complaints := Log.unplaced_eq_iff.mp (congrArg Analysis.log h)

theorem Program.unplaced_sapling (items : List Item) :
    (sapling items).unplaced = sapling (items.map Item.unplaced) := by
  simp [sapling, Sapling.unplaced, Sapling.unplacedAll_map, Item.unplaced_sapling, Sapling.unplacedAll, Lexeme.unplaced]

/-- The reading of a token list stops at a position, where it expects something else. -/
def Program.StopsAt (ts : List Token) (i : Nat) (expected : Expectation) : Prop :=
  ∃ f, (ofTokens ts).failure = some f ∧ f.expected = expected ∧ f.stop.ahead = ts.drop i ∧
    ∃ u t, ts[i]? = some u ∧ Tree.empty.parse ts = (.error (.unexpected expected u), t)

theorem Program.stopsAt_of_failure {f : Failure} {i : Nat} (hf : (ofTokens ts).failure = some f) (hi : i < ts.length)
    (hahead : f.stop.ahead = ts.drop i) : StopsAt ts i f.expected := by
  obtain ⟨t, ht, -⟩ := Tree.parse_eq ts
  refine ⟨f, hf, rfl, hahead, f.stop.current, t, Cursor.getElem?_current hi hahead, ?_⟩
  rw [ht, hf]
  rfl

/-- Both lists are read to their ends, into trees that agree up to places, or both readings stop at the same position for
    want of the same thing. -/
theorem Tree.parse_alike (hts : Token.Alike ts ts') :
    (∃ i expected, Program.StopsAt ts i expected ∧ Program.StopsAt ts' i expected) ∨
      ∃ t t', empty.parse ts = (.ok .root, t) ∧ empty.parse ts' = (.ok .root, t') ∧ t.unplaced = t'.unplaced := by
  have hagrees := hts.agrees_ofTokens
  rcases hagrees.failure with ⟨hnone, hnone'⟩ | ⟨f, f', hsome, hsome', hexpected, ⟨i, hi, hahead, hahead'⟩⟩
  · right
    obtain ⟨⟨n, t, ht⟩, ⟨n', t', ht'⟩⟩ := And.intro (parse_ok_iff.mpr hnone) (parse_ok_iff.mpr hnone')
    obtain ⟨rfl, hshows, hsize⟩ := parse_shows ht
    obtain ⟨rfl, hshows', hsize'⟩ := parse_shows ht'
    have hsame := Program.unplaced_sapling (Program.ofTokens ts).items
    rw [hagrees.items, ← Program.unplaced_sapling] at hsame
    refine ⟨t, t', ht, ht', eq_of_shows hshows.unplaced (hsame ▸ hshows'.unplaced) ?_ ?_⟩
    · rw [size_unplaced, hsize, Sapling.size_unplaced]
    · rw [size_unplaced, hsize', hsame, Sapling.size_unplaced]
  · left
    have hlt : i < ts.length := Nat.lt_of_le_of_lt hi hts.window.lt
    refine ⟨i, f.expected, Program.stopsAt_of_failure hsome hlt hahead, ?_⟩
    rw [hexpected]
    exact Program.stopsAt_of_failure hsome' (hts.length ▸ hlt) hahead'

theorem Program.unplaced_analyze_eq {items items' : List Item} {log log' : Log}
    (hitems : items.map Item.unplaced = items'.map Item.unplaced) (hlog : log.complaints = log'.complaints) :
    (analyze items log).unplaced = (analyze items' log').unplaced := by
  rw [unplaced_analyze, unplaced_analyze, hitems, Log.unplaced_eq_iff.mpr hlog]

theorem Oil.Module.ofAnalysis_alike {t t' : Tree} {a a' : Analysis} (ht : t.unplaced = t'.unplaced)
    (ha : a.unplaced = a'.unplaced) (start : Nat) :
    Aligned (fun p p' => p.1.Alike t t' p'.1 ∧ p.2 = p'.2) (ofAnalysis t a start) (ofAnalysis t' a' start) := by
  have h := ofAnalysis_aligned t a start
  have h' := ofAnalysis_aligned t' a' start
  rw [← t'.indexed_unplaced, ← ht, t.indexed_unplaced, ← ha] at h'
  generalize ofAnalysis t a start = m at h
  generalize ofAnalysis t' a' start = m' at h'
  generalize ofAnalysis t.indexed a.unplaced start = common at h h'
  cases h with
  | error =>
    cases h'
    exact .error
  | ok h =>
    cases h' with
    | ok h' => exact .ok ⟨⟨_, h.1, h'.1, h.2.2⟩, h.2.1.trans h'.2.1.symm⟩

/-- Token lists that agree in kind and text at every position lead to the same, wherever their tokens stand. -/
theorem Program.places_irrelevant (hsame : ts.map (fun u => (u.kind, u.text)) = ts'.map fun u => (u.kind, u.text))
    (hclosed : ts.getLast?.map Token.kind = some .endOfFile) :
    (∃ i expected, StopsAt ts i expected ∧ StopsAt ts' i expected) ∨
      ∃ t t', Tree.empty.parse ts = (.ok .root, t) ∧ Tree.empty.parse ts' = (.ok .root, t') ∧ t.Alike t' ∧
        ∀ log log' : Log, log.complaints = log'.complaints →
          ∃ a a', Analysis.ofTree t log = .ok a ∧ Analysis.ofTree t' log' = .ok a' ∧ a.Alike a' ∧
            ∀ start, Aligned (fun p p' => p.1.Alike t t' p'.1 ∧ p.2 = p'.2) (Module.ofAnalysis t a start)
              (Module.ofAnalysis t' a' start) := by
  have hts := Token.alike_of_same hsame hclosed
  rcases Tree.parse_alike hts with hstops | ⟨t, t', ht, ht', htree⟩
  · exact .inl hstops
  · refine .inr ⟨t, t', ht, ht', Tree.alike_of_unplaced htree, fun log log' hlog => ?_⟩
    have hanalysis := unplaced_analyze_eq hts.agrees_ofTokens.items hlog
    refine ⟨_, _, Analysis.ofTree_parse ht log, Analysis.ofTree_parse ht' log', Analysis.alike_of_unplaced hanalysis, ?_⟩
    exact fun start => Module.ofAnalysis_alike htree hanalysis start

/-- A loop with a conditional, once on one line and once on four: the labels differ and nothing else does. -/
theorem Program.places_irrelevant_lines :
    ∃ ts ts' : List Token, ts.map (fun u => (u.kind, u.text)) = ts'.map (fun u => (u.kind, u.text)) ∧
      ts.getLast?.map Token.kind = some .endOfFile ∧
      ∃ t t' a a' m m' next, Tree.empty.parse ts = (.ok .root, t) ∧ Tree.empty.parse ts' = (.ok .root, t') ∧ t.Alike t' ∧
        Analysis.ofTree t #[] = .ok a ∧ Analysis.ofTree t' #[] = .ok a' ∧ a.Alike a' ∧
        Module.ofAnalysis t a 1 = .ok (m, next) ∧ Module.ofAnalysis t' a' 1 = .ok (m', next) ∧ m.Alike t t' m' ∧
        (m.bodies.flatMap labels).map Label.text = ["while_0_1_11", "else_0_1_25", "fi_0_1_25", "break_0_1_11"] ∧
        (m'.bodies.flatMap labels).map Label.text = ["while_0_2_3", "else_0_3_2", "fi_0_3_2", "break_0_2_3"] := by
  have hrun : ((TokenStream.ofText "t" "int n = 3; while (n > 0) if (n == 1) n = 0; else n = n - 1;").toOption.bind fun s =>
      (TokenStream.ofText "t" "int n\n=3;while(n>0)\n  if(n==1)n=0;\nelse n=n-1;").toOption.map fun s' =>
        ((decide (s.tokens.map (fun u => (u.kind, u.text)) = s'.tokens.map fun u => (u.kind, u.text)),
          s.tokens.getLast?.map Token.kind, (Tree.empty.parse s.tokens).1.toOption),
        [s, s'].map fun u => (Module.ofAnalysis (Tree.empty.parse u.tokens).2
          (analyze (ofTokens u.tokens).items #[]) 1).toOption.map fun p => (p.1.bodies.flatMap labels).map Label.text)) =
      some ((true, some .endOfFile, some .root), [some ["while_0_1_11", "else_0_1_25", "fi_0_1_25", "break_0_1_11"],
        some ["while_0_2_3", "else_0_3_2", "fi_0_3_2", "break_0_2_3"]]) := by
    decide +kernel
  obtain ⟨s, -, hrun⟩ := Option.bind_eq_some_iff.mp hrun
  obtain ⟨s', -, hrun⟩ := Option.map_eq_some_iff.mp hrun
  simp only [List.map_cons, List.map_nil, Prod.mk.injEq, List.cons.injEq, decide_eq_true_eq, and_true] at hrun
  obtain ⟨⟨hsame, hclosed, hread⟩, htexts, htexts'⟩ := hrun
  refine ⟨s.tokens, s'.tokens, hsame, hclosed, ?_⟩
  rcases places_irrelevant hsame hclosed with ⟨i, expected, hstops, -⟩ | ⟨t, t', ht, ht', htree, hrest⟩
  · obtain ⟨f, -, -, -, u, t, -, hparse⟩ := hstops
    rw [hparse] at hread
    cases hread
  · obtain ⟨a, a', ha, ha', hanalysis, hoil⟩ := hrest #[] #[] rfl
    rw [ht, ← Except.ok.inj (ha.symm.trans (Analysis.ofTree_parse ht #[]))] at htexts
    rw [ht', ← Except.ok.inj (ha'.symm.trans (Analysis.ofTree_parse ht' #[]))] at htexts'
    obtain ⟨⟨m, next⟩, hm, htexts⟩ := Option.map_eq_some_iff.mp htexts
    obtain ⟨⟨m', next'⟩, hm', htexts'⟩ := Option.map_eq_some_iff.mp htexts'
    have hm := eq_ok_of_toOption hm
    have hm' := eq_ok_of_toOption hm'
    have hoil := hoil 1
    rw [hm, hm'] at hoil
    cases hoil with
    | ok h =>
      obtain ⟨hmodule, rfl⟩ := h
      exact ⟨t, t', a, a', m, m', next, ht, ht', htree, ha, ha', hanalysis, hm, hm', hmodule, htexts, htexts'⟩

end OcCompiler
