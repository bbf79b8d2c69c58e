import Mathlib.Data.List.Count
import OcCompiler.Proofs.NameWalk

/-! The analysis resolves names by static scoping: every name in use has the symbol of the declaration that it stands
    for, and is complained about as undeclared exactly if it stands for none. -/

namespace OcCompiler

open Analysis NameStep

variable {old : List Diagnostic} {block next : Nat} {outer : List Nat} {steps : List NameStep} {a : Analysis}

section Item

variable {k : Nat} (h : Tracks old none globalBlock [] next steps a)

include h

theorem Item.tracks_struct {mark tag : Lexeme} {fields : List Decl} (hout : Outside k (k + (2 + Decl.sizes fields)) steps) :
    Tracks old none globalBlock [] next steps ((Item.struct mark tag fields).analyze k a) := by
  rw [analyze]
  generalize hm : k + (2 + Decl.sizes fields) = m at hout
  have hwithin : ∀ d ∈ Decl.declarations (k + 2) fields, d.Within k m := Decl.declarations_within fields
  have hplace : Neutral k m a (a.place ⟨k⟩ .struct) :=
    (a.aside_place _ (Nat.le_refl k) (by dsimp only; omega)).toNeutral
  have hk : k + 1 < m := by omega
  have hdefine := hplace.trans (neutral_defineStructAs _ ⟨k⟩ tag (Nat.le_succ k) hk hwithin)
  have htag := hdefine.trans (aside_place _ .typeName (Nat.le_succ k) hk).toNeutral
  exact h.neutral (htag.trans (Decl.aside_placeAll _ fields .field (k := k + 2) (by omega) (by omega)).toNeutral) hout

theorem Item.tracks (i : Item) (hout : Outside k (k + i.size) steps) :
    Tracks old none globalBlock [] (next + i.blocks) (steps ++ i.nameSteps next k) (i.analyze k a) := by
  cases hi : i.isStruct with
  | true =>
    obtain ⟨mark, tag, fields, rfl⟩ : ∃ mark tag fields, i = .struct mark tag fields := by
      cases i <;> first | exact ⟨_, _, _, rfl⟩ | cases hi
    rw [size_struct] at hout
    rw [nameSteps, List.append_nil, blocks]
    exact tracks_struct h hout
  | false =>
    have hstart : Reaches ⟨none, globalBlock, [], next, steps, a⟩ none globalBlock [] next steps a := .refl
    exact (i.reaches hstart hi hout).tracks h

end Item

theorem Item.tracksAll {k : Nat} (is : List Item) (h : Tracks old none globalBlock [] next steps a)
    (hout : Outside k (k + sizes is) steps) :
    ∃ next', Tracks old none globalBlock [] next' (steps ++ nameStepsAll next k is) (analyzeAll k is a) := by
  induction is generalizing k next steps a with
  | nil =>
    rw [analyzeAll, nameStepsAll, List.append_nil]
    exact ⟨next, h⟩
  | cons i is ih =>
    rw [sizes, ← Nat.add_assoc] at hout
    rw [analyzeAll, nameStepsAll, ← List.append_assoc]
    have hi := i.tracks (k := k) h (hout.mono (Nat.le_refl _) (Nat.le_add_right _ _))
    exact ih hi ((hout.mono (Nat.le_add_right _ _) (Nat.le_refl _)).append_before
      (i.nameSteps_within _ _) (Nat.le_refl _))

namespace NameStep

variable {before : List NameDecl}

theorem unbound_sublist : (unbound before steps).Sublist ((references steps).map (·.1)) := by
  induction steps generalizing before with
  | nil => exact List.Sublist.refl _
  | cons s steps ih =>
    cases s with
    | declare d => exact ih
    | refer blocks x n =>
      rw [unbound]
      split
      · exact ih.cons_cons x
      · exact ih.cons x

theorem count_unbound {blocks : List Nat} {x : Lexeme} {n : NodeId} {earlier later : List NameStep}
    (hnodup : ((references (earlier ++ .refer blocks x n :: later)).map (·.1)).Nodup) :
    (unbound [] (earlier ++ .refer blocks x n :: later)).count x =
      if (NameDecl.binding (declared earlier) blocks x.text).isNone then 1 else 0 := by
  rw [references_append, List.map_append] at hnodup
  obtain ⟨-, hlater, hdisjoint⟩ := List.nodup_append.mp hnodup
  have hearlier : x ∉ unbound [] earlier := fun hx =>
    hdisjoint x (unbound_sublist.subset hx) x List.mem_cons_self rfl
  have hlater : x ∉ unbound (declared earlier) later := fun hx =>
    (List.nodup_cons.mp hlater).1 (unbound_sublist.subset hx)
  rw [Tracks.unbound_append, List.count_append, List.count_eq_zero.mpr hearlier, Nat.zero_add, List.nil_append, unbound]
  split
  · rw [List.count_cons_self, List.count_eq_zero.mpr hlater]
  · exact List.count_eq_zero.mpr hlater

end NameStep

namespace Program

variable {added : List Diagnostic} {items : List Item} {log : Log}

theorem tracks_start (log : Log) :
    Tracks (Log.undeclared log) none globalBlock [] (globalBlock + 1) [] (Analysis.place .root .root { log }) := by
  have hstart : Tracks (Log.undeclared log) none globalBlock [] (globalBlock + 1) [] { log } := by
    constructor
    · exact SymbolTable.sound_empty
    · rfl
    · rfl
    · exact List.forall_mem_nil _
    · intro c hc x
      rw [List.mem_singleton.mp hc]
      exact .none
    · intro before blocks x n after h
      cases before <;> cases h
    · exact List.forall_mem_nil _
    · rw [unbound, List.map_nil, List.append_nil]
  exact hstart.neutral (aside_place _ _ (Nat.zero_le _) (Nat.lt_succ_self _)).toNeutral (List.forall_mem_nil _)

theorem tracks (items : List Item) (log : Log) :
    ∃ next, Tracks (Log.undeclared log) none globalBlock [] next (nameSteps items) (analyze items log) :=
  Item.tracksAll items (tracks_start log) (List.forall_mem_nil _)

theorem undeclared_of_analyze (h : (analyze items log).log.toList = log.toList ++ added) :
    added.filter Diagnostic.isUndeclared = (unbound [] (nameSteps items)).map SemanticCause.undeclared.about := by
  obtain ⟨next, htracks⟩ := tracks items log
  have hundeclared := htracks.undeclared
  rw [Log.undeclared, h, List.filter_append] at hundeclared
  exact List.append_cancel_left hundeclared

/-- If there is nothing to complain about, each name in use has the symbol of a declaration before it. -/
theorem resolved_of_quiet (h : (analyze items log).log = log) {before after : List NameStep} {blocks : List Nat}
    {x : Lexeme} {n : NodeId} (hsteps : nameSteps items = before ++ .refer blocks x n :: after) :
    ∃ d id, NameDecl.binding (declared before) blocks x.text = some d ∧
      (analyze items log).decoration n = ⟨d.attrsAfter (declared before), d.block, some id⟩ ∧
      (analyze items log).IsSymbolOf d id := by
  obtain ⟨next, htracks⟩ := tracks items log
  have hresolved := htracks.resolved _ _ _ _ _ hsteps
  have hnone := @undeclared_of_analyze [] items log (by rw [h, List.append_nil])
  rw [List.filter_nil, hsteps, eq_comm, List.map_eq_nil_iff, Tracks.unbound_append, List.append_eq_nil_iff, List.nil_append,
    unbound] at hnone
  unfold Analysis.Resolves at hresolved
  cases hbinding : NameDecl.binding (declared before) blocks x.text with
  | none =>
    rw [hbinding] at hnone
    cases hnone.2
  | some d =>
    rw [hbinding] at hresolved
    obtain ⟨id, hdecor, hid⟩ := hresolved
    exact ⟨d, id, rfl, hdecor, hid⟩

theorem about_injective (c : SemanticCause) : Function.Injective c.about := by
  rintro ⟨text, loc⟩ ⟨text', loc'⟩ h
  cases h
  rfl

theorem count_undeclared (h : (analyze items log).log.toList = log.toList ++ added) (x : Lexeme) :
    added.count (SemanticCause.undeclared.about x) = (unbound [] (nameSteps items)).count x := by
  have hx : (SemanticCause.undeclared.about x).isUndeclared = true := rfl
  rw [← List.count_filter hx, undeclared_of_analyze h, List.count_map_of_injective _ _ (about_injective _)]

/-- Names are resolved by static scoping. Each name in use is a reference of the program, from inside some blocks and
    after some declarations; its node has the symbol, the block and the attributes of the declaration that these make it
    stand for. If it stands for none, it has no symbol and there is exactly one complaint about it. -/
theorem names_resolved {name text : String} {s : TokenStream} {root : NodeId} {t : Tree}
    (hs : TokenStream.ofText name text = .ok s) (h : Tree.empty.parse s.tokens = (.ok root, t)) (log : Log) :
    ∃ a added, Analysis.ofTree t log = .ok a ∧ a.log.toList = log.toList ++ added ∧
      ∀ n : NodeId, n.index < t.size → t.tag n = .name → ∃ earlier blocks later,
        nameSteps (ofTokens s.tokens).items = earlier ++ .refer blocks (t.lexeme n) n :: later ∧
        a.Resolves (declared earlier) blocks (t.lexeme n) n ∧
        added.count (SemanticCause.undeclared.about (t.lexeme n)) =
          if (NameDecl.binding (declared earlier) blocks (t.lexeme n).text).isNone then 1 else 0 := by
  obtain ⟨added, hadded⟩ := prefix_log_analyze (ofTokens s.tokens).items log
  obtain ⟨next, htracks⟩ := tracks (ofTokens s.tokens).items log
  obtain ⟨-, hshows, hsize⟩ := Tree.parse_shows h
  refine ⟨_, added, Analysis.ofTree_shows hshows hsize log, hadded.symm, fun n hn htag => ?_⟩
  obtain ⟨blocks, hmem⟩ := exists_refer hshows hsize hn htag
  obtain ⟨earlier, later, hsteps⟩ := List.append_of_mem hmem
  refine ⟨earlier, blocks, later, hsteps, htracks.resolved _ _ _ _ _ hsteps, ?_⟩
  have hnodup := nodup_references hs h
  rw [count_undeclared hadded.symm, hsteps]
  exact count_unbound (hsteps ▸ hnodup)

/-- A prototype and its definition, a name that is never declared, a variable whose first value uses its own name, an
    inner block that declares this name again, and a declaration without braces in the branch of a condition. -/
theorem names_resolved_shadowing :
    ∃ s root t, TokenStream.ofText "t" ("int f(int x);\nint f(int x) \x7b return g + x; \x7d\nint x = x;\n" ++
        "\x7b int x = f(x); if (x == 1) int y = x; x = y; \x7d\n") = .ok s ∧
      Tree.empty.parse s.tokens = (.ok root, t) ∧
      (references (nameSteps (ofTokens s.tokens).items)).map (·.1.text) = ["g", "x", "x", "f", "x", "x", "x", "x", "y"] ∧
      (unbound [] (nameSteps (ofTokens s.tokens).items)).map (·.text) = ["g", "x"] ∧
      ∃ a added, Analysis.ofTree t #[] = .ok a ∧ a.log.toList = added ∧
        ∀ n : NodeId, n.index < t.size → t.tag n = .name → ∃ earlier blocks later,
          nameSteps (ofTokens s.tokens).items = earlier ++ .refer blocks (t.lexeme n) n :: later ∧
          a.Resolves (declared earlier) blocks (t.lexeme n) n ∧
          added.count (SemanticCause.undeclared.about (t.lexeme n)) =
            if (NameDecl.binding (declared earlier) blocks (t.lexeme n).text).isNone then 1 else 0 := by
  exact Tree.exists_parse_and_and (by decide +kernel) fun hs hparse => names_resolved hs hparse #[]

end Program

end OcCompiler
