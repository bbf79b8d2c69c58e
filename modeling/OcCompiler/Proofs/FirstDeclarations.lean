import OcCompiler.Proofs.FieldTables
import OcCompiler.Proofs.Resolution
import OcCompiler.Proofs.ScopeFrame

/-! The first declaration of a name wins, and each other one is complained about once. So it is with the names of a block,
    with the fields of a struct and with the bodies of a tag, however these are mixed in a program. -/

namespace OcCompiler

open Analysis NameStep

namespace Item

def structBodies (k : Nat) : Item → List StructBody
  | .struct _ tag fields => [⟨tag, Decl.fieldDecls (k + 2) fields⟩]
  | .function .. | .prototype .. | .stmt _ => []

def structBodiesAll (k : Nat) : List Item → List StructBody
  | [] => []
  | i :: is => i.structBodies k ++ structBodiesAll (k + i.size) is

end Item

namespace Program

def structBodies (items : List Item) : List StructBody := Item.structBodiesAll 1 items

/-- What a program declares once more, although it was declared already: names of a block, then tags and fields. -/
def repeated (items : List Item) : List Lexeme :=
  (NameDecl.repeated (declared (nameSteps items))).map NameDecl.name ++ flatMapAfter StructBody.repeats [] (structBodies items)

end Program

/-- The analysis has gone through `steps` and through the struct bodies `bodies`, whose nodes have numbers below `k`. -/
structure FirstWins (old old' : List Diagnostic) (k next : Nat) (steps : List NameStep) (bodies : List StructBody)
    (a : Analysis) : Prop where
  tracks : Tracks old none globalBlock [] next steps a
  closed : a.ClosedBind (declared steps)
  fields : a.HasBodies bodies
  nodes : ∀ body ∈ bodies, ∀ d ∈ body.fields, d.node.index < k
  redeclared : (Log.redeclared a.log).Perm (old' ++ ((NameDecl.repeated (declared steps)).map NameDecl.name ++
    flatMapAfter StructBody.repeats [] bodies).map SemanticCause.redeclared.about)

section Items

variable {old old' : List Diagnostic} {k next : Nat} {steps : List NameStep} {bodies : List StructBody} {a : Analysis}

theorem Decl.node_of_mem_fieldDecls {ds : List Decl} {d : NameDecl} (h : d ∈ fieldDecls k ds) :
    d.node.index < k + sizes ds := by
  induction ds generalizing k with
  | nil => cases h
  | cons e ds ih =>
    have he := e.two_le_size
    rw [sizes]
    rcases List.mem_cons.mp h with rfl | h
    · show k + 1 < _
      omega
    · rw [← Nat.add_assoc]
      exact ih h

namespace FirstWins

theorem struct (h : FirstWins old old' k next steps bodies a) (mark tag : Lexeme) (fields : List Decl)
    (hout : Outside k (k + (2 + Decl.sizes fields)) steps) :
    FirstWins old old' (k + (2 + Decl.sizes fields)) next steps (bodies ++ [⟨tag, Decl.fieldDecls (k + 2) fields⟩])
      ((Item.struct mark tag fields).analyze k a) := by
  have heff := (Item.struct mark tag fields).analyze_effect k a
  rw [Item.size_struct] at heff
  have htracks : Tracks old none globalBlock [] next steps ((Item.struct mark tag fields).analyze k a) :=
    Item.tracks_struct h.tracks hout
  have hplace : Aside k (k + 1) a (a.place ⟨k⟩ .struct) := a.aside_place _ (Nat.le_refl k) (Nat.lt_succ_self k)
  have hbefore := h.fields.spared (hplace.symbols h.tracks.sound) (hplace.fields h.tracks.sound)
    fun body hbody d hd _ => hplace.decor _ (.inl (h.nodes body hbody d hd))
  have hsound := (hplace.symbols h.tracks.sound).sound
  obtain ⟨hbodies, hlog⟩ := hbefore.defineStructAs hsound ⟨k⟩ tag (k := k + 1) fields
    fun body hbody d hd => Nat.lt_succ_of_lt (h.nodes body hbody d hd)
  have harchive := ((a.place ⟨k⟩ .struct).plain_defineStructAs ⟨k⟩ ⟨k + 1⟩ tag (Decl.declarations (k + 2) fields)).archive
  have hdefine : Effect k (k + (2 + Decl.sizes fields)) (a.place ⟨k⟩ .struct)
      ((a.place ⟨k⟩ .struct).defineStructAs ⟨k⟩ ⟨k + 1⟩ tag (Decl.declarations (k + 2) fields)) :=
    effect_defineStructAs _ tag (Nat.le_succ k) (by dsimp only; omega) (Decl.declarations_within fields)
  have hsound' := (hdefine.symbols hsound).sound
  rw [Item.analyze] at heff htracks ⊢
  generalize (a.place ⟨k⟩ .struct).defineStructAs ⟨k⟩ ⟨k + 1⟩ tag (Decl.declarations (k + 2) fields) = b
    at hbodies hlog harchive hsound' heff htracks
  -- What follows the definition only places nodes, and those that have a symbol stay as they are.
  have htail : Aside k (k + (2 + Decl.sizes fields)) b (Decl.placeAll (k + 2) .field fields (b.place ⟨k + 1⟩ .typeName)) :=
    (b.aside_place .typeName (Nat.le_succ k) (by dsimp only; omega)).trans
      (Decl.aside_placeAll _ fields .field (by omega) (by omega))
  have hdecor (n : NodeId) (hn : (b.decoration n).symbol.isSome = true) :
      (Decl.placeAll (k + 2) .field fields (b.place ⟨k + 1⟩ .typeName)).decoration n = b.decoration n := by
    have hfirst := decoration_place_of_symbol hn ⟨k + 1⟩ .typeName
    rw [Decl.decoration_placeAll_of_symbol (by rw [hfirst]; exact hn), hfirst]
  constructor
  · exact htracks
  · exact h.closed.spared (htail.archive.trans (harchive.trans hplace.archive)) (heff.symbols h.tracks.sound) (heff.spared hout)
  · exact hbodies.spared (htail.symbols hsound') (htail.fields hsound') fun _ _ d _ hd => hdecor d.node hd
  · intro body hbody d hd
    rcases List.mem_append.mp hbody with hbody | hbody
    · exact Nat.lt_add_right _ (h.nodes body hbody d hd)
    · rw [List.mem_singleton.mp hbody] at hd
      have hnode := Decl.node_of_mem_fieldDecls hd
      omega
  · rw [htail.redeclared, hlog, hplace.redeclared, flatMapAfter_concat, List.nil_append, ← List.append_assoc,
      List.map_append, ← List.append_assoc]
    exact h.redeclared.append_right _

theorem names (h : FirstWins old old' k next steps bodies a) (i : Item) (hi : i.isStruct = false)
    (hout : Outside k (k + i.size) steps) :
    FirstWins old old' (k + i.size) (next + i.blocks) (steps ++ i.nameSteps next k) bodies (i.analyze k a) := by
  have hstart : Reaches ⟨none, globalBlock, [], next, steps, a⟩ none globalBlock [] next steps a := .refl
  have hreaches := i.reaches hstart hi hout
  have heff := i.analyze_effect k a
  obtain ⟨added, hadded, hlog⟩ := hreaches.redeclared h.tracks
  constructor
  · exact hreaches.tracks h.tracks
  · exact hreaches.closedBind h.tracks h.closed
  · exact h.fields.spared (heff.symbols h.tracks.sound) (fun x => hreaches.fieldTable? h.tracks x)
      fun body hbody d hd _ => heff.decor _ (.inl (h.nodes body hbody d hd))
  · exact fun body hbody d hd => Nat.lt_add_right _ (h.nodes body hbody d hd)
  · -- The new complaints stand behind all others in the log, and are listed before those about structs.
    rw [hlog, hadded]
    refine (h.redeclared.append_right _).trans ?_
    simp only [List.map_append, List.map_map, List.append_assoc]
    refine (List.Perm.append_left _ (List.Perm.append_left _ ?_))
    exact List.perm_append_comm

theorem all (is : List Item) (h : FirstWins old old' k next steps bodies a) (hout : Outside k (k + Item.sizes is) steps) :
    ∃ k' next', FirstWins old old' k' next' (steps ++ Item.nameStepsAll next k is) (bodies ++ Item.structBodiesAll k is)
      (Item.analyzeAll k is a) := by
  induction is generalizing k next steps bodies a with
  | nil =>
    rw [Item.nameStepsAll, Item.structBodiesAll, List.append_nil, List.append_nil]
    exact ⟨k, next, h⟩
  | cons i is ih =>
    rw [Item.sizes, ← Nat.add_assoc] at hout
    have hi : FirstWins old old' (k + i.size) (next + i.blocks) (steps ++ i.nameSteps next k) (bodies ++ i.structBodies k)
        (i.analyze k a) := by
      have hout' := hout.mono (Nat.le_refl k) (Nat.le_add_right (k + i.size) (Item.sizes is))
      cases i with
      | struct mark tag fields =>
        rw [Item.size_struct] at hout' ⊢
        rw [Item.nameSteps, List.append_nil]
        exact h.struct mark tag fields hout'
      | _ =>
        rw [Item.structBodies, List.append_nil]
        exact h.names _ rfl hout'
    rw [Item.analyzeAll, Item.nameStepsAll, Item.structBodiesAll, ← List.append_assoc, ← List.append_assoc]
    exact ih hi ((hout.mono (Nat.le_add_right _ _) (Nat.le_refl _)).append_before (i.nameSteps_within _ _))

end FirstWins

end Items

namespace Program

theorem firstWins_start (log : Log) :
    FirstWins (Log.undeclared log) (Log.redeclared log) 1 (globalBlock + 1) [] [] (Analysis.place .root .root { log }) := by
  constructor
  · exact tracks_start log
  · intro c hc
    exact absurd hc List.not_mem_nil
  · intro tag
    exact .none
  · exact List.forall_mem_nil _
  · rw [show Log.redeclared (Analysis.place .root .root { log }).log = Log.redeclared log from rfl]
    simp [declared, NameDecl.repeated, filterAfter, flatMapAfter]

/-- The first declaration wins, and each other one is complained about once. After the analysis of a program every block
    with a declaration has a scope. Every scope, open or closed, binds exactly the names declared in its block, each to the
    symbol of the first declaration. Every tag with a body has exactly the fields of its first body in order, the first of
    each name. The complaints that a name was declared before are those about all other declarations, one for each. -/
theorem first_declarations_win {tokens : List Token} {root : NodeId} {t : Tree}
    (h : Tree.empty.parse tokens = (.ok root, t)) (log : Log) :
    ∃ a, Analysis.ofTree t log = .ok a ∧
      (∀ d ∈ declared (nameSteps (ofTokens tokens).items), ∃ c ∈ a.symbols.scopes, c.block = d.block) ∧
      (∀ c ∈ a.symbols.scopes, ∀ x, Option.Rel a.IsSymbolOf
        (NameDecl.first (declared (nameSteps (ofTokens tokens).items)) c.block x) (c.find? x)) ∧
      (∀ tag, Option.Rel (fun b table => a.Lists b.fields table)
        (StructBody.first (structBodies (ofTokens tokens).items) tag) (a.symbols.fieldTable? tag)) ∧
      (Log.redeclared a.log).Perm
        (Log.redeclared log ++ (repeated (ofTokens tokens).items).map SemanticCause.redeclared.about) := by
  have hrun := Analysis.ofTree_parse h log
  obtain ⟨k, next, hwins⟩ := (firstWins_start log).all (ofTokens tokens).items (List.forall_mem_nil _)
  have hnumbered := (passes_visitWithin hrun).steps.keep SymbolTable.Step.numbered SymbolTable.numbered_empty
  refine ⟨_, hrun, fun d hd => ?_, fun c hc x => ?_, hwins.fields, hwins.redeclared⟩
  · have hbelow := hwins.tracks.below d hd
    rw [← hwins.tracks.nextBlock] at hbelow
    exact List.mem_map.mp (hnumbered.mem_iff.mpr (List.mem_range.mpr hbelow))
  · rcases List.mem_append.mp hc with hc | hc
    · exact hwins.closed c hc x
    · exact rel_imp (hwins.tracks.scopes c (List.mem_reverse.mp hc) x) fun _ _ _ _ hid => hid.toIsSymbolOf

/-- A field that comes twice, a prototype with two definitions, a parameter that is declared again in the body, and a
    second body of a tag. -/
theorem first_declarations_win_mixed :
    ∃ s root t, TokenStream.ofText "t" ("struct p \x7bint x; int x;\x7d void f(int a);\n" ++
        "void f(int a) \x7bint a = 1;\x7d void f() \x7b\x7d struct p \x7bint z; int z;\x7d") = .ok s ∧
      Tree.empty.parse s.tokens = (.ok root, t) ∧
      (repeated (ofTokens s.tokens).items).map (·.text) = ["a", "f", "x", "p"] ∧
      ∃ a, Analysis.ofTree t #[] = .ok a ∧
        (∀ d ∈ declared (nameSteps (ofTokens s.tokens).items), ∃ c ∈ a.symbols.scopes, c.block = d.block) ∧
        (∀ c ∈ a.symbols.scopes, ∀ x, Option.Rel a.IsSymbolOf
          (NameDecl.first (declared (nameSteps (ofTokens s.tokens).items)) c.block x) (c.find? x)) ∧
        (∀ tag, Option.Rel (fun b table => a.Lists b.fields table)
          (StructBody.first (structBodies (ofTokens s.tokens).items) tag) (a.symbols.fieldTable? tag)) ∧
        (Log.redeclared a.log).Perm
          (Log.redeclared #[] ++ (repeated (ofTokens s.tokens).items).map SemanticCause.redeclared.about) := by
  exact Tree.exists_parse_and (by decide +kernel) fun _ hparse => first_declarations_win hparse #[]

end Program

end OcCompiler
