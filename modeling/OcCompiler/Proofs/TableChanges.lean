import Mathlib.Logic.Relation
import OcCompiler.Proofs.ItemTyping

/-! The changes that an analysis makes to its symbol table, one by one. Most of them happen in the innermost scope: names
    and types are defined there, and no block is opened or closed for that. -/

namespace OcCompiler

namespace SymbolTable

inductive Step (s : SymbolTable) : SymbolTable → Prop where
  | declare (x : Lexeme) (type : ValueType) (roles : Roles) :
    Step s (s.push { name := x.text, loc := x.loc, block := s.currentBlock, attrs := .typed type roles }).2
  | useTag (tag : Lexeme) : Step s (s.structOrPlaceholder tag).2
  | bind {name : String} {id : SymbolId} {s' : SymbolTable} (h : s.insert name id = .ok s') : Step s s'
  | openBody (struct : SymbolId) (loc : Location) :
    Step s (s.modify struct fun x => { x with loc, block := s.currentBlock, fields := some [] })
  | addField (struct : SymbolId) {field : SymbolId} (h : field.index < s.size) :
    Step s (s.modify struct (·.setField (s.get field).name field))
  | setParams (function : SymbolId) (params : List SymbolId) :
    Step s (s.modify function fun x => { x with params := some params })
  | settle (prototype : SymbolId) : Step s (s.modify prototype fun x => { x with attrs := x.attrs.settled })
  | enterBlock : Step s s.enterBlock
  | exitBlock : Step s s.exitBlock.2
  | record (depth : Nat) (id : SymbolId) : Step s (s.record depth id)
  | recordBlank : Step s s.recordBlank

def Steps : SymbolTable → SymbolTable → Prop := Relation.ReflTransGen Step

variable {s s' s'' : SymbolTable}

section Steps

theorem Steps.refl (s : SymbolTable) : Steps s s := Relation.ReflTransGen.refl

theorem Steps.trans (h : Steps s s') (h' : Steps s' s'') : Steps s s'' := Relation.ReflTransGen.trans h h'

theorem Steps.step (h : Steps s s') (h' : Step s' s'') : Steps s s'' := Relation.ReflTransGen.tail h h'

theorem Step.steps (h : Step s s') : Steps s s' := .step (.refl s) h

theorem Steps.keep {P : SymbolTable → Prop} (hstep : ∀ {s s'}, Step s s' → P s → P s') (h : Steps s s') (hs : P s) :
    P s' := by
  induction h with
  | refl => exact hs
  | tail _ step ih => exact hstep step ih

end Steps

def openBlocks (s : SymbolTable) : List Nat := s.openScopes.map Scope.block

/-- The open scopes are open again, the innermost with new bindings behind its old ones and the others as they were, and
    no closed scope was lost or changed. -/
structure Frame (s s' : SymbolTable) : Prop where
  openBlocks : s'.openBlocks = s.openBlocks
  inner : s.inner.bindings <+: s'.inner.bindings
  outer : s'.outer = s.outer
  archive : s.archive.toList <+: s'.archive.toList

theorem Frame.of_eq (hinner : s'.inner = s.inner) (houter : s'.outer = s.outer) (harchive : s'.archive = s.archive) :
    Frame s s' where
  openBlocks := by rw [SymbolTable.openBlocks, openScopes, hinner, houter]; rfl
  inner := hinner ▸ List.prefix_refl _
  outer := houter
  archive := harchive ▸ List.prefix_refl _

theorem Frame.refl (s : SymbolTable) : Frame s s := .of_eq rfl rfl rfl

theorem Frame.trans (h : Frame s s') (h' : Frame s' s'') : Frame s s'' where
  openBlocks := h'.openBlocks.trans h.openBlocks
  inner := h.inner.trans h'.inner
  outer := h'.outer.trans h.outer
  archive := h.archive.trans h'.archive

theorem Frame.closed (h : Frame s.enterBlock s') : Frame s s'.exitBlock.2 := by
  have houter : s'.outer = s.inner :: s.outer := h.outer
  unfold exitBlock
  rw [houter]
  exact ⟨rfl, List.prefix_refl _, rfl, h.archive.trans (by simp)⟩

/-! ### Changes in the innermost scope -/

/-- Changes that open and close no block. -/
structure Local (s s' : SymbolTable) : Prop where
  steps : Steps s s'
  frame : Frame s s'
  nextBlock : s'.nextBlock = s.nextBlock
  archive : s'.archive = s.archive

theorem Local.refl (s : SymbolTable) : Local s s := ⟨.refl s, .refl s, rfl, rfl⟩

theorem Local.trans (h : Local s s') (h' : Local s' s'') : Local s s'' where
  steps := h.steps.trans h'.steps
  frame := h.frame.trans h'.frame
  nextBlock := h'.nextBlock.trans h.nextBlock
  archive := h'.archive.trans h.archive

theorem Step.local (h : Step s s') (hinner : s'.inner = s.inner) (houter : s'.outer = s.outer)
    (harchive : s'.archive = s.archive) (hnext : s'.nextBlock = s.nextBlock) : Local s s' :=
  ⟨h.steps, .of_eq hinner houter harchive, hnext, harchive⟩

/-- What is new is no function, and the functions that there were are as they were. -/
structure Spares (s s' : SymbolTable) : Prop where
  size : s.size ≤ s'.size
  functions : ∀ id, (s'.get id).attrs.roles.function = true →
    (s'.get id).attrs = (s.get id).attrs ∧ (s'.get id).params = (s.get id).params

theorem Spares.trans (h : Spares s s') (h' : Spares s' s'') : Spares s s'' where
  size := Nat.le_trans h.size h'.size
  functions id hid := by
    obtain ⟨hattrs, hparams⟩ := h'.functions id hid
    rw [hattrs] at hid
    rw [hattrs, hparams]
    exact h.functions id hid

theorem Spares.of_entries (h : s'.entries = s.entries) : Spares s s' := by
  have hget (id : SymbolId) : s'.get id = s.get id := by rw [get, get, h]
  exact ⟨Nat.le_of_eq (congrArg Array.size h.symm), fun id _ => by rw [hget]; exact ⟨rfl, rfl⟩⟩

theorem spares_push {x : Symbol} (hx : x.attrs.roles.function = false) : Spares s (s.push x).2 where
  size := by simp
  functions id hid := by
    rw [get_push] at hid ⊢
    split at hid
    · rw [hx] at hid
      cases hid
    · rename_i hne
      rw [if_neg hne]
      exact ⟨rfl, rfl⟩

theorem spares_modify (id : SymbolId) {f : Symbol → Symbol} (hf : ∀ x, (f x).attrs = x.attrs ∧ (f x).params = x.params) :
    Spares s (s.modify id f) where
  size := by simp
  functions m _ := by
    by_cases hm : m = id
    · subst hm
      by_cases hin : m.index < s.size
      · rw [get_modify hin, if_pos rfl]
        exact hf _
      · rw [get_modify_out (Nat.le_of_not_lt hin)]
        exact ⟨rfl, rfl⟩
    · rw [get_modify_of_ne hm]
      exact ⟨rfl, rfl⟩

/-- Changes that neither open or close a block nor have to do with a function. -/
structure Plain (s s' : SymbolTable) : Prop extends Local s s', Spares s s'

theorem Plain.refl (s : SymbolTable) : Plain s s := ⟨.refl s, .of_entries rfl⟩

theorem Plain.trans (h : Plain s s') (h' : Plain s' s'') : Plain s s'' :=
  ⟨h.toLocal.trans h'.toLocal, h.toSpares.trans h'.toSpares⟩

theorem plain_record (s : SymbolTable) (depth : Nat) (id : SymbolId) : Plain s (s.record depth id) :=
  ⟨(Step.record _ _).local rfl rfl rfl rfl, .of_entries rfl⟩

theorem plain_structOrPlaceholder (s : SymbolTable) (tag : Lexeme) : Plain s (s.structOrPlaceholder tag).2 := by
  refine ⟨Step.local (.useTag tag) ?_ ?_ ?_ ?_, ?_⟩ <;> unfold structOrPlaceholder <;> split <;> try rfl
  · exact .of_entries rfl
  · exact (spares_push rfl).trans (.of_entries rfl)

theorem plain_insert {name : String} {id : SymbolId} (h : s.insert name id = .ok s') : Plain s s' := by
  have hsteps := (Step.bind h).steps
  unfold insert at h
  split at h
  · cases h
  · cases h
    exact ⟨⟨hsteps, ⟨rfl, List.prefix_append _ _, rfl, List.prefix_refl _⟩, rfl, rfl⟩, .of_entries rfl⟩

end SymbolTable

open SymbolTable (Local Plain Spares Step)

namespace Analysis

variable (a : Analysis)

theorem plain_useStruct (n : NodeId) (tag : Lexeme) (mayLackFields : Bool) :
    Plain a.symbols (a.useStruct n tag mayLackFields).symbols := by
  have h := a.symbols.plain_structOrPlaceholder tag
  unfold useStruct
  dsimp only
  split <;> exact h

theorem plain_bind (x : Lexeme) (id : SymbolId) (roles : Roles) : Plain a.symbols (a.bind x id roles).2.symbols := by
  unfold bind
  split
  · rename_i s hs
    exact (SymbolTable.plain_insert hs).trans (SymbolTable.plain_record _ _ _)
  · split
    · exact SymbolTable.plain_record _ _ _
    · exact .refl _

theorem plain_useBase (d : Declaration) (mayLackFields : Bool) : Plain a.symbols (a.useBase d mayLackFields).symbols := by
  unfold useBase
  split
  · exact a.plain_useStruct _ _ _
  · exact .refl _

theorem define_pushes (d : Declaration) (roles : Roles) :
    ∃ x : Symbol, x.attrs.roles = roles ∧ (a.define d roles).1.symbol = ((a.useBase d roles.field).symbols.push x).1 ∧
      Step (a.useBase d roles.field).symbols ((a.useBase d roles.field).symbols.push x).2 ∧
      Plain ((a.useBase d roles.field).symbols.push x).2 (a.define d roles).2.symbols := by
  have hsymbols : (((a.useBase d roles.field).declare d.nameNode d.name (.typed d.type roles)).2.refuseVoid d roles).symbols =
      ((a.useBase d roles.field).symbols.push ⟨d.name.text, d.name.loc, (a.useBase d roles.field).symbols.currentBlock,
        .typed d.type roles, none, none⟩).2 := symbols_refuseVoid _ _ _
  refine ⟨_, rfl, ?_, .declare d.name d.type roles, ?_⟩
  · unfold define bind
    dsimp only
    split
    · rfl
    · split
      · rfl
      · split <;> rfl
  · rw [← hsymbols]
    unfold define
    dsimp only
    split
    · exact .refl _
    · exact plain_bind _ _ _ _

theorem local_define (d : Declaration) (roles : Roles) : Local a.symbols (a.define d roles).2.symbols := by
  obtain ⟨x, -, -, hstep, hplain⟩ := a.define_pushes d roles
  exact ((a.plain_useBase d roles.field).toLocal.trans (hstep.local rfl rfl rfl rfl)).trans hplain.toLocal

theorem plain_define (d : Declaration) {roles : Roles} (hroles : roles.function = false) :
    Plain a.symbols (a.define d roles).2.symbols := by
  obtain ⟨x, hx, -, hstep, hplain⟩ := a.define_pushes d roles
  refine ((a.plain_useBase d roles.field).trans ⟨hstep.local rfl rfl rfl rfl, ?_⟩).trans hplain
  exact SymbolTable.spares_push (by rw [hx, hroles])

theorem define_lt (d : Declaration) (roles : Roles) :
    (a.define d roles).1.symbol.index < (a.define d roles).2.symbols.size := by
  obtain ⟨x, -, hid, -, hplain⟩ := a.define_pushes d roles
  rw [hid]
  exact Nat.lt_of_lt_of_le (Nat.lt_of_lt_of_eq (Nat.lt_succ_self _) (SymbolTable.size_push _ x).symm) hplain.size

theorem plain_addField (struct : SymbolId) {field : SymbolId} (hfield : field.index < a.symbols.size) (depth : Nat) :
    Plain a.symbols (a.addField struct depth field).symbols := by
  unfold addField
  dsimp only
  split
  · exact .refl _
  · exact Plain.trans ⟨(Step.addField struct hfield).local rfl rfl rfl rfl, SymbolTable.spares_modify struct fun _ => ⟨rfl, rfl⟩⟩
      (SymbolTable.plain_record _ _ _)

theorem plain_defineFields (struct : SymbolId) (depth : Nat) (ds : List Declaration) :
    Plain a.symbols (defineFields struct depth ds a).symbols := by
  induction ds generalizing a with
  | nil => exact .refl _
  | cons d ds ih =>
    have hadd := plain_addField (a.define d { field := true }).2 struct (a.define_lt d _) depth
    exact ((a.plain_define d rfl).trans hadd).trans (ih _)

theorem plain_openStruct (n : NodeId) (tag : Lexeme) : Plain a.symbols (a.openStruct n tag).2.symbols := by
  have h := a.symbols.plain_structOrPlaceholder tag
  unfold openStruct
  dsimp only
  split
  · exact h
  · refine (h.trans ⟨(Step.openBody _ tag.loc).local rfl rfl rfl rfl, ?_⟩).trans (SymbolTable.plain_record _ _ _)
    exact SymbolTable.spares_modify _ fun _ => ⟨rfl, rfl⟩

theorem plain_defineStructAs (n name : NodeId) (tag : Lexeme) (fields : List Declaration) :
    Plain a.symbols (a.defineStructAs n name tag fields).symbols := by
  have hopen := a.plain_openStruct name tag
  unfold defineStructAs
  split
  · rename_i b hb
    rwa [hb] at hopen
  · rename_i id b hb
    rw [hb] at hopen
    exact hopen.trans (plain_defineFields b _ _ _)

theorem plain_defineParams (ds : List Declaration) :
    Plain a.symbols (defineParams ds a).2.symbols ∧ ∀ p ∈ (defineParams ds a).1, p.index < (defineParams ds a).2.symbols.size := by
  induction ds generalizing a with
  | nil => exact ⟨.refl _, nofun⟩
  | cons d ds ih =>
    rw [defineParams]
    obtain ⟨hrest, hparams⟩ := ih (a.define d { var := true, param := true, lvalue := true }).2
    refine ⟨(a.plain_define d rfl).trans hrest, List.forall_mem_cons.mpr ⟨?_, hparams⟩⟩
    exact Nat.lt_of_lt_of_le (a.define_lt d _) hrest.size

theorem local_matchPrototype (definition prototype : SymbolId) (params : List SymbolId) :
    Local a.symbols (a.matchPrototype definition prototype params).symbols := by
  have h := (Step.settle (s := a.symbols) prototype).local rfl rfl rfl rfl
  unfold matchPrototype
  dsimp only
  split <;> exact h

theorem local_openFunction (d : Declaration) (paramList : NodeId) (params : List Declaration) (roles : Roles) :
    ∃ s, Local a.symbols s ∧ Local s.enterBlock (a.openFunction d paramList params roles).symbols := by
  have hparams (f : SymbolId) : Local (a.define d roles).2.symbols.enterBlock
      ((a.define d roles).2.openParams f paramList params).2.symbols :=
    (plain_defineParams ((a.define d roles).2.enterBlock.2.setBlock paramList (a.define d roles).2.enterBlock.1)
      params).1.toLocal.trans ((Step.setParams f _).local rfl rfl rfl rfl)
  refine ⟨(a.define d roles).2.symbols, a.local_define d roles, ?_⟩
  rw [openFunction_eq]
  dsimp only
  split
  · exact (hparams _).trans (local_matchPrototype _ _ _ _)
  · exact hparams _

end Analysis

end OcCompiler
