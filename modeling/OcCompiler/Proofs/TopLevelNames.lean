import Mathlib.Data.List.Flatten
import OcCompiler.Proofs.Emission
import OcCompiler.Proofs.Scopes
import OcCompiler.Proofs.Spelling

/-! The names at the top level of a module. Global names, struct tags and the fields of a struct are distinct, but
    nothing keeps a global name from being that of the entry. -/

namespace OcCompiler

open Oil

/-! ### Names that a program declares -/

structure Oil.FunctionHeader where
  result : Storage
  name : String
  params : List (Storage × String)
deriving DecidableEq, Repr

def Oil.Function.header (f : Function) : FunctionHeader := ⟨f.result, f.name, f.params.map fun p => (p.1, p.2.name)⟩

namespace Stmt

/-- The variables that a statement declares in the block around it, with the numbers of their first nodes. -/
def declared (k : Nat) : Stmt → List (Nat × Decl)
  | .varDecl d _ _ => [(k, d)]
  | .whileLoop _ cond body => body.declared (k + 1 + cond.size)
  | .ifThen _ cond yes => yes.declared (k + 1 + cond.size)
  | .ifElse _ cond yes no => yes.declared (k + 1 + cond.size) ++ no.declared (k + 1 + cond.size + yes.size)
  | .block .. | .empty _ | .returnValue .. | .returnVoid _ | .expr _ => []

end Stmt

namespace Item

/-- The global variables of an item, with the numbers of their first nodes. -/
def declared (k : Nat) : Item → List (Nat × Decl)
  | .stmt s => s.declared k
  | .struct .. | .function .. | .prototype .. => []

def declaredAll (k : Nat) : List Item → List (Nat × Decl)
  | [] => []
  | i :: is => i.declared k ++ declaredAll (k + i.size) is

def functionName? : Item → Option String
  | .function d _ _ _ _ => some d.name.text
  | .struct .. | .prototype .. | .stmt _ => none

/-- The header of the definition of a function. A prototype has none. -/
def header? : Item → Option FunctionHeader
  | .function d _ params _ _ => some ⟨.ofType d.type, d.name.text, params.map fun p => (.ofType p.type, p.name.text)⟩
  | .struct .. | .prototype .. | .stmt _ => none

def record? : Item → Option StructRecord
  | .struct _ tag fields => some ⟨tag.text, fields.map fun d => (.ofType d.type, d.name.text)⟩
  | .function .. | .prototype .. | .stmt _ => none

end Item

def Decl.global (d : Decl) : GlobalVariable := ⟨.ofType d.type, d.name.text⟩

/-- The environments before and after something that gives the names `xs`, none of which had the property `P` before. -/
structure Env.Adds (P : Env → String → Prop) (Γ : Env) (xs : List String) (Γ' : Env) : Prop where
  kept : ∀ x, P Γ x → P Γ' x
  fresh : ∀ x ∈ xs, ¬P Γ x
  added : ∀ x ∈ xs, P Γ' x
  nodup : xs.Nodup

namespace Env.Adds

variable {P : Env → String → Prop} {Γ Γ' Γ'' : Env} {xs ys : List String}

theorem none (h : ∀ x, P Γ x → P Γ' x) : Adds P Γ [] Γ' := ⟨h, nofun, nofun, .nil⟩

theorem trans (h : Adds P Γ xs Γ') (h' : Adds P Γ' ys Γ'') : Adds P Γ (xs ++ ys) Γ'' where
  kept x hx := h'.kept x (h.kept x hx)
  fresh x hx := by
    rcases List.mem_append.mp hx with hx | hx
    · exact h.fresh x hx
    · exact fun hold => h'.fresh x hx (h.kept x hold)
  added x hx := by
    rcases List.mem_append.mp hx with hx | hx
    · exact h'.kept x (h.added x hx)
    · exact h'.added x hx
  nodup := by
    refine List.nodup_append.mpr ⟨h.nodup, h'.nodup, ?_⟩
    rintro x hx _ hy rfl
    exact h'.fresh x hy (h.added x hx)

end Env.Adds

def Entry.isAnnounced : Entry → Bool
  | .var _ => false
  | .function _ announced => announced

def Env.Taken (Γ : Env) (x : String) : Prop := ∃ entry, Γ.inner.lookup x = some entry ∧ entry.isAnnounced = false

theorem Env.taken_bind {Γ : Env} {x : String} {entry : Entry} (hentry : entry.isAnnounced = false)
    (hfree : Γ.inner.lookup x = none) : Γ.Adds Taken [x] (Γ.bind x entry) where
  kept y := by
    rintro ⟨found, hfound, hdefined⟩
    exact ⟨found, by simp [bind, List.lookup_append, hfound], hdefined⟩
  fresh y hy := by
    rintro ⟨found, hfound, -⟩
    rw [List.mem_singleton.mp hy, hfree] at hfound
    cases hfound
  added y hy := by
    rw [List.mem_singleton.mp hy]
    exact ⟨entry, by simp [bind, List.lookup_append, hfree], hentry⟩
  nodup := List.nodup_singleton x

theorem StmtOk.adds_declared {ρ : Option ValueType} {Γ Γ' : Env} (s : Stmt) (k : Nat) (h : StmtOk ρ Γ s Γ') :
    Γ.Adds Env.Taken ((s.declared k).map fun p => p.2.name.text) Γ' := by
  cases h with
  | block | empty | returnValue | returnVoid | expr => exact .none fun _ h => h
  | varDecl _ _ hfree => exact Env.taken_bind rfl hfree
  | whileLoop _ hbody | ifThen _ hbody =>
    rw [Stmt.declared]
    exact StmtOk.adds_declared _ _ hbody
  | ifElse _ hyes hno =>
    rw [Stmt.declared, List.map_append]
    exact (StmtOk.adds_declared _ _ hyes).trans (StmtOk.adds_declared _ _ hno)

namespace Item

/-- What an item declares at the top level: its variables or its function. -/
def declares (k : Nat) (i : Item) : List String := (i.declared k).map (fun p => p.2.name.text) ++ i.functionName?.toList

def declaresAll (k : Nat) : List Item → List String
  | [] => []
  | i :: is => i.declares k ++ declaresAll (k + i.size) is

def tags : Item → List String
  | .struct _ tag _ => [tag.text]
  | .function .. | .prototype .. | .stmt _ => []

theorem lookup_define (Γ : Env) (f x : String) :
    (Γ.define f).inner.lookup x = (Γ.inner.lookup x).map fun
      | .function sig announced => .function sig (announced && x != f)
      | entry => entry := by
  simp only [Env.define]
  induction Γ.inner with
  | nil => rfl
  | cons p frame ih =>
    obtain ⟨y, entry⟩ := p
    cases hxy : x == y with
    | true =>
      obtain rfl := beq_iff_eq.mp hxy
      cases entry <;> simp
    | false => cases entry <;> simp [List.lookup_cons, hxy, ih]

theorem adds_declares {Γ Γ' : Env} {i : Item} (h : ItemOk Γ i Γ') (k : Nat) : Γ.Adds Env.Taken (i.declares k) Γ' := by
  cases h with
  | struct => exact .none fun _ h => h
  | prototype _ hfree =>
    refine .none fun x => ?_
    rintro ⟨entry, hentry, hdefined⟩
    exact ⟨entry, by simp [Env.bind, List.lookup_append, hentry], hdefined⟩
  | function _ hfree => exact Env.taken_bind rfl hfree
  | announced hcomplete hmatch =>
    constructor
    · rintro x ⟨entry, hentry, hdefined⟩
      rw [Env.Taken, lookup_define, hentry]
      cases entry with
      | var τ => exact ⟨_, rfl, rfl⟩
      | function sig announced =>
        cases hdefined
        exact ⟨_, rfl, rfl⟩
    · intro x hx
      obtain rfl := List.mem_singleton.mp hx
      rintro ⟨entry, hentry, hdefined⟩
      rw [hmatch] at hentry
      cases hentry
      cases hdefined
    · intro x hx
      obtain rfl := List.mem_singleton.mp hx
      rw [Env.Taken, lookup_define, hmatch]
      exact ⟨_, rfl, by simp [Entry.isAnnounced]⟩
    · exact List.nodup_singleton _
  | stmt h =>
    rw [declares, functionName?, Option.toList_none, List.append_nil]
    exact h.adds_declared _ k

abbrev HasBody (Γ : Env) (tag : String) : Prop := Γ.fields? tag ≠ none

theorem adds_tags {Γ Γ' : Env} {i : Item} (h : ItemOk Γ i Γ') : Γ.Adds HasBody i.tags Γ' := by
  cases h with
  | @struct _ tag fields hnew =>
    constructor
    · intro x hx
      simp only [HasBody, Env.fields?, Env.addStruct, List.lookup_append] at hx ⊢
      cases hlookup : Γ.structs.lookup x with
      | none => exact absurd hlookup hx
      | some _ => simp
    · intro x hx
      obtain rfl := List.mem_singleton.mp hx
      exact fun h => h hnew
    · intro x hx
      obtain rfl := List.mem_singleton.mp hx
      have hnew : Γ.structs.lookup tag.text = none := hnew
      simp [HasBody, Env.fields?, Env.addStruct, List.lookup_append, hnew]
    · exact List.nodup_singleton _
  | prototype | function | announced => exact .none fun _ h => h
  | stmt h => exact .none fun x hx => by rwa [HasBody, Env.fields?, h.kept.2]

theorem nodup_declaresAll {is : List Item} {Γ Γ' : Env} (h : ItemsOk Γ is Γ') (k : Nat) :
    Γ.Adds Env.Taken (declaresAll k is) Γ' := by
  induction is generalizing Γ k with
  | nil =>
    cases h
    exact .none fun _ h => h
  | cons i is ih =>
    cases h with
    | cons hi his => exact (adds_declares hi k).trans (ih his _)

theorem nodup_tags {is : List Item} {Γ Γ' : Env} (h : ItemsOk Γ is Γ') : Γ.Adds HasBody (is.flatMap tags) Γ' := by
  induction is generalizing Γ with
  | nil =>
    cases h
    exact .none fun _ h => h
  | cons i is ih =>
    cases h with
    | cons hi his => exact (adds_tags hi).trans (ih his)

theorem declaresAll_perm (is : List Item) (k : Nat) :
    ((declaredAll k is).map (fun p => p.2.name.text) ++ is.filterMap functionName?).Perm (declaresAll k is) := by
  induction is generalizing k with
  | nil => exact .nil
  | cons i is ih =>
    have ih := ih (k + i.size)
    rw [declaresAll]
    cases i with
    | struct | prototype => exact ih
    | function d paren params brace body => exact List.perm_middle.trans (ih.cons d.name.text)
    | stmt s =>
      rw [declaredAll, declares, functionName?, Option.toList_none, List.append_nil, List.map_append, List.append_assoc]
      exact ih.append_left _

theorem ok_of_mem {is : List Item} {Γ Γ' : Env} (h : ItemsOk Γ is Γ') {i : Item} (hi : i ∈ is) : ∃ Δ Δ', ItemOk Δ i Δ' := by
  induction is generalizing Γ with
  | nil => cases hi
  | cons j is ih =>
    cases h with
    | cons hj his =>
      rcases List.mem_cons.mp hi with rfl | hi
      · exact ⟨_, _, hj⟩
      · exact ih his hi

end Item

section Queues

open Analysis

mutual

theorem Stmt.globals_inside (s : Stmt) (k : Nat) {a : Analysis} (hblock : a.symbols.currentBlock ≠ globalBlock)
    (hnext : 0 < a.symbols.nextBlock) : (s.analyze k a).queues.globals = a.queues.globals := by
  cases s with
  | block brace body =>
    rw [analyze]
    exact Stmt.globals_insideAll body (k + 1) (Nat.ne_of_gt hnext) (Nat.succ_pos _)
  | empty semicolon | returnVoid mark =>
    rw [analyze, queues_place]
  | varDecl d equals init =>
    have hinit := init.opens_analyze (k + d.size + 1) (d.place k .declName (a.place ⟨k + d.size⟩ .varDecl))
    have hdefine := hinit.still (local_define _ (d.declaration k) { var := true, lvalue := true }).opens
    rw [Decl.symbols_place, symbols_place] at hdefine
    rw [analyze]
    simp only [queues_apply, queueGlobal, hdefine.currentBlock, if_neg hblock]
    simp [Expr.globals_analyze]
  | whileLoop mark cond body =>
    have hcond := cond.opens_analyze (k + 1) (a.place ⟨k⟩ .whileLoop)
    rw [symbols_place] at hcond
    rw [analyze]
    simp only [queues_apply]
    rw [Stmt.globals_inside body _ (hcond.currentBlock ▸ hblock) (hcond.nextBlock ▸ hnext), Expr.globals_analyze,
      queues_place]
  | ifThen mark cond yes =>
    have hcond := cond.opens_analyze (k + 1) (a.place ⟨k⟩ .ifThen)
    rw [symbols_place] at hcond
    rw [analyze]
    simp only [queues_apply]
    rw [Stmt.globals_inside yes _ (hcond.currentBlock ▸ hblock) (hcond.nextBlock ▸ hnext), Expr.globals_analyze,
      queues_place]
  | ifElse mark cond yes no =>
    have hcond := cond.opens_analyze (k + 1) (a.place ⟨k⟩ .ifElse)
    rw [symbols_place] at hcond
    have hyes := hcond.trans (yes.opens_analyze (k + 1 + cond.size) _)
    rw [analyze]
    simp only [queues_apply]
    rw [Stmt.globals_inside no _ (hyes.currentBlock ▸ hblock) (by rw [hyes.nextBlock]; omega),
      Stmt.globals_inside yes _ (hcond.currentBlock ▸ hblock) (hcond.nextBlock ▸ hnext), Expr.globals_analyze, queues_place]
  | returnValue mark value => rw [analyze, Expr.globals_analyze, queues_place]
  | expr e => rw [analyze, Expr.globals_analyze]

theorem Stmt.globals_insideAll (ss : List Stmt) (k : Nat) {a : Analysis} (hblock : a.symbols.currentBlock ≠ globalBlock)
    (hnext : 0 < a.symbols.nextBlock) : (analyzeAll k ss a).queues.globals = a.queues.globals := by
  match ss with
  | [] => rfl
  | s :: ss =>
    have hs := s.opens_analyze k a
    rw [analyzeAll, Stmt.globals_insideAll ss _ (hs.currentBlock ▸ hblock) (by rw [hs.nextBlock]; omega),
      Stmt.globals_inside s k hblock hnext]

end

def Decl.queueNode (p : Nat × Decl) : NodeId := ⟨p.1 + p.2.size⟩

theorem Stmt.globals_outside (s : Stmt) (k : Nat) {a : Analysis} (hblock : a.symbols.currentBlock = globalBlock)
    (hnext : 0 < a.symbols.nextBlock) :
    (s.analyze k a).queues.globals.toList = a.queues.globals.toList ++ (s.declared k).map Decl.queueNode := by
  cases s with
  | block brace body =>
    have hbody : (Stmt.analyzeAll (k + 1) body (a.enterBlock.2.setBlock ⟨k⟩ a.enterBlock.1)).queues.globals =
        a.queues.globals :=
      Stmt.globals_insideAll body (k + 1) (Nat.ne_of_gt hnext) (Nat.succ_pos _)
    rw [analyze, declared, List.map_nil, List.append_nil]
    exact congrArg Array.toList hbody
  | empty semicolon | returnVoid mark =>
    rw [analyze, queues_place, declared, List.map_nil, List.append_nil]
  | varDecl d equals init =>
    have hinit := init.opens_analyze (k + d.size + 1) (d.place k .declName (a.place ⟨k + d.size⟩ .varDecl))
    have hdefine := hinit.still (local_define _ (d.declaration k) { var := true, lvalue := true }).opens
    rw [Decl.symbols_place, symbols_place] at hdefine
    rw [analyze, declared]
    simp only [queues_apply, queueGlobal, hdefine.currentBlock, if_pos hblock]
    simp [Expr.globals_analyze, Decl.queueNode]
  | whileLoop mark cond body =>
    have hcond := cond.opens_analyze (k + 1) (a.place ⟨k⟩ .whileLoop)
    rw [symbols_place] at hcond
    rw [analyze, declared]
    simp only [queues_apply]
    rw [Stmt.globals_outside body _ (hcond.currentBlock ▸ hblock) (hcond.nextBlock ▸ hnext), Expr.globals_analyze,
      queues_place]
  | ifThen mark cond yes =>
    have hcond := cond.opens_analyze (k + 1) (a.place ⟨k⟩ .ifThen)
    rw [symbols_place] at hcond
    rw [analyze, declared]
    simp only [queues_apply]
    rw [Stmt.globals_outside yes _ (hcond.currentBlock ▸ hblock) (hcond.nextBlock ▸ hnext), Expr.globals_analyze,
      queues_place]
  | ifElse mark cond yes no =>
    have hcond := cond.opens_analyze (k + 1) (a.place ⟨k⟩ .ifElse)
    rw [symbols_place] at hcond
    have hyes := hcond.trans (yes.opens_analyze (k + 1 + cond.size) _)
    rw [analyze, declared]
    simp only [queues_apply]
    rw [Stmt.globals_outside no _ (hyes.currentBlock ▸ hblock) (by rw [hyes.nextBlock]; omega),
      Stmt.globals_outside yes _ (hcond.currentBlock ▸ hblock) (hcond.nextBlock ▸ hnext), Expr.globals_analyze,
      queues_place, List.map_append, List.append_assoc]
  | returnValue mark value =>
    rw [analyze, Expr.globals_analyze, queues_place, declared, List.map_nil, List.append_nil]
  | expr e => rw [analyze, Expr.globals_analyze, declared, List.map_nil, List.append_nil]

theorem Analysis.queues_defineStructAs_of_quiet {a : Analysis} {n name : NodeId} {tag : Lexeme} {fields : List Declaration}
    (hlog : (a.defineStructAs n name tag fields).log = a.log) :
    (a.defineStructAs n name tag fields).queues = { a.queues with structs := a.queues.structs.push n } := by
  have hopen := a.queues_openStruct name tag
  unfold defineStructAs at hlog ⊢
  split at hlog
  · rename_i b hb
    unfold openStruct at hb
    dsimp only at hb
    split at hb
    · cases hb
      exact absurd (congrArg Array.size hlog) (by simp [report, setSymbols])
    · cases hb
  · rename_i id b hb
    rw [hb] at hopen
    dsimp only at hopen ⊢
    rw [queues_defineFields, hopen]

namespace Item

theorem globals_queued (i : Item) (k : Nat) {a : Analysis} (hblock : a.symbols.currentBlock = globalBlock)
    (hnext : 0 < a.symbols.nextBlock) :
    (i.analyze k a).queues.globals.toList = a.queues.globals.toList ++ (i.declared k).map Decl.queueNode := by
  cases i with
  | struct mark tag fields =>
    rw [analyze, Decl.queues_placeAll, queues_place, declared, List.map_nil, List.append_nil]
    rcases (a.place ⟨k⟩ .struct).queues_defineStructAs ⟨k⟩ ⟨k + 1⟩ tag (Decl.declarations (k + 2) fields) with hq | hq
    · rw [hq, queues_place]
    · rw [hq, queues_place]
  | function d paren params brace body =>
    rw [analyze_function, declared, List.map_nil, List.append_nil]
    simp only [leaveBody, queues_apply]
    generalize (⟨k + d.size + 1 + Decl.sizes params + 1 + Stmt.sizes body⟩ : NodeId) = n
    obtain ⟨s, hs, hparams⟩ := opens_openFunction (a.place n .function) (d.declaration k) ⟨k + d.size⟩
      (Decl.declarations (k + d.size + 1) params) { function := true }
    have henter := hparams.still (symbols_enterBody k n d params body _)
    rw [symbols_place] at hs
    have hinside : s.nextBlock ≠ globalBlock := by
      rw [hs.nextBlock]
      exact Nat.ne_of_gt hnext
    have hbody := Stmt.globals_insideAll body (k + d.size + 1 + Decl.sizes params + 1)
      (a := enterBody k n d params body ((a.place n .function).openHead k d params false))
      (henter.currentBlock ▸ hinside) (by rw [henter.nextBlock]; exact Nat.succ_pos _)
    simp only [exitBlock, setSymbols, hbody, queues_enterBody]
    simp
  | prototype d paren params semicolon =>
    rw [analyze, declared, List.map_nil, List.append_nil]
    simp [exitBlock, setSymbols]
  | stmt s => exact Stmt.globals_outside s k hblock hnext

theorem globals_queuedAll (is : List Item) (k : Nat) {a : Analysis} (hblock : a.symbols.currentBlock = globalBlock)
    (hnext : 0 < a.symbols.nextBlock) :
    (analyzeAll k is a).queues.globals.toList = a.queues.globals.toList ++ (declaredAll k is).map Decl.queueNode := by
  induction is generalizing k a with
  | nil => simp [analyzeAll, declaredAll]
  | cons i is ih =>
    have hi := i.opens_analyze k a
    rw [analyzeAll, ih (k + i.size) (hi.currentBlock ▸ hblock) (by rw [hi.nextBlock]; omega),
      globals_queued i k hblock hnext, declaredAll, List.map_append, List.append_assoc]

/-- The structs among items, with the numbers of their first nodes. -/
def structs (k : Nat) (is : List Item) : List (Nat × Item) := (placed k is).filter fun p => !p.2.tags.isEmpty

theorem structs_queued {is : List Item} {k : Nat} {a : Analysis} (hlog : (analyzeAll k is a).log = a.log) :
    (analyzeAll k is a).queues.structs.toList = a.queues.structs.toList ++ (structs k is).map fun p => ⟨p.1⟩ := by
  induction is generalizing k a with
  | nil => simp [analyzeAll, structs, placed]
  | cons i is ih =>
    rw [analyzeAll] at hlog ⊢
    obtain ⟨hi, his⟩ := (i.analyze_effect k a).quiet (analyzeAll_effect is (k + i.size) _) hlog
    rw [ih his]
    cases i with
    | struct mark tag fields =>
      rw [analyze, (Decl.calm_placeAll ..).log, log_place, ← log_place a ⟨k⟩ .struct] at hi
      rw [analyze, Decl.queues_placeAll, queues_place, queues_defineStructAs_of_quiet hi, queues_place]
      simp [structs, placed, tags]
    | function d paren params brace body =>
      obtain ⟨q, g, hq⟩ := queues_function d paren brace params body k a
      rw [hq]
      rfl
    | prototype d paren params semicolon =>
      have hq : ((Item.prototype d paren params semicolon).analyze k a).queues = a.queues := by
        rw [analyze]
        simp [exitBlock, setSymbols]
      rw [hq]
      rfl
    | stmt s =>
      obtain ⟨q, g, hq⟩ := s.queues_analyze k a
      rw [analyze, hq]
      rfl

end Item

end Queues

section Emitted

variable {t : Tree}

theorem Stmt.shows_declared (s : Stmt) {p : Option NodeId} {k : Nat} (h : t.Shows p k s.sapling) {q : Nat × Decl}
    (hq : q ∈ s.declared k) : ∃ p' equals init,
      t.Shows p' q.1 (Stmt.varDecl q.2 equals init).sapling := by
  cases s with
  | block | empty | returnValue | returnVoid | expr => cases hq
  | varDecl d equals init =>
    obtain rfl := List.mem_singleton.mp hq
    exact ⟨p, equals, init, h⟩
  | whileLoop mark cond body => exact Stmt.shows_declared body (Stmt.shows_whileLoop.mp h).2.2 hq
  | ifThen mark cond yes => exact Stmt.shows_declared yes (Stmt.shows_ifThen.mp h).2.2 hq
  | ifElse mark cond yes no =>
    obtain ⟨-, -, hyes, hno⟩ := Stmt.shows_ifElse.mp h
    rw [declared] at hq
    rcases List.mem_append.mp hq with hq | hq
    · exact Stmt.shows_declared yes hyes hq
    · exact Stmt.shows_declared no hno hq

theorem Item.shows_declaredAll {is : List Item} {p : Option NodeId} {k : Nat} (h : t.ShowsAll p k (is.map sapling)) {q : Nat × Decl}
    (hq : q ∈ declaredAll k is) : ∃ p' equals init, t.Shows p' q.1 (Stmt.varDecl q.2 equals init).sapling := by
  induction is generalizing k with
  | nil => cases hq
  | cons i is ih =>
    obtain ⟨hi, his⟩ := h
    rcases List.mem_append.mp hq with hq | hq
    · cases i with
      | stmt s => exact s.shows_declared hi hq
      | struct | function | prototype => cases hq
    · exact ih his hq

theorem stringSlots_registers {found slots : List StringSlot} {spellings : List String} {next next' : Nat}
    (h : stringSlots found spellings next = .ok (slots, next')) (hnodup : (found.map StringSlot.register).Nodup)
    (hfound : ∀ s ∈ found, s.register.number < next) :
    (slots.map StringSlot.register).Nodup := by
  induction spellings generalizing found next with
  | nil =>
    cases h
    exact hnodup
  | cons spelling spellings ih =>
    rw [stringSlots] at h
    split at h
    · exact ih h hnodup hfound
    · obtain ⟨following, hfollowing, h⟩ := bind_eq_ok_iff.mp h
      obtain ⟨-, rfl⟩ := countUp_eq_ok_iff.mp hfollowing
      refine ih h ?_ fun s hs => ?_
      · rw [List.map_append]
        refine List.nodup_append.mpr ⟨hnodup, by simp, ?_⟩
        intro r hr r' hr' heq
        obtain ⟨s, hs, rfl⟩ := List.mem_map.mp hr
        have hnumber := hfound s hs
        rw [heq, List.mem_singleton.mp hr'] at hnumber
        exact Nat.lt_irrefl _ hnumber
      · rcases List.mem_append.mp hs with hs | hs
        · exact Nat.lt_succ_of_lt (hfound s hs)
        · rw [List.mem_singleton.mp hs]
          exact Nat.lt_succ_self _

theorem Stmt.settled_declared (s : Stmt) {b : Analysis} {k : Nat} (h : s.Settled b k) {q : Nat × Decl} (hq : q ∈ s.declared k) :
    q.2.Settled b q.1 := by
  cases s with
  | block | empty | returnValue | returnVoid | expr => cases hq
  | varDecl d equals init =>
    rw [Settled] at h
    obtain rfl := List.mem_singleton.mp hq
    exact h.1
  | whileLoop mark cond body | ifThen mark cond body =>
    rw [Settled] at h
    exact Stmt.settled_declared body h.2 hq
  | ifElse mark cond yes no =>
    rw [Settled] at h
    rw [declared] at hq
    rcases List.mem_append.mp hq with hq | hq
    · exact Stmt.settled_declared yes h.2.1 hq
    · exact Stmt.settled_declared no h.2.2 hq

theorem Item.settled_declaredAll {is : List Item} {b : Analysis} {k : Nat} (h : SettledAll b k is) {q : Nat × Decl}
    (hq : q ∈ declaredAll k is) : q.2.Settled b q.1 := by
  induction is generalizing k with
  | nil => cases hq
  | cons i is ih =>
    rcases List.mem_append.mp hq with hq | hq
    · cases i with
      | stmt s => exact s.settled_declared h.1 hq
      | struct | function | prototype => cases hq
    · exact ih h.2 hq

theorem Decl.params_of_lowerParams {c : Context} {ds : List Decl} {k : Nat} {params : List (Storage × Variable)}
    (h : SettledAll c.analysis k ds) (hparams : Decl.forEach (Decl.lowerParam c) k ds = .ok params) :
    params.map (fun p => (p.1, p.2.name)) = ds.map fun d => (.ofType d.type, d.name.text) := by
  induction ds generalizing k params with
  | nil =>
    cases hparams
    rfl
  | cons d ds ih =>
    rw [forEach, lowerParam, Context.typeOf_of_settled h.1.2, ok_bind] at hparams
    obtain ⟨first, hfirst, hparams⟩ := bind_eq_ok_iff.mp hparams
    obtain ⟨rest, hrest, hparams⟩ := bind_eq_ok_iff.mp hparams
    cases hfirst
    cases hparams
    rw [List.map_cons, List.map_cons, ih h.2 hrest]
    rfl

theorem Item.header_of_emittedAs {c : Context} {p : Nat × Item} {f : Function} (h : EmittedAs c p f) :
    p.2.header? = some f.header := by
  obtain ⟨hsettled, d, paren, params, brace, body, next, next', hitem, hlower⟩ := h
  rw [hitem] at hsettled ⊢
  obtain ⟨hresult, hparams, -⟩ := hsettled
  rw [Item.lowerFunction, Context.typeOf_of_settled hresult, ok_bind] at hlower
  obtain ⟨lowered, hlowered, hlower⟩ := bind_eq_ok_iff.mp hlower
  obtain ⟨emitted, -, hlower⟩ := bind_eq_ok_iff.mp hlower
  cases hlower
  rw [header?, Function.header, Decl.params_of_lowerParams hparams hlowered]

theorem Decl.lowerFields_eq_ok {c : Context} {ds : List Decl} {k : Nat} (h : FieldsSettled c.analysis k ds) :
    Decl.forEach (Decl.lowerField c) k ds = .ok (ds.map fun d => (.ofType d.type, d.name.text)) := by
  induction ds generalizing k with
  | nil => rfl
  | cons d ds ih =>
    rw [forEach, lowerField, Context.typeOf_of_settled h.1.2, ih h.2]
    rfl

namespace Item

theorem tags_records (is : List Item) : (is.filterMap record?).map (·.tag) = is.flatMap tags := by
  induction is with
  | nil => rfl
  | cons i is ih =>
    cases i with
    | struct mark tag fields => exact congrArg (tag.text :: ·) ih
    | function | prototype | stmt => exact ih

end Item

theorem filterMap_of_forall₂ {α β : Type} {f : α → Option β} {xs : List α} {ys : List β}
    (h : List.Forall₂ (fun x y => f x = some y) xs ys) : xs.filterMap f = ys := by
  induction h with
  | nil => rfl
  | cons hx _ ih => rw [List.filterMap_cons, hx, ih]

end Emitted

namespace Oil

/-- The names that a module defines at its top level: string slots, global variables, functions and the entry. -/
def Module.names (m : Module) : List String :=
  m.strings.map (·.register.text) ++ (m.globals.map (globalName ·.name) ++ m.functions.map (globalName ·.name)) ++
    [globalName entryName]

theorem globalName_inj {x y : String} (h : globalName x = globalName y) : x = y := (String.append_right_inj _).mp h

theorem Register.text_ne_globalName (r : Register) (x : String) : r.text ≠ globalName x :=
  r.text_ne_variable ⟨x, globalBlock⟩

end Oil

namespace Emission

variable {name text : String} {m : Module} (e : Emission name text m)

include e

theorem globals_eq : m.globals = (Item.declaredAll 1 e.items).map fun p => p.2.global := by
  have hqueue : e.analysis.queues.globals.toList = (Item.declaredAll 1 e.items).map Decl.queueNode := by
    rw [analysis, Program.analyze, Item.globals_queuedAll e.items 1 (by rw [Analysis.symbols_place]; rfl)
      (by rw [Analysis.symbols_place]; exact Nat.one_pos), Analysis.queues_place]
    rfl
  have hall := forall₂_of_mapM e.parts.globals
  rw [hqueue, List.forall₂_map_left_iff] at hall
  refine List.forall₂_eq_eq_eq ▸ List.forall₂_map_right_iff.mpr ?_
  refine (((List.forall₂_and_left _ _).mpr ⟨fun p hp => hp, hall⟩).imp ?_).flip
  rintro p g ⟨hp, hg⟩
  obtain ⟨p', equals, init, hshown⟩ := Item.shows_declaredAll e.shows_items hp
  have hsettled := Item.settled_declaredAll e.settled hp
  rw [Decl.queueNode, globalVariable_eq_lower (c := { tree := e.tree, analysis := e.analysis }) hshown,
    Context.typeOf_of_settled hsettled.2] at hg
  cases hg
  rfl

theorem names_globals : m.globals.map (·.name) = (Item.declaredAll 1 e.items).map fun p => p.2.name.text := by
  rw [e.globals_eq, List.map_map]
  rfl

theorem headers_eq : m.functions.map Function.header = e.items.filterMap Item.header? := by
  have hnone (i : Item) (hi : i.isFunction = false) : i.header? = none := by
    cases i with
    | function => cases hi
    | struct | prototype | stmt => rfl
  rw [← Item.filterMap_placed hnone 1, ← functionItems]
  refine (filterMap_of_forall₂ (List.forall₂_map_right_iff.mpr ?_)).symm
  exact e.functions_emitted.imp fun _ _ => Item.header_of_emittedAs

theorem names_functions : m.functions.map (·.name) = e.items.filterMap Item.functionName? := by
  have hnames := congrArg (List.map FunctionHeader.name) e.headers_eq
  rw [List.map_map, List.map_filterMap] at hnames
  refine hnames.trans (List.filterMap_congr fun i _ => ?_)
  cases i <;> rfl

theorem structs_eq : m.structs = e.items.filterMap Item.record? := by
  have hqueue : e.analysis.queues.structs.toList = (Item.structs 1 e.items).map fun p => ⟨p.1⟩ := by
    refine (Item.structs_queued (a := Analysis.place .root .root {}) e.quiet).trans ?_
    rw [Analysis.queues_place]
    rfl
  have hall := forall₂_of_mapM e.parts.structs
  rw [hqueue] at hall
  have hrecords : List.Forall₂ (fun p record => p.2.record? = some record) (Item.structs 1 e.items) m.structs := by
    refine ((List.forall₂_and_left _ _).mpr ⟨fun p hp => hp, List.forall₂_map_left_iff.mp hall⟩).imp ?_
    rintro ⟨j, i⟩ record ⟨hp, hrecord⟩
    obtain ⟨hplaced, htags⟩ := List.mem_filter.mp hp
    have hshown := Item.shows_of_mem_placed e.shows_items hplaced
    have hsettled := Item.settled_of_mem_placed e.settled hplaced
    cases i with
    | struct mark tag fields =>
      let c : Context := { tree := e.tree, analysis := e.analysis }
      have hfields : Decl.FieldsSettled c.analysis (j + 2) fields := hsettled
      rw [structRecord_eq_lower (c := c) hshown, Decl.lowerFields_eq_ok hfields] at hrecord
      cases hrecord
      rfl
    | function | prototype | stmt => cases htags
  have hnone (i : Item) (hi : (!i.tags.isEmpty) = false) : i.record? = none := by
    cases i with
    | struct => cases hi
    | function | prototype | stmt => rfl
  rw [← Item.filterMap_placed hnone 1]
  exact (filterMap_of_forall₂ hrecords).symm

theorem nodup_tags : (m.structs.map (·.tag)).Nodup := by
  obtain ⟨Γ, hok⟩ := e.wellFormed
  rw [e.structs_eq, Item.tags_records]
  exact (Item.nodup_tags hok).nodup

theorem nodup_fields {record : StructRecord} (h : record ∈ m.structs) : (record.fields.map (·.2)).Nodup := by
  obtain ⟨Γ, hok⟩ := e.wellFormed
  rw [e.structs_eq] at h
  obtain ⟨i, hi, hrecord⟩ := List.mem_filterMap.mp h
  obtain ⟨Δ, Δ', hstruct⟩ := Item.ok_of_mem hok hi
  cases i with
  | struct mark tag fields =>
    cases hrecord
    cases hstruct with
    | struct _ hdistinct _ =>
      rw [List.map_map]
      exact hdistinct
  | function | prototype | stmt => cases hrecord

theorem nodup_globals_functions : (m.globals.map (·.name) ++ m.functions.map (·.name)).Nodup := by
  obtain ⟨Γ, hok⟩ := e.wellFormed
  rw [e.names_globals, e.names_functions]
  exact (Item.declaresAll_perm e.items 1).nodup_iff.mpr (Item.nodup_declaresAll hok 1).nodup

theorem nodup_strings : (m.strings.map (·.register.text)).Nodup := by
  obtain ⟨next, hstrings⟩ := e.parts.strings
  have hregisters := stringSlots_registers hstrings .nil nofun
  have h := hregisters.map fun r r' => Register.text_inj
  rwa [List.map_map] at h

theorem nodup_names_iff : m.names.Nodup ↔ entryName ∉ m.globals.map (·.name) ++ m.functions.map (·.name) := by
  have hnames : m.names = m.strings.map (·.register.text) ++
      (m.globals.map (·.name) ++ m.functions.map (·.name) ++ [entryName]).map globalName := by
    simp [Module.names, Function.comp_def]
  have hapart : ∀ x ∈ m.strings.map (·.register.text),
      ∀ y ∈ (m.globals.map (·.name) ++ m.functions.map (·.name) ++ [entryName]).map globalName, x ≠ y := by
    intro x hx y hy
    obtain ⟨slot, -, rfl⟩ := List.mem_map.mp hx
    obtain ⟨z, -, rfl⟩ := List.mem_map.mp hy
    exact slot.register.text_ne_globalName z
  rw [hnames, List.nodup_append, List.nodup_map_iff fun x y => globalName_inj, List.nodup_append]
  constructor
  · rintro ⟨-, ⟨-, -, hentry⟩, -⟩ hmem
    exact hentry _ hmem _ (List.mem_singleton_self _) rfl
  · intro hentry
    refine ⟨e.nodup_strings, ⟨e.nodup_globals_functions, List.nodup_singleton _, ?_⟩, hapart⟩
    rintro x hx y hy rfl
    exact hentry (List.mem_singleton.mp hy ▸ hx)

end Emission

theorem Oil.fieldName_inj (tag : String) {x y : String} (h : fieldName tag x = fieldName tag y) : x = y :=
  (String.append_right_inj _).mp h

/-- In the module of a text the struct tags are different, and so are the fields of each struct. The string slots, the
    global variables, the functions and the entry have different names unless a variable or a function takes the name
    of the entry. -/
theorem Compilation.names_distinct_iff {name text : String} {last : Phase} {c : Compilation} {m : Module}
    (h : ofText name text last = .ok c) (hm : c.oil = some m) :
    (m.names.Nodup ↔ entryName ∉ m.globals.map (·.name) ++ m.functions.map (·.name)) ∧
      (m.structs.map (·.tag)).Nodup ∧
      ∀ record ∈ m.structs, (record.fields.map fun field => fieldName record.tag field.2).Nodup := by
  obtain ⟨e⟩ := emission_of_oil h hm
  refine ⟨e.nodup_names_iff, e.nodup_tags, fun record hrecord => ?_⟩
  have hfields := (e.nodup_fields hrecord).map fun x y => fieldName_inj record.tag
  rwa [List.map_map] at hfields

/-- Each kind of name occurs, and a struct and one of its fields share names with a function and a variable. -/
theorem Compilation.names_distinct_iff_program :
    ∃ c m, ofText "t" ("struct f \x7b int x; f y; \x7d\nstring x = \"a\";\nint f(int x);\n" ++
        "int f(int x) \x7b return x; \x7d\nif (x == \"b\") int s1 = f(1);\n") .emit = .ok c ∧ c.oil = some m ∧
      m.names = ["s1", "s2", "__x", "__s1", "__f", "__ocmain"] ∧
      m.structs.map (fun record => record.fields.map fun field => fieldName record.tag field.2) = [["f_f_x", "f_f_y"]] ∧
      (m.names.Nodup ↔ entryName ∉ m.globals.map (·.name) ++ m.functions.map (·.name)) ∧
      (m.structs.map (·.tag)).Nodup ∧
      ∀ record ∈ m.structs, (record.fields.map fun field => fieldName record.tag field.2).Nodup := by
  exact exists_module_and_and (by decide +kernel) names_distinct_iff

/-- A variable may take the name of the entry. -/
theorem Compilation.names_clash_entry :
    ∃ c m, ofText "t" "int ocmain = 1;" .emit = .ok c ∧ c.oil = some m ∧ m.names = ["__ocmain", "__ocmain"] := by
  exact exists_module (by decide +kernel)

end OcCompiler
