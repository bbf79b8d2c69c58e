import OcCompiler.Proofs.NamesKept
import OcCompiler.Proofs.Scoping

/-! While the analysis goes through a program, its open scopes bind exactly what the declarations so far bind in the
    blocks around. Here is what each single step keeps. -/

namespace OcCompiler

open Analysis NameStep

/-! ### What the open scopes bind -/

theorem Attributes.settled_eq {a : Attributes} (h : a.roles.prototype = false) : a.settled = a := by
  obtain ⟨type, roles⟩ := a
  obtain ⟨function, prototype, rest⟩ := roles
  cases h
  rfl

namespace NameDecl

variable {ds : List NameDecl} {d e : NameDecl} {block : Nat} {blocks : List Nat} {x : String}

theorem isOf_iff : d.isOf block x = true ↔ d.block = block ∧ d.name.text = x := by simp [isOf]

theorem first_mem (h : first ds block x = some d) : d ∈ ds ∧ d.block = block ∧ d.name.text = x :=
  ⟨List.mem_of_find?_eq_some h, isOf_iff.mp (List.find?_some h)⟩

theorem binding_mem (h : binding ds blocks x = some d) : d ∈ ds := by
  obtain ⟨block, -, h⟩ := List.exists_of_findSome?_eq_some h
  exact (first_mem h).1

theorem text_of_binding (h : binding ds blocks x = some d) : d.name.text = x := by
  obtain ⟨block, -, h⟩ := List.exists_of_findSome?_eq_some h
  exact (first_mem h).2.2

theorem first_append_singleton :
    first (ds ++ [e]) block x = (first ds block x).or (if e.isOf block x then some e else none) := by
  rw [first, List.find?_append]
  congr 1
  rw [List.find?_singleton]

theorem attrsAfter_append_singleton : d.attrsAfter (ds ++ [e]) =
    if e.isDefinition && e.isOf d.block d.name.text then d.attrs.settled else d.attrsAfter ds := by
  simp only [attrsAfter, List.any_append, List.any_cons, List.any_nil, Bool.or_false]
  cases ds.any fun e => e.isDefinition && e.isOf d.block d.name.text <;>
    cases e.isDefinition && e.isOf d.block d.name.text <;> rfl

theorem settled_attrsAfter : (d.attrsAfter ds).settled = d.attrs.settled := by
  rw [attrsAfter]
  split <;> rfl

end NameDecl

namespace Analysis

/-- The symbol stands for a declaration: it is the one that the declaring node has, and it says where that is. -/
structure IsSymbolOf (a : Analysis) (d : NameDecl) (id : SymbolId) : Prop where
  node : (a.decoration d.node).symbol = some id
  inTable : id.index < a.symbols.size
  name : (a.symbols.get id).name = d.name.text
  loc : (a.symbols.get id).loc = d.name.loc
  block : (a.symbols.get id).block = d.block
  bindable : (a.symbols.get id).attrs.roles.isBindable = true

/-- The node that declares a name has a symbol of its own, whether the name was free or not, and says the block. -/
def Marked (a : Analysis) (d : NameDecl) : Prop := (a.decoration d.node).block = d.block ∧ ∃ id, a.IsSymbolOf d id

/-- The symbol stands for a declaration and has the attributes that this has after the declarations `ds`. A pending
    symbol is a prototype whose definition is being read. -/
structure Introduced (a : Analysis) (pending : Option SymbolId) (ds : List NameDecl) (d : NameDecl) (id : SymbolId) : Prop
    extends a.IsSymbolOf d id where
  attrs : (if pending = some id then (a.symbols.get id).attrs.settled else (a.symbols.get id).attrs) = d.attrsAfter ds

/-- The node of a name in use says what the name stands for after the declarations `ds`: it has the symbol, the block and
    the attributes of the declaration, or none at all. -/
def Resolves (a : Analysis) (ds : List NameDecl) (blocks : List Nat) (x : Lexeme) (n : NodeId) : Prop :=
  match NameDecl.binding ds blocks x.text with
  | some d => ∃ id, a.decoration n = ⟨d.attrsAfter ds, d.block, some id⟩ ∧ a.IsSymbolOf d id
  | none => a.decoration n = { block := blocks.headD globalBlock }

/-- The analysis has gone through `steps`. The open blocks are `block` and, around it, `outer`. -/
structure Tracks (old : List Diagnostic) (pending : Option SymbolId) (block : Nat) (outer : List Nat) (next : Nat)
    (steps : List NameStep) (a : Analysis) : Prop where
  sound : a.symbols.Sound
  openBlocks : a.symbols.openBlocks = block :: outer
  nextBlock : a.symbols.nextBlock = next
  below : ∀ d ∈ declared steps, d.block < next
  scopes : ∀ c ∈ a.symbols.openScopes, ∀ x,
    Option.Rel (a.Introduced pending (declared steps)) (NameDecl.first (declared steps) c.block x) (c.find? x)
  resolved : ∀ before blocks x n after, steps = before ++ .refer blocks x n :: after →
    a.Resolves (declared before) blocks x n
  marked : ∀ d ∈ declared steps, a.Marked d
  undeclared : Log.undeclared a.log = old ++ (unbound [] steps).map SemanticCause.undeclared.about

/-- The node of a step is not decorated anew. One that declares a name matters only if it has its symbol. -/
def Spared (a b : Analysis) : NameStep → Prop
  | .declare d => (a.decoration d.node).symbol.isSome = true → b.decoration d.node = a.decoration d.node
  | .refer _ _ n => b.decoration n = a.decoration n

section Stable

variable {a b : Analysis} {k m : Nat} {d : NameDecl} {id : SymbolId} {steps : List NameStep}
variable {ds : List NameDecl}

theorem Effect.spared (heff : Effect k m a b) (hout : Outside k m steps) : ∀ s ∈ steps, a.Spared b s := by
  intro s hs
  have hdecor := heff.decor s.node (hout s hs)
  cases s with
  | declare d => exact fun _ => hdecor
  | refer blocks x n => exact hdecor

theorem IsSymbolOf.spared (h : a.IsSymbolOf d id) (hevolves : a.symbols.Evolves b.symbols) (hd : a.Spared b (.declare d)) :
    b.IsSymbolOf d id := by
  have hkeeps := hevolves.keeps id h.inTable
  constructor
  · rw [hd (by rw [h.node]; rfl), h.node]
  · exact Nat.lt_of_lt_of_le h.inTable hevolves.size
  · rw [hkeeps.name, h.name]
  · rw [hkeeps.loc h.bindable, h.loc]
  · rw [hkeeps.block h.bindable, h.block]
  · rw [hkeeps.bindable, h.bindable]

theorem Marked.spared (h : a.Marked d) (hevolves : a.symbols.Evolves b.symbols) (hd : a.Spared b (.declare d)) :
    b.Marked d := by
  obtain ⟨hblock, id, hid⟩ := h
  refine ⟨?_, id, hid.spared hevolves hd⟩
  rw [hd (by rw [hid.node]; rfl), hblock]

theorem IsSymbolOf.effect (h : a.IsSymbolOf d id) (hsound : a.symbols.Sound) (heff : Effect k m a b)
    (hnode : d.node.index < k ∨ m ≤ d.node.index) : b.IsSymbolOf d id :=
  h.spared (heff.symbols hsound) fun _ => heff.decor _ hnode

theorem spared_declared (h : ∀ s ∈ steps, a.Spared b s) : ∀ d ∈ declared steps, a.Spared b (.declare d) := by
  intro d hd
  obtain ⟨step, hstep, hdeclared⟩ := List.mem_filterMap.mp hd
  cases step with
  | declare e =>
    cases hdeclared
    exact h _ hstep
  | refer => cases hdeclared

theorem Resolves.spared {blocks : List Nat} {x : Lexeme} {n : NodeId} (h : a.Resolves ds blocks x n)
    (hevolves : a.symbols.Evolves b.symbols) (hn : b.decoration n = a.decoration n)
    (hds : ∀ d ∈ ds, a.Spared b (.declare d)) : b.Resolves ds blocks x n := by
  unfold Resolves at h ⊢
  cases hbinding : NameDecl.binding ds blocks x.text with
  | none =>
    rw [hbinding] at h
    exact hn.trans h
  | some d =>
    rw [hbinding] at h
    obtain ⟨id, hdecor, hsymbol⟩ := h
    exact ⟨id, hn.trans hdecor, hsymbol.spared hevolves (hds d (NameDecl.binding_mem hbinding))⟩

theorem Introduced.spared {pending : Option SymbolId} (h : a.Introduced pending ds d id)
    (hevolves : a.symbols.Evolves b.symbols) (hattrs : (b.symbols.get id).attrs = (a.symbols.get id).attrs)
    (hd : a.Spared b (.declare d)) : b.Introduced pending ds d id :=
  ⟨h.toIsSymbolOf.spared hevolves hd, by rw [hattrs, h.attrs]⟩

end Stable

theorem rel_imp {α β : Type} {R S : α → β → Prop} {x : Option α} {y : Option β} (h : Option.Rel R x y)
    (himp : ∀ a b, x = some a → y = some b → R a b → S a b) : Option.Rel S x y := by
  cases h with
  | some h => exact .some (himp _ _ rfl rfl h)
  | none => exact .none

namespace Tracks

variable {blocks : List Nat} {n : NodeId} {x : Lexeme} {d : NameDecl}
variable {old : List Diagnostic} {pending : Option SymbolId} {block next : Nat} {outer : List Nat} {steps : List NameStep}
  {a b : Analysis} {k m : Nat}

theorem resolved_spared (h : Tracks old pending block outer next steps a) (hevolves : a.symbols.Evolves b.symbols)
    (hspared : ∀ s ∈ steps, a.Spared b s) {before after : List NameStep}
    (hsteps : steps = before ++ .refer blocks x n :: after) : b.Resolves (declared before) blocks x n := by
  subst hsteps
  have hrefer : a.Spared b (.refer blocks x n) := hspared _ (List.mem_append_right _ List.mem_cons_self)
  exact (h.resolved _ _ _ _ _ rfl).spared hevolves hrefer
    (spared_declared fun s hs => hspared s (List.mem_append_left _ hs))

theorem marked_spared (h : Tracks old pending block outer next steps a) (hevolves : a.symbols.Evolves b.symbols)
    (hspared : ∀ s ∈ steps, a.Spared b s) : ∀ d ∈ declared steps, b.Marked d :=
  fun d hd => (h.marked d hd).spared hevolves (spared_declared hspared d hd)

theorem marked_effect (h : Tracks old pending block outer next steps a) (heff : Effect k m a b) (hout : Outside k m steps) :
    ∀ d ∈ declared steps, b.Marked d := h.marked_spared (heff.symbols h.sound) (heff.spared hout)

theorem resolved_effect (h : Tracks old pending block outer next steps a) (heff : Effect k m a b) (hout : Outside k m steps)
    {before after : List NameStep}
    (hsteps : steps = before ++ .refer blocks x n :: after) : b.Resolves (declared before) blocks x n :=
  h.resolved_spared (heff.symbols h.sound) (heff.spared hout) hsteps

theorem neutral_spared (h : Tracks old pending block outer next steps a) (hn : Neutral k m a b)
    (hspared : ∀ s ∈ steps, a.Spared b s) : Tracks old pending block outer next steps b where
  sound := (hn.symbols h.sound).sound
  openBlocks := by rw [SymbolTable.openBlocks, hn.openScopes]; exact h.openBlocks
  nextBlock := hn.nextBlock.trans h.nextBlock
  below := h.below
  scopes c hc x := by
    refine rel_imp (h.scopes c (hn.openScopes ▸ hc) x) fun d id hd _ hid => ?_
    exact hid.spared (hn.symbols h.sound) (hn.attrs h.sound id hid.inTable)
      (spared_declared hspared d (NameDecl.first_mem hd).1)
  resolved _ _ _ _ _ hsteps := h.resolved_spared (hn.symbols h.sound) hspared hsteps
  marked := h.marked_spared (hn.symbols h.sound) hspared
  undeclared := hn.undeclared.trans h.undeclared

theorem neutral (h : Tracks old pending block outer next steps a) (hn : Neutral k m a b) (hout : Outside k m steps) :
    Tracks old pending block outer next steps b := h.neutral_spared hn (hn.toEffect.spared hout)

theorem rel_binding {R : NameDecl → SymbolId → Prop} {ds : List NameDecl} {x : String} {cs : List Scope}
    (h : ∀ c ∈ cs, Option.Rel R (NameDecl.first ds c.block x) (c.find? x)) :
    Option.Rel R (NameDecl.binding ds (cs.map Scope.block) x) (cs.findSome? (·.find? x)) := by
  induction cs with
  | nil => exact .none
  | cons c cs ih =>
    obtain ⟨hc, hcs⟩ := List.forall_mem_cons.mp h
    rw [NameDecl.binding, List.map_cons, List.findSome?_cons, List.findSome?_cons]
    generalize NameDecl.first ds c.block x = d at hc
    generalize c.find? x = id at hc
    cases hc with
    | some hid => exact .some hid
    | none => exact ih hcs

theorem declared_append_refer :
    declared (steps ++ [.refer blocks x n]) = declared steps := by
  simp [declared, declared?]

theorem unbound_append (before : List NameDecl) (steps steps' : List NameStep) :
    unbound before (steps ++ steps') = unbound before steps ++ unbound (before ++ declared steps) steps' := by
  induction steps generalizing before with
  | nil => simp [unbound, declared]
  | cons s steps ih =>
    cases s with
    | declare d => simp [unbound, declared, declared?, ih]
    | refer blocks x n =>
      simp only [List.cons_append, unbound, ih]
      split <;> rfl

theorem append_singleton_eq {s t : NameStep} {before after : List NameStep} (h : steps ++ [s] = before ++ t :: after) :
    (after = [] ∧ s = t ∧ steps = before) ∨ ∃ rest, after = rest ++ [s] ∧ steps = before ++ t :: rest := by
  rcases List.eq_nil_or_concat after with rfl | ⟨rest, u, rfl⟩
  · obtain ⟨hbefore, hlast⟩ := List.append_inj' h rfl
    exact .inl ⟨rfl, List.singleton_inj.mp hlast, hbefore⟩
  · rw [List.concat_eq_append, ← List.cons_append, ← List.append_assoc] at h
    obtain ⟨hbefore, hlast⟩ := List.append_inj' h rfl
    exact .inr ⟨rest, by rw [List.concat_eq_append, List.singleton_inj.mp hlast], hbefore⟩

theorem refer (h : Tracks old none block outer next steps a) (x : Lexeme)
    (hout : Outside n.index (n.index + 1) steps) :
    Tracks old none block outer next (steps ++ [.refer (block :: outer) x n]) (a.refer n x) := by
  have heff : Effect n.index (n.index + 1) a (a.refer n x) := effect_refer a x (Nat.le_refl _) (Nat.lt_succ_self _)
  have hlookup : Option.Rel (a.Introduced none (declared steps)) (NameDecl.binding (declared steps) (block :: outer) x.text)
      (a.symbols.lookup x.text) := by
    rw [← h.openBlocks]
    exact rel_binding fun c hc => h.scopes c hc x.text
  have hnew : (a.refer n x).Resolves (declared steps) (block :: outer) x n ∧
      Log.undeclared (a.refer n x).log = Log.undeclared a.log ++
        (unbound (declared steps) [.refer (block :: outer) x n]).map SemanticCause.undeclared.about := by
    unfold Resolves unbound unbound Analysis.refer
    generalize hbinding : NameDecl.binding (declared steps) (block :: outer) x.text = found at hlookup
    generalize a.symbols.lookup x.text = id at hlookup
    cases hlookup with
    | none =>
      have hblock : a.symbols.currentBlock = block := (List.cons.inj h.openBlocks).1
      refine ⟨?_, ?_⟩
      · show (Analysis.decorate a n _).decoration n = _
        rw [decoration_decorate, if_pos rfl, hblock]
        rfl
      · simp [Log.undeclared, report, decorate, SemanticCause.about, Diagnostic.isUndeclared]
    | @some d id hid =>
      have hattrs : (a.symbols.get id).attrs = d.attrsAfter (declared steps) := hid.attrs
      have hdecorate : Effect n.index (n.index + 1) a (a.decorate n _) :=
        effect_decorate a ⟨(a.symbols.get id).attrs, (a.symbols.get id).block, some id⟩ (Nat.le_refl _) (Nat.lt_succ_self _)
      have hd := spared_declared (hdecorate.spared hout) d (NameDecl.binding_mem hbinding)
      refine ⟨⟨id, ?_, hid.toIsSymbolOf.spared (hdecorate.symbols h.sound) hd⟩, ?_⟩
      · rw [decoration_decorate, if_pos rfl, hattrs, hid.block]
      · simp [decorate]
  constructor
  · exact (heff.symbols h.sound).sound
  · rw [symbols_refer, h.openBlocks]
  · rw [symbols_refer, h.nextBlock]
  · rw [declared_append_refer]
    exact h.below
  · intro c hc y
    rw [symbols_refer] at hc
    rw [declared_append_refer]
    refine rel_imp (h.scopes c hc y) fun d id hd _ hid => ?_
    exact hid.spared (heff.symbols h.sound) (by rw [symbols_refer])
      (spared_declared (heff.spared hout) d (NameDecl.first_mem hd).1)
  · intro before blocks y m after hsteps
    rcases append_singleton_eq hsteps with ⟨-, heq, rfl⟩ | ⟨rest, -, hsteps⟩
    · cases heq
      exact hnew.1
    · exact h.resolved_effect heff hout hsteps
  · rw [declared_append_refer]
    exact h.marked_effect heff hout
  · rw [hnew.2, h.undeclared, unbound_append, List.map_append, List.append_assoc]
    rfl

theorem enterBlock (h : Tracks old pending block outer next steps a) :
    Tracks old pending next (block :: outer) (next + 1) steps a.enterBlock.2 := by
  have heff : Effect 0 0 a a.enterBlock.2 := effect_enterBlock a
  have hall : Outside 0 0 steps := fun s _ => .inr (Nat.zero_le _)
  constructor
  · exact (heff.symbols h.sound).sound
  · rw [← h.nextBlock, ← h.openBlocks]
    rfl
  · rw [← h.nextBlock]
    rfl
  · exact fun d hd => Nat.lt_succ_of_lt (h.below d hd)
  · intro c hc x
    rcases List.mem_cons.mp hc with rfl | hc
    · have hfirst : NameDecl.first (declared steps) a.symbols.nextBlock x = none := by
        refine List.find?_eq_none.mpr fun d hd hof => ?_
        have hblock := (NameDecl.isOf_iff.mp hof).1
        exact Nat.lt_irrefl _ (h.nextBlock ▸ hblock ▸ h.below d hd)
      show Option.Rel _ (NameDecl.first (declared steps) a.symbols.nextBlock x) none
      rw [hfirst]
      exact .none
    · refine rel_imp (h.scopes c hc x) fun d id hd _ hid => ?_
      exact hid.spared (heff.symbols h.sound) rfl fun _ => rfl
  · exact fun _ _ _ _ _ hsteps => h.resolved_effect heff hall hsteps
  · exact h.marked_effect heff hall
  · exact h.undeclared

theorem exitBlock {around : Nat} (h : Tracks old pending block (around :: outer) next steps a) :
    Tracks old pending around outer next steps a.exitBlock := by
  have heff : Effect 0 0 a a.exitBlock := effect_exitBlock a
  have hall : Outside 0 0 steps := fun s _ => .inr (Nat.zero_le _)
  obtain ⟨c, cs, houter⟩ : ∃ c cs, a.symbols.outer = c :: cs := by
    cases houter : a.symbols.outer with
    | nil =>
      have hblocks := h.openBlocks
      rw [SymbolTable.openBlocks, SymbolTable.openScopes, houter] at hblocks
      cases hblocks
    | cons c cs => exact ⟨c, cs, rfl⟩
  have hexit : a.exitBlock.symbols = { a.symbols with inner := c, outer := cs, archive := a.symbols.archive.push a.symbols.inner } := by
    rw [Analysis.exitBlock, SymbolTable.exitBlock, houter]
    rfl
  have hopen : a.symbols.openScopes = a.symbols.inner :: a.exitBlock.symbols.openScopes := by
    rw [SymbolTable.openScopes, houter, hexit]
    rfl
  constructor
  · exact (heff.symbols h.sound).sound
  · have hblocks := h.openBlocks
    rw [SymbolTable.openBlocks, hopen] at hblocks
    exact (List.cons.inj hblocks).2
  · rw [hexit]
    exact h.nextBlock
  · exact h.below
  · intro c hc x
    refine rel_imp (h.scopes c (hopen ▸ List.mem_cons_of_mem _ hc) x) fun d id hd _ hid => ?_
    exact hid.spared (heff.symbols h.sound) (by rw [hexit]; rfl) fun _ => rfl
  · exact fun _ _ _ _ _ hsteps => h.resolved_effect heff hall hsteps
  · exact h.marked_effect heff hall
  · exact h.undeclared

theorem declared_append_declare : declared (steps ++ [.declare d]) = declared steps ++ [d] := by
  simp [declared, declared?]

theorem declare {pending' : Option SymbolId} (h : Tracks old pending block outer next steps a)
    (heff : Effect 0 0 a b) (hmarked : a.Marked d) (hblock : d.block = block) (hblocks : b.symbols.openBlocks = a.symbols.openBlocks)
    (hnext : b.symbols.nextBlock = a.symbols.nextBlock) (hlog : Log.undeclared b.log = Log.undeclared a.log)
    (hscopes : ∀ c ∈ b.symbols.openScopes, ∀ x, Option.Rel (b.Introduced pending' (declared steps ++ [d]))
      (NameDecl.first (declared steps ++ [d]) c.block x) (c.find? x)) :
    Tracks old pending' block outer next (steps ++ [.declare d]) b := by
  have hall : Outside 0 0 steps := fun s _ => .inr (Nat.zero_le _)
  constructor
  · exact (heff.symbols h.sound).sound
  · rw [hblocks, h.openBlocks]
  · rw [hnext, h.nextBlock]
  · rw [declared_append_declare]
    intro e he
    rcases List.mem_append.mp he with he | he
    · exact h.below e he
    · have hinner := h.sound.below a.symbols.inner a.symbols.mem_scopes_inner
      rw [List.mem_singleton.mp he, hblock, ← h.nextBlock, ← (List.cons.inj h.openBlocks).1]
      exact hinner
  · rw [declared_append_declare]
    exact hscopes
  · intro before blocks x n after hsteps
    rcases append_singleton_eq hsteps with ⟨-, heq, -⟩ | ⟨rest, -, hsteps⟩
    · cases heq
    · exact h.resolved_effect heff hall hsteps
  · rw [declared_append_declare]
    intro e he
    rcases List.mem_append.mp he with he | he
    · exact h.marked_effect heff hall e he
    · rw [List.mem_singleton.mp he]
      exact hmarked.spared (heff.symbols h.sound) fun _ => heff.decor _ (.inr (Nat.zero_le _))
  · rw [hlog, h.undeclared, unbound_append]
    simp [unbound]

theorem nodup_blocks (h : Tracks old pending block outer next steps a) : (block :: outer).Nodup := by
  have hnodup := h.sound.blocks
  rw [SymbolTable.scopes, List.map_append, List.map_reverse] at hnodup
  have hopen := List.nodup_reverse.mp (List.nodup_append.mp hnodup).2.1
  rwa [← h.openBlocks]

theorem first_of_find? (h : Tracks old pending block outer next steps a) {x : String} {id : SymbolId}
    (hfind : a.symbols.inner.find? x = some id) :
    ∃ d, NameDecl.first (declared steps) block x = some d ∧ a.Introduced pending (declared steps) d id := by
  have hrel := h.scopes a.symbols.inner List.mem_cons_self x
  rw [hfind, (List.cons.inj h.openBlocks).1] at hrel
  generalize NameDecl.first (declared steps) block x = found at hrel
  cases hrel with
  | some hid => exact ⟨_, rfl, hid⟩

theorem first_eq_none_of_find? (h : Tracks old pending block outer next steps a) {x : String}
    (hfind : a.symbols.inner.find? x = none) : NameDecl.first (declared steps) block x = none := by
  have hrel := h.scopes a.symbols.inner List.mem_cons_self x
  rw [hfind, (List.cons.inj h.openBlocks).1] at hrel
  generalize NameDecl.first (declared steps) block x = found at hrel
  cases hrel
  rfl

section Bind

variable {d : NameDecl} {id : SymbolId}

theorem introduced_new {ds : List NameDecl} (hid : b.IsSymbolOf d id) (hattrs : (b.symbols.get id).attrs = d.attrs)
    (hfirst : NameDecl.first ds d.block d.name.text = none)
    (hroles : pending = none ∨ d.attrs.roles.prototype = false) : b.Introduced pending (ds ++ [d]) d id := by
  have hany : (ds.any fun e => e.isDefinition && e.isOf d.block d.name.text) = false := by
    refine List.any_eq_false.mpr fun e he hof => ?_
    exact List.find?_eq_none.mp hfirst e he (Bool.and_eq_true_iff.mp hof).2
  have hdefinition : d.attrsAfter (ds ++ [d]) = d.attrs := by
    rw [NameDecl.attrsAfter_append_singleton, NameDecl.attrsAfter, hany]
    split
    · rename_i hsettled
      have hprototype := (Bool.and_eq_true_iff.mp (Bool.and_eq_true_iff.mp hsettled).1).2
      exact Attributes.settled_eq (by simpa using hprototype)
    · rfl
  refine ⟨hid, ?_⟩
  rw [hdefinition, hattrs]
  rcases hroles with rfl | hprototype
  · rfl
  · rw [Attributes.settled_eq hprototype, ite_self]

theorem bind_free {s : SymbolTable} (h : Tracks old pending block outer next steps a) (hmarked : a.Marked d)
    (hid : a.IsSymbolOf d id)
    (hattrs : (a.symbols.get id).attrs = d.attrs) (hblock : d.block = block)
    (hroles : pending = none ∨ d.attrs.roles.prototype = false) (hs : a.symbols.insert d.name.text id = .ok s)
    (heff : Effect 0 0 a (a.setSymbols (s.record s.depth id))) :
    Tracks old pending block outer next (steps ++ [.declare d]) (a.setSymbols (s.record s.depth id)) := by
  unfold SymbolTable.insert at hs
  split at hs
  · cases hs
  rename_i hfree
  cases hs
  have hfirst := h.first_eq_none_of_find? hfree
  have hnodup := h.nodup_blocks
  refine h.declare heff hmarked hblock rfl rfl rfl fun c hc x => ?_
  rw [NameDecl.first_append_singleton]
  -- Other declarations of the same name are in other blocks, so the new one does not define their prototypes.
  have hother {e : NameDecl} {i : SymbolId} (he : NameDecl.first (declared steps) e.block e.name.text = some e)
      (hi : a.Introduced pending (declared steps) e i) :
      (a.setSymbols ({ a.symbols with inner := a.symbols.inner.bind d.name.text id }.record a.symbols.depth id)).Introduced
        pending (declared steps ++ [d]) e i := by
    have hnot : d.isOf e.block e.name.text = false := by
      refine Bool.eq_false_iff.mpr fun hof => ?_
      obtain ⟨hb, hx⟩ := NameDecl.isOf_iff.mp hof
      rw [← hb, ← hx, hblock, hfirst] at he
      cases he
    refine ⟨hi.toIsSymbolOf.effect h.sound heff (.inr (Nat.zero_le _)), ?_⟩
    rw [NameDecl.attrsAfter_append_singleton, hnot, Bool.and_false]
    exact hi.attrs
  rcases List.mem_cons.mp hc with rfl | hc
  · have hrel := h.scopes a.symbols.inner List.mem_cons_self x
    have hinner : a.symbols.inner.block = block := (List.cons.inj h.openBlocks).1
    show Option.Rel _ ((NameDecl.first (declared steps) a.symbols.inner.block x).or
      (if d.isOf a.symbols.inner.block x then some d else none)) ((a.symbols.inner.bind d.name.text id).find? x)
    rw [Scope.find?_bind, hinner]
    rw [hinner] at hrel
    generalize hfound : NameDecl.first (declared steps) block x = found at hrel
    generalize a.symbols.inner.find? x = old at hrel
    cases hrel with
    | @some e i hi =>
      obtain ⟨-, rfl, rfl⟩ := NameDecl.first_mem hfound
      exact .some (hother hfound hi)
    | none =>
      by_cases hx : x = d.name.text
      · rw [if_pos (NameDecl.isOf_iff.mpr ⟨hblock, hx.symm⟩), if_pos hx]
        exact .some (introduced_new (hid.effect h.sound heff (.inr (Nat.zero_le _))) hattrs (hblock ▸ hfirst) hroles)
      · rw [if_neg fun hof => hx (NameDecl.isOf_iff.mp hof).2.symm, if_neg hx]
        exact .none
  · have hrel := h.scopes c (List.mem_cons_of_mem _ hc) x
    have hne : c.block ≠ block := by
      have hmem : c.block ∈ outer := by
        rw [← (List.cons.inj h.openBlocks).2]
        exact List.mem_map_of_mem hc
      rintro heq
      exact (List.nodup_cons.mp hnodup).1 (heq ▸ hmem)
    rw [if_neg fun hof => hne ((NameDecl.isOf_iff.mp hof).1.symm.trans hblock), Option.or_none]
    refine rel_imp hrel fun e i he _ hi => ?_
    obtain ⟨-, hb, rfl⟩ := NameDecl.first_mem he
    exact hother (hb ▸ he) hi

theorem bind_taken {existing : SymbolId} {pending' : Option SymbolId} (h : Tracks old pending block outer next steps a)
    (hmarked : a.Marked d) (hblock : d.block = block) (hfind : a.symbols.inner.find? d.name.text = some existing) (heff : Effect 0 0 a b)
    (hopen : b.symbols.openScopes = a.symbols.openScopes) (hnext : b.symbols.nextBlock = a.symbols.nextBlock)
    (hlog : Log.undeclared b.log = Log.undeclared a.log) (hget : ∀ i, b.symbols.get i = a.symbols.get i)
    (hother : ∀ i, i ≠ existing → (pending' = some i ↔ pending = some i))
    (hattrs : ∀ e, a.Introduced pending (declared steps) e existing →
      (if pending' = some existing then (a.symbols.get existing).attrs.settled else (a.symbols.get existing).attrs) =
        if d.isDefinition then e.attrs.settled else e.attrsAfter (declared steps)) :
    Tracks old pending' block outer next (steps ++ [.declare d]) b := by
  obtain ⟨first, hfirst, hexisting⟩ := h.first_of_find? hfind
  refine h.declare heff hmarked hblock (by rw [SymbolTable.openBlocks, hopen]; rfl) hnext hlog fun c hc x => ?_
  have hsame : NameDecl.first (declared steps ++ [d]) c.block x = NameDecl.first (declared steps) c.block x := by
    rw [NameDecl.first_append_singleton]
    by_cases hof : d.isOf c.block x = true
    · obtain ⟨hb, hx⟩ := NameDecl.isOf_iff.mp hof
      rw [← hb, ← hx, hblock, hfirst]
      rfl
    · rw [if_neg hof, Option.or_none]
  rw [hsame]
  refine rel_imp (h.scopes c (hopen ▸ hc) x) fun e i he _ hi => ?_
  refine ⟨hi.toIsSymbolOf.effect h.sound heff (.inr (Nat.zero_le _)), ?_⟩
  obtain ⟨-, hb, rfl⟩ := NameDecl.first_mem he
  rw [NameDecl.attrsAfter_append_singleton, hget]
  by_cases hi' : i = existing
  · subst hi'
    -- The symbol of the first declaration is that of this block and name.
    obtain ⟨-, hb', hx'⟩ := NameDecl.first_mem hfirst
    have hof : d.isOf e.block e.name.text = true := by
      refine NameDecl.isOf_iff.mpr ⟨?_, ?_⟩
      · rw [← hi.block, hexisting.block, hb', hblock]
      · rw [← hi.name, hexisting.name, hx']
    rw [hof, Bool.and_true]
    exact hattrs e hi
  · have hnot : d.isOf e.block e.name.text = false := by
      refine Bool.eq_false_iff.mpr fun hof => hi' ?_
      obtain ⟨hdb, hdx⟩ := NameDecl.isOf_iff.mp hof
      rw [← hb, ← hdb, ← hdx, hblock, hfirst] at he
      cases he
      exact Option.some.inj (hi.node.symm.trans hexisting.node)
    rw [hnot, Bool.and_false, if_congr (hother i hi') rfl rfl]
    exact hi.attrs

theorem bind (h : Tracks old pending block outer next steps a) (hmarked : a.Marked d) (hid : a.IsSymbolOf d id)
    (hattrs : (a.symbols.get id).attrs = d.attrs) (hblock : d.block = block)
    (hroles : pending = none ∨ d.attrs.roles.function = false ∧ d.attrs.roles.prototype = false) :
    Tracks old ((a.bind d.name id d.attrs.roles).1.prototype.or pending) block outer next (steps ++ [.declare d])
      (a.bind d.name id d.attrs.roles).2 := by
  have hinner : a.symbols.currentBlock = block := (List.cons.inj h.openBlocks).1
  have heff : Effect 0 0 a (a.bind d.name id d.attrs.roles).2 :=
    effect_bind a d.attrs.roles ⟨hid.inTable, hid.name, by rw [hid.block, hblock, hinner], hid.bindable⟩
  unfold Analysis.bind at heff ⊢
  split at heff
  · rename_i s hs
    exact h.bind_free hmarked hid hattrs hblock (hroles.imp_right And.right) hs heff
  · rename_i existing herror
    have hfind : a.symbols.inner.find? d.name.text = some existing := by
      unfold SymbolTable.insert at herror
      split at herror
      · cases herror
        assumption
      · cases herror
    by_cases hmatch : (d.attrs.roles.function && !d.attrs.roles.prototype &&
        (a.symbols.get existing).attrs.roles.prototype) = true
    · rw [if_pos hmatch] at heff ⊢
      obtain ⟨hdefinition, -⟩ := Bool.and_eq_true_iff.mp hmatch
      obtain rfl : pending = none := by
        refine hroles.resolve_right fun hfunction => ?_
        rw [hfunction.1] at hdefinition
        cases hdefinition
      refine h.bind_taken hmarked hblock hfind heff rfl rfl rfl (fun _ => rfl) (fun i hi => ?_) fun e he => ?_
      · simpa using fun heq => hi heq.symm
      · have hprototype : (a.symbols.get existing).attrs = e.attrsAfter (declared steps) := he.attrs
        rw [Option.or_none, if_pos rfl, NameDecl.isDefinition, if_pos hdefinition, hprototype, NameDecl.settled_attrsAfter]
    · rw [if_neg hmatch] at heff ⊢
      refine h.bind_taken hmarked hblock hfind heff rfl rfl (Log.undeclared_push rfl) (fun _ => rfl) (fun i hi => Iff.rfl) fun e he => ?_
      refine he.attrs.trans ?_
      split
      · rename_i hdefinition
        -- A definition that finds no prototype changes nothing.
        obtain rfl : pending = none := by
          refine hroles.resolve_right fun hfunction => ?_
          rw [NameDecl.isDefinition, hfunction.1] at hdefinition
          cases hdefinition
        have hattrs : (a.symbols.get existing).attrs = e.attrsAfter (declared steps) := he.attrs
        have hsettled : (a.symbols.get existing).attrs.roles.prototype = false :=
          Bool.eq_false_iff.mpr fun hprototype => hmatch (Bool.and_eq_true_iff.mpr ⟨hdefinition, hprototype⟩)
        rw [← NameDecl.settled_attrsAfter, ← hattrs, Attributes.settled_eq hsettled]
      · rfl

end Bind

theorem define {d : Declaration} (h : Tracks old pending block outer next steps a) (roles : Roles)
    (hfield : roles.field = false) (hbindable : roles.isBindable = true) (hd : d.Within k m) (hout : Outside k m steps)
    (hroles : pending = none ∨ roles.function = false ∧ roles.prototype = false) :
    Tracks old ((a.define d roles).1.prototype.or pending) block outer next
      (steps ++ [.declare ⟨block, d.name, d.nameNode, .typed d.type roles⟩]) (a.define d roles).2 := by
  let b : Analysis := a.useBase d roles.field
  let c : Analysis := (b.declare d.nameNode d.name (.typed d.type roles)).2
  have hb : Neutral k m a b := (a.aside_useBase _ hd).toNeutral
  have hc : Neutral k m a c := hb.trans (b.aside_declare _ _ hd.2.1 hd.2.2).toNeutral
  have hvoid : Neutral 0 0 c (c.refuseVoid d roles) := (c.aside_refuseVoid d roles).toNeutral
  have htracks : Tracks old pending block outer next steps (c.refuseVoid d roles) :=
    (h.neutral hc hout).neutral hvoid fun s _ => .inr (Nat.zero_le _)
  have hget : (c.refuseVoid d roles).symbols.get ⟨b.symbols.size⟩ =
      ⟨d.name.text, d.name.loc, b.symbols.currentBlock, .typed d.type roles, none, none⟩ := by
    rw [symbols_refuseVoid]
    exact SymbolTable.get_push_new _
  have hblock : b.symbols.currentBlock = block := (List.cons.inj (h.neutral hb hout).openBlocks).1
  have hsymbol : (c.refuseVoid d roles).IsSymbolOf ⟨block, d.name, d.nameNode, .typed d.type roles⟩ ⟨b.symbols.size⟩ := by
    constructor
    · rw [hvoid.decor _ (.inr (Nat.zero_le _))]
      show ((Analysis.decorate _ d.nameNode _).decoration d.nameNode).symbol = _
      rw [decoration_decorate, if_pos rfl]
    · rw [symbols_refuseVoid]
      exact (declares_declare b d.nameNode d.name (show (Attributes.typed d.type roles).roles.isBindable = true from hbindable)).1
    · rw [hget]
    · rw [hget]
    · rw [hget, hblock]
    · rw [hget]
      exact hbindable
  have hdecor : ((c.refuseVoid d roles).decoration d.nameNode).block = block := by
    rw [hvoid.decor _ (.inr (Nat.zero_le _))]
    show ((Analysis.decorate _ d.nameNode _).decoration d.nameNode).block = _
    rw [decoration_decorate, if_pos rfl]
    exact hblock
  rw [define_eq_bind a d hfield]
  exact htracks.bind ⟨hdecor, _, hsymbol⟩ hsymbol (by rw [hget]) rfl hroles

theorem prototype_define {d : Declaration} {roles : Roles} (hroles : roles.function = false) :
    (a.define d roles).1.prototype = none := by
  unfold Analysis.define
  dsimp only
  split
  · rfl
  · unfold Analysis.bind
    rw [hroles]
    split <;> rfl

theorem matchPrototype {definition prototype : SymbolId} {params : List SymbolId}
    (h : Tracks old (some prototype) block outer next steps a) :
    Tracks old none block outer next steps (a.matchPrototype definition prototype params) := by
  have hall : Outside 0 0 steps := fun s _ => .inr (Nat.zero_le _)
  let b : Analysis := a.setSymbols (a.symbols.modify prototype fun s => { s with attrs := s.attrs.settled })
  have heff : Effect 0 0 a b := effect_setSymbols a fun hs => hs.modify prototype _ (.settle _)
  have hsettled : Tracks old none block outer next steps b := by
    constructor
    · exact (heff.symbols h.sound).sound
    · exact h.openBlocks
    · exact h.nextBlock
    · exact h.below
    · intro c hc x
      refine rel_imp (h.scopes c hc x) fun d id hd _ hid => ⟨hid.toIsSymbolOf.effect h.sound heff (.inr (Nat.zero_le _)), ?_⟩
      rw [if_neg nofun, ← hid.attrs]
      show ((a.symbols.modify prototype _).get id).attrs = _
      by_cases hprototype : prototype = id
      · rw [if_pos (by rw [hprototype]), SymbolTable.get_modify (hprototype ▸ hid.inTable), if_pos hprototype.symm]
        subst hprototype
        rfl
      · rw [if_neg fun heq => hprototype (Option.some.inj heq), SymbolTable.get_modify_of_ne (Ne.symm hprototype)]
    · exact fun _ _ _ _ _ hsteps => h.resolved_effect heff hall hsteps
    · exact h.marked_effect heff hall
    · exact h.undeclared
  unfold Analysis.matchPrototype
  dsimp only
  split
  · exact hsettled.neutral (Analysis.neutral_report _ rfl) hall
  · exact hsettled

end Tracks

end Analysis

end OcCompiler
