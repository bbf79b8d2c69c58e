import OcCompiler.Proofs.NameWalk

/-! Names that are declared more than once. In each block the first declaration of a name stays bound for good, and each
    of the others is complained about once, except for the first definition of a prototype. -/

namespace OcCompiler

open Analysis NameStep

/-! ### Which declarations are repeated -/

/-- What the elements of a list give, each in view of those before it. -/
def flatMapAfter {α β : Type} (f : List α → α → List β) (before : List α) : List α → List β
  | [] => []
  | x :: xs => f before x ++ flatMapAfter f (before ++ [x]) xs

theorem flatMapAfter_concat {α β : Type} {f : List α → α → List β} {before : List α} (xs : List α) (x : α) :
    flatMapAfter f before (xs ++ [x]) = flatMapAfter f before xs ++ f (before ++ xs) x := by
  induction xs generalizing before with
  | nil => simp [flatMapAfter]
  | cons y xs ih => simp [flatMapAfter, ih, List.append_assoc]

/-- The elements of a list that are chosen in view of those before them. -/
def filterAfter {α : Type} (p : List α → α → Bool) : List α → List α → List α :=
  flatMapAfter fun before x => if p before x then [x] else []

theorem filterAfter_concat {α : Type} {p : List α → α → Bool} (xs : List α) (x : α) :
    filterAfter p [] (xs ++ [x]) = filterAfter p [] xs ++ if p xs x then [x] else [] := flatMapAfter_concat xs x

namespace NameDecl

/-- The name was declared before in the same block, and this is not the definition of a prototype that has none yet. -/
def isRepeat (before : List NameDecl) (d : NameDecl) : Bool :=
  match first before d.block d.name.text with
  | none => false
  | some e => !(d.isDefinition && (e.attrsAfter before).roles.prototype)

def repeated (ds : List NameDecl) : List NameDecl := filterAfter isRepeat [] ds

theorem repeated_concat (ds : List NameDecl) (d : NameDecl) :
    repeated (ds ++ [d]) = repeated ds ++ if d.isRepeat ds then [d] else [] := filterAfter_concat ds d

end NameDecl

namespace Analysis

/-- Every closed scope binds exactly the names that are declared in its block, each to the symbol of its first
    declaration. -/
def ClosedBind (a : Analysis) (ds : List NameDecl) : Prop :=
  ∀ c ∈ a.symbols.archive.toList, ∀ x, Option.Rel a.IsSymbolOf (NameDecl.first ds c.block x) (c.find? x)

variable {a b : Analysis} {steps : List NameStep}

theorem ClosedBind.spared (h : a.ClosedBind (declared steps)) (harchive : b.symbols.archive = a.symbols.archive)
    (hevolves : a.symbols.Evolves b.symbols) (hspared : ∀ s ∈ steps, a.Spared b s) : b.ClosedBind (declared steps) := by
  intro c hc x
  rw [harchive] at hc
  refine rel_imp (h c hc x) fun d id hd _ hid => ?_
  exact hid.spared hevolves (spared_declared hspared d (NameDecl.first_mem hd).1)

theorem block_ne_current (hs : a.symbols.Sound) {c : Scope} (hc : c ∈ a.symbols.archive.toList) :
    c.block ≠ a.symbols.currentBlock := by
  have hnodup := hs.blocks
  rw [SymbolTable.scopes, List.map_append] at hnodup
  refine (List.nodup_append.mp hnodup).2.2 _ (List.mem_map_of_mem hc) _ ?_
  exact List.mem_map_of_mem (f := Scope.block) (List.mem_reverse.mpr List.mem_cons_self)

theorem ClosedBind.concat (h : a.ClosedBind (declared steps)) (hs : a.symbols.Sound) {d : NameDecl}
    (hblock : d.block = a.symbols.currentBlock) : a.ClosedBind (declared (steps ++ [.declare d])) := by
  intro c hc x
  have hne := block_ne_current hs hc
  rw [Tracks.declared_append_declare, NameDecl.first_append_singleton,
    if_neg fun hof => hne ((NameDecl.isOf_iff.mp hof).1.symm.trans hblock), Option.or_none]
  exact h c hc x

theorem fieldTable?_bind (x : Lexeme) (id : SymbolId) (roles : Roles) (tag : String) :
    (a.bind x id roles).2.symbols.fieldTable? tag = a.symbols.fieldTable? tag := by
  unfold Analysis.bind
  split
  · rename_i s hs
    unfold SymbolTable.insert at hs
    split at hs
    · cases hs
    · cases hs
      rfl
  · split <;> rfl

theorem Tracks.redeclared_bind {old : List Diagnostic} {pending : Option SymbolId} {block next : Nat} {outer : List Nat}
    (h : Tracks old pending block outer next steps a) {d : NameDecl} (hblock : d.block = block) (id : SymbolId)
    (hroles : pending = none ∨ d.attrs.roles.function = false) :
    Log.redeclared (a.bind d.name id d.attrs.roles).2.log = Log.redeclared a.log ++
      if d.isRepeat (declared steps) then [SemanticCause.redeclared.about d.name] else [] := by
  unfold Analysis.bind SymbolTable.insert NameDecl.isRepeat
  rw [hblock]
  cases hfind : a.symbols.inner.find? d.name.text with
  | none =>
    rw [h.first_eq_none_of_find? hfind]
    exact (List.append_nil _).symm
  | some existing =>
    obtain ⟨e, hfirst, hexisting⟩ := h.first_of_find? hfind
    -- The symbol that is bound counts as a prototype exactly if its declaration does.
    have hmatch : (d.attrs.roles.function && !d.attrs.roles.prototype && (a.symbols.get existing).attrs.roles.prototype) =
        (d.isDefinition && (e.attrsAfter (declared steps)).roles.prototype) := by
      rcases hroles with rfl | hfunction
      · have hattrs : (a.symbols.get existing).attrs = e.attrsAfter (declared steps) := hexisting.attrs
        rw [hattrs]
        rfl
      · simp [NameDecl.isDefinition, hfunction]
    simp only [hfirst, hmatch]
    split
    · next hdefines => simp [hdefines, setSymbols]
    · next hdefines => simp [hdefines, Log.redeclared, report, SemanticCause.about, Diagnostic.isRedeclared]

end Analysis

namespace Reaches

variable {start : Stage} {pending : Option SymbolId} {block next : Nat} {outer : List Nat} {steps : List NameStep}
  {a : Analysis} {old : List Diagnostic}
  (h : Reaches start pending block outer next steps a)
  (hstart : Tracks old start.pending start.block start.outer start.next start.steps start.analysis)

include h hstart

theorem closedBind (hclosed : start.analysis.ClosedBind (declared start.steps)) : a.ClosedBind (declared steps) := by
  have hall (steps : List NameStep) : Outside 0 0 steps := fun _ _ => .inr (Nat.zero_le _)
  induction h with
  | refl => exact hclosed
  | aside h hwork hspared ih => exact ih.spared hwork.archive (hwork.symbols (h.tracks hstart).sound) hspared
  | @refer block outer next steps a h x n hout ih =>
    have heff : Effect n.index (n.index + 1) a (a.refer n x) := effect_refer a x (Nat.le_refl _) (Nat.lt_succ_self _)
    rw [Tracks.declared_append_refer]
    exact ih.spared (by rw [symbols_refer]) (heff.symbols (h.tracks hstart).sound) (heff.spared hout)
  | @enterBlock pending block outer next steps a h ih =>
    have heff : Effect 0 0 a a.enterBlock.2 := effect_enterBlock a
    exact ih.spared rfl (heff.symbols (h.tracks hstart).sound) (heff.spared (hall _))
  | @exitBlock pending block around outer next steps a h ih =>
    have htracks := h.tracks hstart
    have heff : Effect 0 0 a a.exitBlock := effect_exitBlock a
    have hevolves := heff.symbols htracks.sound
    have hspared := heff.spared (hall steps)
    intro c hc x
    by_cases hold : c ∈ a.symbols.archive.toList
    · refine rel_imp (ih c hold x) fun d id hd _ hid => ?_
      exact hid.spared hevolves (spared_declared hspared d (NameDecl.first_mem hd).1)
    · have hc' : c = a.symbols.inner := by
        unfold Analysis.exitBlock SymbolTable.exitBlock at hc
        split at hc
        · exact absurd hc hold
        · exact List.mem_singleton.mp ((List.mem_append.mp (by simpa [setSymbols] using hc)).resolve_left hold)
      refine rel_imp (htracks.scopes c (hc' ▸ List.mem_cons_self) x) fun d id hd _ hid => ?_
      exact hid.toIsSymbolOf.spared hevolves (spared_declared hspared d (NameDecl.first_mem hd).1)
  | @define pending block outer next steps a k m d h roles hfield hbindable hd hout hroles ih =>
    have htracks := h.tracks hstart
    have heff : Effect k m a (a.define d roles).2 := effect_define a (.inr hbindable) hd
    have hevolves := heff.symbols htracks.sound
    have harchive : (a.define d roles).2.symbols.archive = a.symbols.archive := (a.local_define d roles).archive
    refine (ih.spared harchive hevolves (heff.spared hout)).concat hevolves.sound ?_
    exact ((List.cons.inj htracks.openBlocks).1.symm.trans (a.local_define d roles).opens.currentBlock.symm)
  | @matchPrototype block outer next steps a definition prototype params h ih =>
    have heff : Effect 0 0 a (a.matchPrototype definition prototype params) := effect_matchPrototype a _ _ _
    exact ih.spared (a.local_matchPrototype definition prototype params).archive (heff.symbols (h.tracks hstart).sound)
      (heff.spared (hall _))

theorem redeclared : ∃ added, NameDecl.repeated (declared steps) = NameDecl.repeated (declared start.steps) ++ added ∧
    Log.redeclared a.log = Log.redeclared start.analysis.log ++ added.map fun d => SemanticCause.redeclared.about d.name := by
  induction h with
  | refl => exact ⟨[], by simp, by simp⟩
  | aside h hwork _ ih =>
    rw [hwork.redeclared]
    exact ih
  | @refer block outer next steps a h x n hout ih =>
    have hlog : Log.redeclared (a.refer n x).log = Log.redeclared a.log := by
      unfold Analysis.refer
      split
      · rfl
      · exact Log.redeclared_push rfl
    rw [Tracks.declared_append_refer, hlog]
    exact ih
  | enterBlock h ih => exact ih
  | exitBlock h ih => exact ih
  | @define pending block outer next steps a k m d h roles hfield hbindable hd hout hroles ih =>
    obtain ⟨added, hadded, hlog⟩ := ih
    have hwork : Aside k m a (a.declareName d roles) := a.aside_declareName roles hd
    have htracks := (h.elsewhere hwork hout).tracks hstart
    have hbind := htracks.redeclared_bind (d := ⟨block, d.name, d.nameNode, .typed d.type roles⟩) rfl
      ⟨(a.useBase d roles.field).symbols.size⟩ (hroles.imp_right And.left)
    rw [Tracks.declared_append_declare, NameDecl.repeated_concat, define_eq_bind a d hfield]
    refine ⟨added ++ if NameDecl.isRepeat (declared steps) ⟨block, d.name, d.nameNode, .typed d.type roles⟩ then
      [⟨block, d.name, d.nameNode, .typed d.type roles⟩] else [], by rw [hadded, List.append_assoc], ?_⟩
    refine hbind.trans ?_
    rw [hwork.redeclared, hlog, List.map_append, List.append_assoc]
    split <;> rfl
  | @matchPrototype block outer next steps a definition prototype params h ih =>
    have hlog : Log.redeclared (a.matchPrototype definition prototype params).log = Log.redeclared a.log := by
      unfold Analysis.matchPrototype
      dsimp only
      split
      · exact Log.redeclared_push rfl
      · rfl
    rw [hlog]
    exact ih

theorem fieldTable? (tag : String) : a.symbols.fieldTable? tag = start.analysis.symbols.fieldTable? tag := by
  induction h with
  | refl => rfl
  | aside h hwork _ ih => rw [hwork.fields (h.tracks hstart).sound, ih]
  | refer h x hout ih => rw [symbols_refer, ih]
  | enterBlock h ih => exact ih
  | @exitBlock pending block around outer next steps a h ih =>
    rw [← ih]
    unfold Analysis.exitBlock SymbolTable.exitBlock
    split <;> rfl
  | @define pending block outer next steps a k m d h roles hfield hbindable hd hout hroles ih =>
    have hwork : Aside k m a (a.declareName d roles) := a.aside_declareName roles hd
    rw [define_eq_bind a d hfield, fieldTable?_bind, hwork.fields (h.tracks hstart).sound, ih]
  | @matchPrototype block outer next steps a definition prototype params h ih =>
    rw [← ih]
    have hmodify (i : SymbolId) : ((a.symbols.modify prototype fun s => { s with attrs := s.attrs.settled }).get i).fields =
        (a.symbols.get i).fields := SymbolTable.fields_modify rfl i
    have hsymbols : (a.matchPrototype definition prototype params).symbols =
        a.symbols.modify prototype fun s => { s with attrs := s.attrs.settled } := by
      unfold Analysis.matchPrototype
      dsimp only
      split <;> rfl
    rw [hsymbols]
    exact Option.bind_congr fun i _ => hmodify i

end Reaches

end OcCompiler
