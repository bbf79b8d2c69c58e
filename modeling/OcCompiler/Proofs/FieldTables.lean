import Mathlib.Data.List.Forall2
import Mathlib.Data.List.Induction
import OcCompiler.Proofs.Repetition

/-! The fields of structs. The first body of a tag gives the tag its fields, of which the first of each name stays. A field
    whose name comes again in that body is complained about, and so is each further body of the tag. -/

namespace OcCompiler

open Analysis NameStep

namespace NameDecl

/-- The declarations that are the first ones of their name in their block. -/
def kept (ds : List NameDecl) : List NameDecl :=
  filterAfter (fun before d => (first before d.block d.name.text).isNone) [] ds

theorem kept_concat (ds : List NameDecl) (d : NameDecl) :
    kept (ds ++ [d]) = kept ds ++ if (first ds d.block d.name.text).isNone then [d] else [] := filterAfter_concat ds d

variable {ds : List NameDecl} {d : NameDecl}

theorem mem_of_mem_kept (h : d ∈ kept ds) : d ∈ ds := by
  induction ds using List.reverseRecOn with
  | nil => cases h
  | append_singleton ds e ih =>
    rw [kept_concat] at h
    rcases List.mem_append.mp h with h | h
    · exact List.mem_append_left _ (ih h)
    · split at h
      · exact List.mem_append_right _ h
      · cases h

theorem first_kept (ds : List NameDecl) (block : Nat) (x : String) : first (kept ds) block x = first ds block x := by
  induction ds using List.reverseRecOn with
  | nil => rfl
  | append_singleton ds d ih =>
    rw [kept_concat, first_append_singleton]
    split
    · rw [first_append_singleton, ih]
    · rename_i hsome
      rw [List.append_nil, ih]
      split
      · rename_i hof
        obtain ⟨rfl, rfl⟩ := isOf_iff.mp hof
        cases hfirst : first ds d.block d.name.text with
        | none => exact absurd (Option.isNone_iff_eq_none.mpr hfirst) hsome
        | some e => rfl
      · rw [Option.or_none]

theorem isRepeat_field (hd : d.attrs.roles = { field := true }) :
    d.isRepeat ds = (first ds d.block d.name.text).isSome := by
  have hdefinition : d.isDefinition = false := by rw [isDefinition, hd]; rfl
  unfold isRepeat
  rw [hdefinition]
  cases first ds d.block d.name.text <;> rfl

end NameDecl

/-- The body of a struct: the tag, and the fields as they are declared. -/
structure StructBody where
  tag : Lexeme
  fields : List NameDecl
deriving DecidableEq, Repr

namespace StructBody

def first (bodies : List StructBody) (tag : String) : Option StructBody := bodies.find? (·.tag.text == tag)

/-- What a body declares once more: its tag if that has a body already, and otherwise those of its fields that have the
    name of another one. The fields of a body that is refused are not looked at. -/
def repeats (before : List StructBody) (b : StructBody) : List Lexeme :=
  if (first before b.tag.text).isSome then [b.tag] else (NameDecl.repeated b.fields).map NameDecl.name

end StructBody

def Decl.fieldDecls (k : Nat) : List Decl → List NameDecl
  | [] => []
  | d :: ds => d.declared globalBlock k { field := true } :: fieldDecls (k + d.size) ds

/-! ### Fields in the symbol table -/

namespace SymbolTable

variable {s s' : SymbolTable} {tag : String} {id : SymbolId}

theorem Step.struct? (h : Step s s') (hid : s.struct? tag = some id) : s'.struct? tag = some id := by
  cases h with
  | declare | openBody | addField | setParams | settle | enterBlock | record | recordBlank => exact hid
  | useTag x =>
    unfold structOrPlaceholder
    split
    · exact hid
    · show List.lookup tag (s.structs ++ _) = some id
      rw [List.lookup_append, show s.structs.lookup tag = some id from hid]
      rfl
  | bind hinsert =>
    unfold insert at hinsert
    split at hinsert
    · cases hinsert
    · cases hinsert
      exact hid
  | exitBlock =>
    unfold SymbolTable.exitBlock
    split <;> exact hid

theorem fieldTable?_modify_of_ne (hs : s.Sound) (hid : s.struct? tag = some id) (f : Symbol → Symbol) {x : String}
    (hx : x ≠ tag) : (s.modify id f).fieldTable? x = s.fieldTable? x := by
  refine Option.bind_congr fun i hi => ?_
  have hne : i ≠ id := by
    rintro rfl
    -- A symbol says the tag that it belongs to.
    have hattrs := (hs.structs _ (mem_of_lookup hi)).2.symm.trans (hs.structs _ (mem_of_lookup hid)).2
    cases hattrs
    exact hx rfl
  rw [get_modify_of_ne hne]

theorem fieldTable?_modify (hs : s.Sound) (hid : s.struct? tag = some id) (f : Symbol → Symbol) :
    (s.modify id f).fieldTable? tag = (f (s.get id)).fields := by
  have hin := (hs.structs _ (mem_of_lookup hid)).1
  have hid' : (s.modify id f).struct? tag = some id := hid
  rw [fieldTable?, hid', Option.bind_some, get_modify hin, if_pos rfl]

end SymbolTable

namespace Analysis

/-- An entry of a field table stands for a declared field: it has the field's name and the symbol of the node that
    declares the field. -/
structure IsField (a : Analysis) (d : NameDecl) (entry : String × SymbolId) : Prop where
  key : entry.1 = d.name.text
  node : (a.decoration d.node).symbol = some entry.2
  inTable : entry.2.index < a.symbols.size
  name : (a.symbols.get entry.2).name = d.name.text
  attrs : (a.symbols.get entry.2).attrs = d.attrs
  role : d.attrs.roles = { field := true }

/-- A field table holds the declared fields, of which the first of each name is kept. -/
def Lists (a : Analysis) (fields : List NameDecl) (table : List (String × SymbolId)) : Prop :=
  List.Forall₂ a.IsField (NameDecl.kept fields) table

variable {a b : Analysis} {d : NameDecl} {fields : List NameDecl} {table : List (String × SymbolId)}

theorem IsField.spared {entry : String × SymbolId} (h : a.IsField d entry) (hevolves : a.symbols.Evolves b.symbols)
    (hd : a.Spared b (.declare d)) : b.IsField d entry := by
  have hkeeps := hevolves.keeps entry.2 h.inTable
  refine ⟨h.key, ?_, Nat.lt_of_lt_of_le h.inTable hevolves.size, hkeeps.name.trans h.name, ?_, h.role⟩
  · rw [hd (by rw [h.node]; rfl), h.node]
  · rw [hkeeps.attrs_eq (by rw [h.attrs, h.role]), h.attrs]

theorem Lists.spared (h : a.Lists fields table) (hevolves : a.symbols.Evolves b.symbols)
    (hspared : ∀ d ∈ fields, a.Spared b (.declare d)) : b.Lists fields table := by
  have hmem : ∀ d ∈ NameDecl.kept fields, a.Spared b (.declare d) := fun d hd => hspared d (NameDecl.mem_of_mem_kept hd)
  exact ((List.forall₂_and_left _ _).mpr ⟨hmem, h⟩).imp fun d entry hd => hd.2.spared hevolves hd.1

theorem Lists.isSome_lookup (h : a.Lists fields table) {block : Nat} (hblock : ∀ d ∈ fields, d.block = block) (x : String) :
    (table.lookup x).isSome = (NameDecl.first fields block x).isSome := by
  rw [← NameDecl.first_kept]
  have hkept : ∀ d ∈ NameDecl.kept fields, d.block = block := fun d hd => hblock d (NameDecl.mem_of_mem_kept hd)
  unfold Lists at h
  generalize NameDecl.kept fields = ds at h hkept
  induction h with
  | nil => rfl
  | @cons d entry ds table hd _ ih =>
    obtain ⟨key, id⟩ := entry
    obtain ⟨hdblock, hds⟩ := List.forall_mem_cons.mp hkept
    have hkey : key = d.name.text := hd.key
    by_cases hx : x = key
    · have hof : d.isOf block x = true := NameDecl.isOf_iff.mpr ⟨hdblock, (hx.trans hkey).symm⟩
      rw [List.lookup_cons, hx, beq_self_eq_true, NameDecl.first, ← hx, List.find?_cons_of_pos hof]
      rfl
    · have hof : ¬ d.isOf block x = true := fun hof => hx ((NameDecl.isOf_iff.mp hof).2.symm.trans hkey.symm)
      rw [List.lookup_cons, beq_eq_false_iff_ne.mpr hx, NameDecl.first, List.find?_cons_of_neg hof]
      exact ih hds

/-- The body of a struct is open and has declared `fields` so far. Before it was opened, the complaints about names that
    are declared twice were `old`, and the structs had the fields `tables`. -/
structure OpenBody (old : List Diagnostic) (tables : String → Option (List (String × SymbolId))) (tag : String)
    (struct : SymbolId) (fields : List NameDecl) (a : Analysis) : Prop where
  sound : a.symbols.Sound
  symbol : a.symbols.struct? tag = some struct
  table : ∃ table, a.symbols.fieldTable? tag = some table ∧ a.Lists fields table
  others : ∀ x, x ≠ tag → a.symbols.fieldTable? x = tables x
  redeclared : Log.redeclared a.log = old ++ (NameDecl.repeated fields).map fun d => SemanticCause.redeclared.about d.name

variable {old : List Diagnostic} {tables : String → Option (List (String × SymbolId))} {tag : String} {struct : SymbolId}

theorem OpenBody.addField (h : OpenBody old tables tag struct fields a) (hblock : ∀ e ∈ fields, e.block = d.block)
    {field : SymbolId} (hfield : a.IsField d (d.name.text, field)) (hloc : (a.symbols.get field).loc = d.name.loc)
    (depth : Nat) : OpenBody old tables tag struct (fields ++ [d]) (a.addField struct depth field) := by
  obtain ⟨table, htable, hlists⟩ := h.table
  have heff : Effect 0 0 a (a.addField struct depth field) := effect_addField a struct field depth
  have hget : (a.symbols.get struct).fields = some table := by
    rwa [SymbolTable.fieldTable?, h.symbol, Option.bind_some] at htable
  have hname : (a.symbols.get field).name = d.name.text := hfield.name
  have hlexeme : (⟨(a.symbols.get field).name, (a.symbols.get field).loc⟩ : Lexeme) = d.name := by rw [hname, hloc]
  have hsome : ((a.symbols.get struct).field? (a.symbols.get field).name).isSome = d.isRepeat fields := by
    rw [Symbol.field?, hget, Option.bind_some, hname, hlists.isSome_lookup hblock, NameDecl.isRepeat_field hfield.role]
  have hkept : (NameDecl.first fields d.block d.name.text).isNone = !d.isRepeat fields := by
    rw [NameDecl.isRepeat_field hfield.role, Option.not_isSome]
  have hnew := heff.symbols h.sound
  unfold Analysis.addField at hnew ⊢
  dsimp only at hnew ⊢
  rw [hsome, hlexeme] at hnew ⊢
  cases hrepeat : d.isRepeat fields with
  | true =>
    rw [if_pos rfl]
    refine ⟨h.sound, h.symbol, ⟨table, htable, ?_⟩, h.others, ?_⟩
    · unfold Lists
      rw [NameDecl.kept_concat, hkept, hrepeat]
      exact (List.append_nil (NameDecl.kept fields)).symm ▸ hlists.spared h.sound.refl fun _ _ _ => rfl
    · rw [NameDecl.repeated_concat, hrepeat, if_pos rfl, List.map_append, ← List.append_assoc, ← h.redeclared]
      simp [Log.redeclared, report, SemanticCause.about, Diagnostic.isRedeclared]
  | false =>
    rw [hrepeat] at hnew
    rw [if_neg Bool.false_ne_true] at hnew ⊢
    have hlookup : table.lookup d.name.text = none := by
      rw [← Option.not_isSome_iff_eq_none, hlists.isSome_lookup hblock, ← NameDecl.isRepeat_field hfield.role, hrepeat]
      exact Bool.false_ne_true
    have hset : ((a.symbols.get struct).setField d.name.text field).fields = some (table ++ [(d.name.text, field)]) := by
      simp [Symbol.setField, hget, hlookup]
    rw [hname] at hnew ⊢
    refine ⟨hnew.sound, h.symbol, ⟨table ++ [(d.name.text, field)], ?_, ?_⟩, fun x hx => ?_, ?_⟩
    · exact (SymbolTable.fieldTable?_modify h.sound h.symbol (·.setField d.name.text field)).trans hset
    · unfold Lists
      rw [NameDecl.kept_concat, hkept, hrepeat]
      exact List.rel_append (hlists.spared hnew fun _ _ _ => rfl) (.cons (hfield.spared hnew fun _ => rfl) .nil)
    · exact (SymbolTable.fieldTable?_modify_of_ne h.sound h.symbol _ hx).trans (h.others x hx)
    · rw [NameDecl.repeated_concat, hrepeat, if_neg Bool.false_ne_true, List.append_nil]
      exact h.redeclared

theorem isField_define (d : Decl) (k : Nat) (a : Analysis) :
    (a.define (d.declaration k) { field := true }).2.IsField (d.declared globalBlock k { field := true })
        (d.name.text, (a.define (d.declaration k) { field := true }).1.symbol) ∧
      ((a.define (d.declaration k) { field := true }).2.symbols.get
        (a.define (d.declaration k) { field := true }).1.symbol).loc = d.name.loc := by
  unfold define
  dsimp only
  rw [if_pos rfl]
  dsimp only
  generalize a.useBase (d.declaration k) true = a
  have hdecor (n : NodeId) (b : Analysis) : (b.refuseVoid (d.declaration k) { field := true }).decoration n = b.decoration n := by
    unfold refuseVoid
    split <;> rfl
  have hnew : ((a.declare ⟨k + 1⟩ d.name (.typed d.type { field := true })).2.refuseVoid (d.declaration k)
      { field := true }).symbols.get ⟨a.symbols.size⟩ =
        ⟨d.name.text, d.name.loc, a.symbols.currentBlock, .typed d.type { field := true }, none, none⟩ := by
    rw [symbols_refuseVoid]
    exact SymbolTable.get_push_new _
  refine ⟨⟨rfl, ?_, ?_, congrArg Symbol.name hnew, congrArg Symbol.attrs hnew, rfl⟩, congrArg Symbol.loc hnew⟩
  · rw [hdecor]
    show (Analysis.decoration (decorate _ ⟨k + 1⟩ _) ⟨k + 1⟩).symbol = _
    rw [decoration_decorate, if_pos rfl]
    rfl
  · rw [symbols_refuseVoid]
    show a.symbols.size < (a.symbols.push _).2.size
    rw [SymbolTable.size_push]
    exact Nat.lt_succ_self _

theorem OpenBody.define (h : OpenBody old tables tag struct fields a) (hblock : ∀ e ∈ fields, e.block = globalBlock)
    (d : Decl) {k : Nat} (hnodes : ∀ e ∈ fields, e.node.index < k) (depth : Nat) :
    OpenBody old tables tag struct (fields ++ [d.declared globalBlock k { field := true }])
      ((a.define (d.declaration k) { field := true }).2.addField struct depth
        (a.define (d.declaration k) { field := true }).1.symbol) := by
  have hwork : Aside k (k + d.size) a (a.define (d.declaration k) { field := true }).2 :=
    a.aside_defineField (d.declaration_within (Nat.le_refl k) (Nat.le_refl _))
  have hlocal := a.local_define (d.declaration k) { field := true }
  obtain ⟨hfield, hloc⟩ := isField_define d k a
  refine OpenBody.addField ?_ hblock hfield hloc depth
  have hevolves := hwork.symbols h.sound
  obtain ⟨table, htable, hlists⟩ := h.table
  constructor
  · exact hevolves.sound
  · exact hlocal.steps.keep (fun hstep => hstep.struct?) h.symbol
  · refine ⟨table, (hwork.fields h.sound tag).trans htable, hlists.spared hevolves fun e he _ => ?_⟩
    exact hwork.decor _ (.inl (hnodes e he))
  · exact fun x hx => (hwork.fields h.sound x).trans (h.others x hx)
  · rw [hwork.redeclared, h.redeclared]

theorem OpenBody.defineFields (h : OpenBody old tables tag struct fields a) (hblock : ∀ e ∈ fields, e.block = globalBlock)
    (ds : List Decl) {k : Nat} (hnodes : ∀ e ∈ fields, e.node.index < k) (depth : Nat) :
    OpenBody old tables tag struct (fields ++ Decl.fieldDecls k ds)
      (Analysis.defineFields struct depth (Decl.declarations k ds) a) := by
  induction ds generalizing a fields k with
  | nil => exact (List.append_nil fields).symm ▸ h
  | cons d ds ih =>
    have hd := d.two_le_size
    rw [Decl.fieldDecls, List.append_cons]
    refine ih (h.define hblock d hnodes depth) ?_ ?_
    · exact List.forall_mem_append.mpr ⟨hblock, List.forall_mem_singleton.mpr rfl⟩
    · refine List.forall_mem_append.mpr ⟨fun e he => Nat.lt_add_right _ (hnodes e he), List.forall_mem_singleton.mpr ?_⟩
      exact Nat.add_lt_add_left hd k

theorem isComplete_structOrPlaceholder (hs : a.symbols.Sound) (tag : Lexeme) :
    ((a.symbols.structOrPlaceholder tag).2.get (a.symbols.structOrPlaceholder tag).1).isComplete =
      (a.symbols.fieldTable? tag.text).isSome := by
  have hplaceholder : Aside 0 0 a (a.setSymbols (a.symbols.structOrPlaceholder tag).2) := a.aside_placeholder tag
  rw [← hplaceholder.fields hs, SymbolTable.fieldTable?]
  show _ = (((a.symbols.structOrPlaceholder tag).2.struct? tag.text).bind _).isSome
  rw [SymbolTable.struct?_structOrPlaceholder]
  rfl

theorem OpenBody.openStruct (hs : a.symbols.Sound) {tag : Lexeme} (hnew : a.symbols.fieldTable? tag.text = none) (n : NodeId) :
    ∃ struct b, a.openStruct n tag = (some struct, b) ∧
      OpenBody (Log.redeclared a.log) a.symbols.fieldTable? tag.text struct [] b := by
  have hplaceholder : Aside 0 0 a (a.setSymbols (a.symbols.structOrPlaceholder tag).2) := a.aside_placeholder tag
  have hcomplete := isComplete_structOrPlaceholder hs tag
  rw [hnew] at hcomplete
  have heff : Effect n.index (n.index + 1) a (a.openStruct n tag).2 := effect_openStruct a tag (Nat.le_refl _) (Nat.lt_succ_self _)
  have hsound := (heff.symbols hs).sound
  have hsymbol := a.symbols.struct?_structOrPlaceholder tag
  have hsound' := (hplaceholder.symbols hs).sound
  unfold Analysis.openStruct at hsound ⊢
  dsimp only at hsound ⊢
  rw [hcomplete, if_neg (by exact Bool.false_ne_true)] at hsound ⊢
  refine ⟨_, _, rfl, hsound, hsymbol, ⟨[], ?_, .nil⟩, fun x hx => ?_, ?_⟩
  · exact SymbolTable.fieldTable?_modify hsound' hsymbol _
  · exact (SymbolTable.fieldTable?_modify_of_ne hsound' hsymbol _ hx).trans (hplaceholder.fields hs x)
  · exact (List.append_nil _).symm

theorem openStruct_of_some (hs : a.symbols.Sound) {tag : Lexeme} (hsome : (a.symbols.fieldTable? tag.text).isSome = true)
    (n : NodeId) :
    a.openStruct n tag = (none, (a.setSymbols (a.symbols.structOrPlaceholder tag).2).report (SemanticCause.redeclared.about tag)) := by
  unfold Analysis.openStruct
  dsimp only
  rw [isComplete_structOrPlaceholder hs, if_pos hsome]

end Analysis

namespace StructBody

variable {bodies : List StructBody} {b : StructBody}

theorem first_append_singleton (x : String) :
    first (bodies ++ [b]) x = (first bodies x).or (if b.tag.text == x then some b else none) := by
  rw [first, List.find?_append, List.find?_singleton]
  rfl

theorem first_mem {x : String} (h : first bodies x = some b) : b ∈ bodies := List.mem_of_find?_eq_some h

end StructBody

namespace Analysis

def HasBodies (a : Analysis) (bodies : List StructBody) : Prop :=
  ∀ tag, Option.Rel (fun b table => a.Lists b.fields table) (StructBody.first bodies tag) (a.symbols.fieldTable? tag)

variable {a b : Analysis} {bodies : List StructBody}

theorem HasBodies.spared (h : a.HasBodies bodies) (hevolves : a.symbols.Evolves b.symbols)
    (hfields : ∀ tag, b.symbols.fieldTable? tag = a.symbols.fieldTable? tag)
    (hspared : ∀ body ∈ bodies, ∀ d ∈ body.fields, a.Spared b (.declare d)) : b.HasBodies bodies := by
  intro tag
  rw [hfields]
  refine rel_imp (h tag) fun body table hbody _ hlists => ?_
  exact hlists.spared hevolves (hspared body (StructBody.first_mem hbody))

theorem HasBodies.defineStructAs (h : a.HasBodies bodies) (hs : a.symbols.Sound) (n : NodeId) (tag : Lexeme) {k : Nat}
    (fields : List Decl) (hnodes : ∀ body ∈ bodies, ∀ d ∈ body.fields, d.node.index < k) :
    (a.defineStructAs n ⟨k⟩ tag (Decl.declarations (k + 1) fields)).HasBodies
        (bodies ++ [⟨tag, Decl.fieldDecls (k + 1) fields⟩]) ∧
      Log.redeclared (a.defineStructAs n ⟨k⟩ tag (Decl.declarations (k + 1) fields)).log = Log.redeclared a.log ++
        (StructBody.repeats bodies ⟨tag, Decl.fieldDecls (k + 1) fields⟩).map SemanticCause.redeclared.about := by
  have heff : Effect k (k + 1 + Decl.sizes fields) a (a.defineStructAs n ⟨k⟩ tag (Decl.declarations (k + 1) fields)) :=
    effect_defineStructAs a tag (Nat.le_refl k) (by dsimp only; omega)
      (Decl.declarations_within fields (Nat.le_succ k) (Nat.le_refl _))
  have hevolves := heff.symbols hs
  have hspared : ∀ body ∈ bodies, ∀ d ∈ body.fields, a.Spared _ (.declare d) := fun body hbody d hd _ =>
    heff.decor _ (.inl (hnodes body hbody d hd))
  have hfirst := h tag.text
  unfold Analysis.defineStructAs at hevolves hspared ⊢
  generalize hold : a.symbols.fieldTable? tag.text = table at hfirst
  generalize hbody : StructBody.first bodies tag.text = body at hfirst
  cases hfirst with
  | @some body table hlists =>
    have hrefused := a.openStruct_of_some hs (Option.isSome_iff_exists.mpr ⟨table, hold⟩) ⟨k⟩
    rw [hrefused] at hevolves hspared ⊢
    have hplaceholder : Aside 0 0 a (a.setSymbols (a.symbols.structOrPlaceholder tag).2) := a.aside_placeholder tag
    refine ⟨fun x => ?_, ?_⟩
    · have hx := h.spared hevolves (hplaceholder.fields hs) hspared x
      rw [StructBody.first_append_singleton]
      by_cases hxt : x = tag.text
      · subst hxt
        rw [hbody] at hx ⊢
        exact hx
      · rw [if_neg (by simpa using Ne.symm hxt), Option.or_none]
        exact hx
    · rw [StructBody.repeats, if_pos (by rw [hbody]; rfl)]
      simp [Log.redeclared, report, setSymbols, SemanticCause.about, Diagnostic.isRedeclared]
  | none =>
    obtain ⟨struct, b, hopened, hopen⟩ := OpenBody.openStruct hs hold ⟨k⟩
    rw [hopened] at hevolves hspared ⊢
    have hdefine := hopen.defineFields (List.forall_mem_nil _) fields (k := k + 1) (List.forall_mem_nil _) (b.symbols.depth + 1)
    dsimp only at hevolves hspared ⊢
    generalize Analysis.defineFields struct _ _ b = c at hdefine hevolves hspared
    obtain ⟨table, htable, hlists⟩ := hdefine.table
    refine ⟨fun x => ?_, ?_⟩
    · rw [StructBody.first_append_singleton]
      by_cases hxt : x = tag.text
      · subst hxt
        rw [hbody, Option.none_or, if_pos (beq_self_eq_true _)]
        show Option.Rel _ _ (c.symbols.fieldTable? tag.text)
        rw [htable]
        exact .some (hlists.spared hdefine.sound.refl fun _ _ _ => rfl)
      · rw [if_neg (by simpa using Ne.symm hxt), Option.or_none]
        show Option.Rel _ _ (c.symbols.fieldTable? x)
        rw [hdefine.others x hxt]
        refine rel_imp (h x) fun body table hfirst _ hlists => ?_
        exact hlists.spared hevolves (hspared body (StructBody.first_mem hfirst))
    · rw [StructBody.repeats, if_neg (by rw [hbody]; exact Bool.false_ne_true), List.map_map]
      exact hdefine.redeclared

end Analysis

end OcCompiler
