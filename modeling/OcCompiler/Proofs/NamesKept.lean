import OcCompiler.Proofs.Scopes

/-! Most of what the analysis does leaves the names alone: the verdicts on types bind nothing, open or close no block
    and complain of no undeclared name, and neither does the work on structs. -/

namespace OcCompiler

open Analysis

variable {f : Symbol → Symbol} {s : SymbolTable} {d : Diagnostic} {id : SymbolId} {log : Log}

def Diagnostic.isUndeclared (d : Diagnostic) : Bool := d.cause == .semantic .undeclared

def Diagnostic.isRedeclared (d : Diagnostic) : Bool := d.cause == .semantic .redeclared

def Log.undeclared (log : Log) : List Diagnostic := log.toList.filter Diagnostic.isUndeclared

def Log.redeclared (log : Log) : List Diagnostic := log.toList.filter Diagnostic.isRedeclared

theorem Log.undeclared_push (h : d.isUndeclared = false) :
    Log.undeclared (log.push d) = Log.undeclared log := by
  simp [Log.undeclared, h]

theorem Log.redeclared_push (h : d.isRedeclared = false) :
    Log.redeclared (log.push d) = Log.redeclared log := by
  simp [Log.redeclared, h]

def Diagnostic.IsOther (d : Diagnostic) : Prop := d.isUndeclared = false ∧ d.isRedeclared = false

def SemanticCause.isAboutNames : SemanticCause → Bool
  | .undeclared | .redeclared => true
  | _ => false

def SemanticCause.IsOther (c : SemanticCause) : Prop := c.isAboutNames = false

theorem SemanticCause.IsOther.about {c : SemanticCause} (h : c.IsOther) (x : Lexeme) : (c.about x).IsOther := by
  cases c with
  | undeclared | redeclared => cases h
  | _ => simp [Diagnostic.IsOther, Diagnostic.isUndeclared, Diagnostic.isRedeclared, SemanticCause.about]

namespace Typing

variable {τ σ : ValueType} {found : Option ValueType} {c : SemanticCause}

theorem other_of_exactly (h : exactly τ found = some c) : c.IsOther := by
  unfold exactly at h
  split at h
  · split at h <;> cases h
    rfl
  · cases h

theorem other_of_fits (h : fits τ found = some c) : c.IsOther := by
  unfold fits at h
  split at h
  · split at h <;> cases h
    rfl
  · cases h

theorem other_of_variableInit (h : variableInit τ found = some c) : c.IsOther := by
  unfold variableInit at h
  split at h
  · cases h
    rfl
  · exact other_of_fits h

theorem other_of_assignment {isPlace : Bool} (h : assignment τ isPlace found = some c) : c.IsOther := by
  unfold assignment at h
  split at h
  · exact other_of_fits h
  · cases h
    rfl

theorem other_of_comparison {q : Comparison} {left : Option ValueType} (h : comparison q left found = some c) :
    c.IsOther := by
  unfold comparison at h
  split at h
  · obtain ⟨l, -, h⟩ := Option.bind_eq_some_iff.mp h
    obtain ⟨r, -, h⟩ := Option.bind_eq_some_iff.mp h
    unfold equality at h
    split at h
    · cases h
      rfl
    · exact other_of_fits h
  · obtain ⟨l, -, h⟩ := Option.bind_eq_some_iff.mp h
    unfold relation at h
    split at h
    · exact other_of_exactly h
    · cases h
      rfl

theorem other_of_arithmetic (h : arithmetic τ found = some c) : c.IsOther := by
  rcases Option.or_eq_some_iff.mp h with h | ⟨-, h⟩
  · exact other_of_exactly h
  · exact other_of_exactly h

theorem other_of_arrayLength {element : BaseType} (h : arrayLength element found = some c) : c.IsOther := by
  unfold arrayLength at h
  split at h
  · cases h
    rfl
  · exact other_of_exactly h

theorem other_of_element (h : element τ = .error c) : c.IsOther := by
  unfold element at h
  split at h <;> cases h
  rfl

theorem other_of_arguments {named : Bool} {params args : List (Option ValueType)} (h : c ∈ arguments named params args) :
    c.IsOther := by
  induction params generalizing named args with
  | nil =>
    cases args with
    | nil => cases h
    | cons found args =>
      rw [List.mem_singleton.mp h]
      rfl
  | cons expected params ih =>
    cases args with
    | nil =>
      rw [List.mem_singleton.mp h]
      rfl
    | cons found args =>
      rw [arguments] at h
      split at h
      · rename_i cause hcause
        rcases List.mem_cons.mp h with rfl | h
        · split at hcause
          · cases hcause
          · obtain ⟨slot, -, hcause⟩ := Option.bind_eq_some_iff.mp hcause
            exact other_of_fits hcause
        · exact ih h
      · exact ih h

theorem other_of_returned (h : returned τ found = some c) : c.IsOther := by
  unfold returned at h
  split at h
  · cases h
    rfl
  · exact other_of_fits h

theorem other_of_returnedNothing (h : returnedNothing τ = some c) : c.IsOther := by
  unfold returnedNothing at h
  split at h <;> cases h
  rfl

end Typing

namespace Analysis

def Verdict.IsOther (v : Verdict) : Prop := ∀ d ∈ v.reports, d.IsOther

theorem other_complaint {cause : Option SemanticCause} (h : ∀ c, cause = some c → c.IsOther) (x : Lexeme) :
    ∀ d ∈ complaint x cause, d.IsOther := by
  intro d hd
  obtain ⟨c, hc, rfl⟩ := List.mem_map.mp hd
  exact (h c (Option.mem_toList.mp hc)).about x

variable (a : Analysis)

theorem operandVerdict_other (τ : ValueType) (n : NodeId) (mark : Lexeme) : (a.operandVerdict τ n mark).IsOther :=
  other_complaint (fun _ h => Typing.other_of_exactly h) mark

theorem binaryVerdict_other (op : BinaryOp) (left right : NodeId) (mark : Lexeme) :
    (a.binaryVerdict op left right mark).IsOther := by
  cases op with
  | assign =>
    refine other_complaint (fun c h => ?_) mark
    obtain ⟨target, -, h⟩ := Option.bind_eq_some_iff.mp h
    exact Typing.other_of_assignment h
  | compare q => exact other_complaint (fun c h => Typing.other_of_comparison h) mark
  | arith o =>
    refine other_complaint (fun c h => ?_) mark
    obtain ⟨target, -, h⟩ := Option.bind_eq_some_iff.mp h
    exact Typing.other_of_arithmetic h

theorem callVerdict_other (callee : NodeId) (args : List NodeId) (name : Lexeme) :
    (a.callVerdict callee args name).IsOther := by
  unfold callVerdict
  dsimp only
  split
  · exact List.forall_mem_nil _
  · split
    · intro d hd
      obtain ⟨c, hc, rfl⟩ := List.mem_map.mp hd
      exact (Typing.other_of_arguments hc).about name
    · intro d hd
      rw [List.mem_singleton.mp hd]
      exact ⟨rfl, rfl⟩

theorem indexVerdict_other (base subscript : NodeId) (bracket : Lexeme) : (a.indexVerdict base subscript bracket).IsOther := by
  have hsubscript : ∀ d ∈ complaint bracket (Typing.exactly .int (a.typeOf subscript)), d.IsOther :=
    other_complaint (fun c h => Typing.other_of_exactly h) bracket
  unfold indexVerdict Verdict.index
  dsimp only
  split
  · exact hsubscript
  · exact hsubscript
  · rename_i cause hcause
    obtain ⟨τ, -, hτ⟩ := Option.map_eq_some_iff.mp hcause
    exact List.forall_mem_cons.mpr ⟨(Typing.other_of_element hτ).about bracket, hsubscript⟩

theorem selectVerdict_other (object : NodeId) (dot field : Lexeme) : (a.selectVerdict object dot field).IsOther := by
  unfold selectVerdict
  split
  · exact List.forall_mem_nil _
  · split
    · split
      · exact List.forall_mem_nil _
      · exact List.forall_mem_singleton.mpr ⟨rfl, rfl⟩
    · exact List.forall_mem_singleton.mpr ⟨rfl, rfl⟩
  · exact List.forall_mem_singleton.mpr ⟨rfl, rfl⟩

theorem newArrayVerdict_other (element : BaseType) (length : NodeId) (mark : Lexeme) :
    (a.newArrayVerdict element length mark).IsOther :=
  other_complaint (fun _ h => Typing.other_of_arrayLength h) mark

theorem variableVerdict_other (n value : NodeId) (name equals : Lexeme) : (a.variableVerdict n value name equals).IsOther := by
  unfold variableVerdict
  split
  · exact List.forall_mem_nil _
  · exact other_complaint (fun _ h => Typing.other_of_variableInit h) _

theorem functionVerdict_other (n : NodeId) (name : Lexeme) (sites : List ReturnSite) :
    (a.functionVerdict n name sites).IsOther := by
  unfold functionVerdict
  split
  · exact List.forall_mem_nil _
  · intro d hd
    rcases List.mem_append.mp hd with hd | hd
    · split at hd
      · rw [List.mem_singleton.mp hd]
        exact ⟨rfl, rfl⟩
      · cases hd
    · obtain ⟨site, -, hd⟩ := List.mem_flatMap.mp hd
      refine other_complaint (fun c h => ?_) site.mark d hd
      unfold returnCause at h
      split at h
      · exact Typing.other_of_returnedNothing h
      · exact Typing.other_of_returned h

end Analysis

/-! ### Work that leaves names alone -/

theorem SymbolTable.attrs_modify
    (hf : (f (s.get id)).attrs = (s.get id).attrs) (m : SymbolId) : ((s.modify id f).get m).attrs = (s.get m).attrs := by
  by_cases hm : m = id
  · subst hm
    by_cases hin : m.index < s.size
    · rw [get_modify hin, if_pos rfl, hf]
    · rw [get_modify_out (Nat.le_of_not_lt hin)]
  · rw [get_modify_of_ne hm]

theorem SymbolTable.fields_modify
    (hf : (f (s.get id)).fields = (s.get id).fields) (m : SymbolId) : ((s.modify id f).get m).fields = (s.get m).fields := by
  by_cases hm : m = id
  · subst hm
    by_cases hin : m.index < s.size
    · rw [get_modify hin, if_pos rfl, hf]
    · rw [get_modify_out (Nat.le_of_not_lt hin)]
  · rw [get_modify_of_ne hm]

def SymbolTable.fieldTable? (s : SymbolTable) (tag : String) : Option (List (String × SymbolId)) :=
  (s.struct? tag).bind fun id => (s.get id).fields

/-- Work on the nodes from `k` up to `m` that binds nothing, opens or closes no block and complains of no undeclared name. -/
structure Analysis.Neutral (k m : Nat) (a b : Analysis) : Prop extends Effect k m a b where
  openScopes : b.symbols.openScopes = a.symbols.openScopes
  nextBlock : b.symbols.nextBlock = a.symbols.nextBlock
  attrs : a.symbols.Sound → ∀ id : SymbolId, id.index < a.symbols.size →
    (b.symbols.get id).attrs = (a.symbols.get id).attrs
  undeclared : Log.undeclared b.log = Log.undeclared a.log

/-- Work that besides leaves the closed scopes and the fields of structs alone, and complains of no name that is declared
    twice. -/
structure Analysis.Aside (k m : Nat) (a b : Analysis) : Prop extends Neutral k m a b where
  archive : b.symbols.archive = a.symbols.archive
  fields : a.symbols.Sound → ∀ tag, b.symbols.fieldTable? tag = a.symbols.fieldTable? tag
  redeclared : Log.redeclared b.log = Log.redeclared a.log

namespace Analysis

section Neutral

variable {k m : Nat} {a b c : Analysis} {d : Declaration}

theorem Neutral.refl (k m : Nat) (a : Analysis) : Neutral k m a a :=
  ⟨.refl k m a, rfl, rfl, fun _ _ _ => rfl, rfl⟩

theorem Neutral.trans (h : Neutral k m a b) (h' : Neutral k m b c) : Neutral k m a c where
  toEffect := h.toEffect.trans h'.toEffect
  openScopes := h'.openScopes.trans h.openScopes
  nextBlock := h'.nextBlock.trans h.nextBlock
  attrs hs id hid := by
    have hevolves := h.symbols hs
    exact (h'.attrs hevolves.sound id (Nat.lt_of_lt_of_le hid hevolves.size)).trans (h.attrs hs id hid)
  undeclared := h'.undeclared.trans h.undeclared

theorem Aside.refl (k m : Nat) (a : Analysis) : Aside k m a a := ⟨.refl k m a, rfl, fun _ _ => rfl, rfl⟩

theorem Aside.trans (h : Aside k m a b) (h' : Aside k m b c) : Aside k m a c where
  toNeutral := h.toNeutral.trans h'.toNeutral
  archive := h'.archive.trans h.archive
  fields hs tag := (h'.fields (h.symbols hs).sound tag).trans (h.fields hs tag)
  redeclared := h'.redeclared.trans h.redeclared

variable (a) {n : NodeId}

theorem aside_decorate (d : Decoration) (hk : k ≤ n.index) (hm : n.index < m) : Aside k m a (a.decorate n d) :=
  ⟨⟨effect_decorate a d hk hm, rfl, rfl, fun _ _ _ => rfl, rfl⟩, rfl, fun _ _ => rfl, rfl⟩

theorem aside_setBlock (block : Nat) (hk : k ≤ n.index) (hm : n.index < m) : Aside k m a (a.setBlock n block) :=
  a.aside_decorate _ hk hm

theorem neutral_report {d : Diagnostic} (hd : d.isUndeclared = false) : Neutral k m a (a.report d) :=
  ⟨effect_report a d, rfl, rfl, fun _ _ _ => rfl, Log.undeclared_push hd⟩

theorem aside_report {d : Diagnostic} (hd : d.IsOther) : Aside k m a (a.report d) :=
  ⟨a.neutral_report hd.1, rfl, fun _ _ => rfl, Log.redeclared_push hd.2⟩

theorem aside_queue (q : Queues) : Aside k m a { a with queues := q } :=
  ⟨⟨effect_queue a q, rfl, rfl, fun _ _ _ => rfl, rfl⟩, rfl, fun _ _ => rfl, rfl⟩

theorem aside_reports {ds : List Diagnostic} (hds : ∀ d ∈ ds, d.IsOther) : Aside k m a (ds.foldl report a) := by
  induction ds generalizing a with
  | nil => exact .refl _ _ _
  | cons d ds ih =>
    obtain ⟨hd, hds⟩ := List.forall_mem_cons.mp hds
    exact (a.aside_report hd).trans (ih _ hds)

theorem aside_place (tag : Tag) (hk : k ≤ n.index := by dsimp only; omega)
    (hm : n.index < m := by dsimp only; omega) : Aside k m a (a.place n tag) := by
  unfold place
  dsimp only
  split
  · exact .refl _ _ _
  · exact a.aside_decorate _ hk hm

theorem aside_apply {v : Verdict} (hv : v.IsOther) (hk : k ≤ n.index := by dsimp only; omega)
    (hm : n.index < m := by dsimp only; omega) : Aside k m a (a.apply n v) := by
  unfold apply
  dsimp only
  split
  · exact (a.aside_reports hv).trans (aside_decorate _ _ hk hm)
  · exact a.aside_reports hv

theorem aside_setSymbols {s : SymbolTable} (hs : a.symbols.Sound → a.symbols.Evolves s)
    (hopen : s.openScopes = a.symbols.openScopes) (hnext : s.nextBlock = a.symbols.nextBlock)
    (harchive : s.archive = a.symbols.archive)
    (hattrs : ∀ id : SymbolId, id.index < a.symbols.size → (s.get id).attrs = (a.symbols.get id).attrs)
    (hfields : a.symbols.Sound → ∀ tag, s.fieldTable? tag = a.symbols.fieldTable? tag) : Aside k m a (a.setSymbols s) :=
  ⟨⟨effect_setSymbols a hs, hopen, hnext, fun _ => hattrs, rfl⟩, harchive, hfields, rfl⟩

theorem aside_modify (id : SymbolId) {f : Symbol → Symbol} (hf : (a.symbols.get id).Keeps (f (a.symbols.get id)))
    (hattrs : (f (a.symbols.get id)).attrs = (a.symbols.get id).attrs)
    (hfields : (f (a.symbols.get id)).fields = (a.symbols.get id).fields) :
    Aside k m a (a.setSymbols (a.symbols.modify id f)) := by
  refine a.aside_setSymbols (fun hs => hs.modify id f hf) rfl rfl rfl (fun m _ => SymbolTable.attrs_modify hattrs m)
    fun _ tag => ?_
  unfold SymbolTable.fieldTable?
  simp only [SymbolTable.fields_modify hfields]
  rfl

theorem fieldTable?_push (hs : a.symbols.Sound) (x : Symbol) (tag : String) :
    (a.symbols.push x).2.fieldTable? tag = a.symbols.fieldTable? tag := by
  refine Option.bind_congr fun id hid => ?_
  rw [SymbolTable.get_push_old x (hs.structs _ (SymbolTable.mem_of_lookup hid)).1]

theorem aside_placeholder (tag : Lexeme) : Aside k m a (a.setSymbols (a.symbols.structOrPlaceholder tag).2) := by
  refine a.aside_setSymbols (fun h => (h.structOrPlaceholder tag).1) ?_ ?_ ?_ (fun id hid => ?_) fun hs x => ?_
  · unfold SymbolTable.structOrPlaceholder
    split <;> rfl
  · unfold SymbolTable.structOrPlaceholder
    split <;> rfl
  · unfold SymbolTable.structOrPlaceholder
    split <;> rfl
  · rw [(a.symbols.structOrPlaceholder_extends tag).get id hid]
  · -- a tag that was not seen has no fields yet, and no other tag gets its symbol
    unfold SymbolTable.structOrPlaceholder
    split
    · rfl
    · rename_i hnew
      rw [← a.fieldTable?_push hs ⟨tag.text, tag.loc, globalBlock, .typed (.struct tag.text) {}, none, none⟩ x]
      unfold SymbolTable.fieldTable? SymbolTable.struct?
      dsimp only
      rw [List.lookup_append]
      by_cases hx : x = tag.text
      · have hold : (a.symbols.push ⟨tag.text, tag.loc, globalBlock, .typed (.struct tag.text) {}, none, none⟩).2.structs.lookup
            x = none := hx ▸ hnew
        rw [hold, List.lookup_cons, hx, beq_self_eq_true]
        exact congrArg Symbol.fields (SymbolTable.get_push_new _)
      · rw [List.lookup_cons, beq_eq_false_iff_ne.mpr hx, List.lookup_nil, Option.or_none]
        rfl

theorem aside_useStruct (tag : Lexeme) (mayLackFields : Bool) (hk : k ≤ n.index) (hm : n.index < m) :
    Aside k m a (a.useStruct n tag mayLackFields) := by
  unfold useStruct
  dsimp only
  refine .trans ?_ (aside_decorate _ _ hk hm)
  split
  · exact a.aside_placeholder tag
  · exact (a.aside_placeholder tag).trans (aside_report _ ⟨rfl, rfl⟩)

theorem aside_useTypeName (name : TypeName) (mayLackFields : Bool) (hk : k ≤ n.index) (hm : n.index < m) :
    Aside k m a (a.useTypeName n name mayLackFields) := by
  cases name with
  | scalar s lexeme => exact .refl _ _ _
  | struct tag => exact a.aside_useStruct tag mayLackFields hk hm

theorem aside_useBase (mayLackFields : Bool) (hd : d.Within k m) :
    Aside k m a (a.useBase d mayLackFields) := by
  unfold useBase
  split
  · exact a.aside_useStruct _ _ hd.1.1 hd.1.2
  · exact .refl _ _ _

theorem aside_declare (x : Lexeme) (attrs : Attributes) (hk : k ≤ n.index) (hm : n.index < m) :
    Aside k m a (a.declare n x attrs).2 := by
  have hpush : Aside k m a (a.setSymbols (a.symbols.push ⟨x.text, x.loc, a.symbols.currentBlock, attrs, none, none⟩).2) :=
    a.aside_setSymbols (fun h => h.push _) rfl rfl rfl (fun id hid => by rw [SymbolTable.get_push_old _ hid])
      fun hs tag => a.fieldTable?_push hs _ tag
  exact hpush.trans (aside_decorate _ _ hk hm)

theorem aside_refuseVoid (d : Declaration) (roles : Roles) : Aside k m a (a.refuseVoid d roles) := by
  unfold refuseVoid
  split
  · exact a.aside_report ⟨rfl, rfl⟩
  · exact .refl _ _ _

def declareName (d : Declaration) (roles : Roles) (a : Analysis) : Analysis :=
  ((a.useBase d roles.field).declare d.nameNode d.name (.typed d.type roles)).2.refuseVoid d roles

theorem define_eq_bind (d : Declaration) {roles : Roles} (hfield : roles.field = false) :
    a.define d roles = (a.declareName d roles).bind d.name ⟨(a.useBase d roles.field).symbols.size⟩ roles := by
  unfold define
  dsimp only
  rw [if_neg (by rw [hfield]; exact Bool.false_ne_true)]
  rfl

theorem aside_declareName (roles : Roles) (hd : d.Within k m) : Aside k m a (a.declareName d roles) :=
  ((a.aside_useBase _ hd).trans (aside_declare _ _ _ hd.2.1 hd.2.2)).trans (aside_refuseVoid _ _ _)

theorem neutral_addField (struct field : SymbolId) (depth : Nat) : Neutral k m a (a.addField struct depth field) := by
  have heff : Effect k m a (a.addField struct depth field) := effect_addField a struct field depth
  unfold addField at heff ⊢
  dsimp only at heff ⊢
  by_cases hfield : ((a.symbols.get struct).field? (a.symbols.get field).name).isSome = true
  · rw [if_pos hfield]
    exact a.neutral_report rfl
  · rw [if_neg hfield] at heff ⊢
    exact ⟨heff, rfl, rfl, fun _ id _ => SymbolTable.attrs_modify rfl id, rfl⟩

theorem neutral_openStruct (tag : Lexeme) (hk : k ≤ n.index) (hm : n.index < m) :
    Neutral k m a (a.openStruct n tag).2 := by
  have hplaceholder : Neutral k m a _ := (a.aside_placeholder tag).toNeutral
  have heff : Effect k m a (a.openStruct n tag).2 := effect_openStruct a tag hk hm
  unfold openStruct at heff ⊢
  dsimp only at heff ⊢
  by_cases hbody : ((a.symbols.structOrPlaceholder tag).2.get (a.symbols.structOrPlaceholder tag).1).isComplete = true
  · rw [if_pos hbody]
    exact hplaceholder.trans (neutral_report _ rfl)
  · rw [if_neg hbody] at heff ⊢
    exact ⟨heff, hplaceholder.openScopes, hplaceholder.nextBlock,
      fun hs id hid => (SymbolTable.attrs_modify rfl id).trans (hplaceholder.attrs hs id hid), rfl⟩

theorem aside_defineField (hd : d.Within k m) : Aside k m a (a.define d { field := true }).2 :=
  a.aside_declareName { field := true } hd

theorem neutral_defineFields (struct : SymbolId) (depth : Nat) {ds : List Declaration}
    (hds : ∀ d ∈ ds, Declaration.Within k m d) : Neutral k m a (defineFields struct depth ds a) := by
  induction ds generalizing a with
  | nil => exact .refl _ _ _
  | cons d ds ih =>
    obtain ⟨hd, hds⟩ := List.forall_mem_cons.mp hds
    exact ((a.aside_defineField hd).toNeutral.trans (neutral_addField _ _ _ _)).trans (ih _ hds)

theorem neutral_defineStructAs {name : NodeId} (n : NodeId) (tag : Lexeme) {fields : List Declaration}
    (hk : k ≤ name.index) (hm : name.index < m) (hfields : ∀ d ∈ fields, Declaration.Within k m d) :
    Neutral k m a (a.defineStructAs n name tag fields) := by
  have hopen : Neutral k m a (a.openStruct name tag).2 := a.neutral_openStruct tag hk hm
  unfold defineStructAs
  split
  · rename_i b hb
    rwa [hb] at hopen
  · rename_i id b hb
    rw [hb] at hopen
    exact (hopen.trans (neutral_defineFields b _ _ hfields)).trans (aside_queue _ _).toNeutral

end Neutral

end Analysis

section Place

variable {k m : Nat} (a : Analysis) {j : Nat}

theorem Analysis.aside_queueGlobal (n : NodeId) : Aside k m a (a.queueGlobal n) := by
  unfold queueGlobal
  split
  · exact a.aside_queue _
  · exact .refl _ _ _

theorem Decl.aside_place (d : Decl) (tag : Tag) (hk : m ≤ k) (hj : k + d.size ≤ j) :
    Aside m j a (d.place k tag a) := by
  obtain ⟨base, mark, name⟩ := d
  cases mark with
  | some mark =>
    have hj : k + 3 ≤ j := hj
    show Aside m j a (((a.place ⟨k + 2⟩ .array).place ⟨k⟩ base.tag).place ⟨k + 1⟩ tag)
    exact ((a.aside_place _).trans
      (Analysis.aside_place _ _)).trans
      (Analysis.aside_place _ _)
  | none =>
    have hj : k + 2 ≤ j := hj
    show Aside m j a ((a.place ⟨k⟩ base.tag).place ⟨k + 1⟩ tag)
    exact (a.aside_place _).trans
      (Analysis.aside_place _ _)

theorem Decl.aside_placeAll (ds : List Decl) (tag : Tag) (hk : m ≤ k) (hj : k + sizes ds ≤ j) :
    Aside m j a (placeAll k tag ds a) := by
  induction ds generalizing k a with
  | nil => exact .refl _ _ _
  | cons d ds ih =>
    rw [sizes] at hj
    exact (d.aside_place a tag hk (by omega)).trans (ih _ (by omega) (by omega))

theorem Item.aside_placeHead (d : Decl) (params : List Decl) (hk : m ≤ k)
    (hj : k + d.size + 1 + Decl.sizes params ≤ j) : Aside m j a (placeHead k d params a) :=
  ((d.aside_place a _ hk (by omega)).trans (Analysis.aside_place _ _)).trans
    (Decl.aside_placeAll _ params _ (by omega) (by omega))

end Place

end OcCompiler
