import OcCompiler.Proofs.Unplaced
import OcCompiler.Proofs.Walk

/-! Analysis without places. Nothing that the analysis decides depends on where a lexeme stands: places only go into the
    symbols and into the diagnostics. -/

namespace OcCompiler

namespace Symbol

def unplaced (s : Symbol) : Symbol := { s with loc := {} }

variable (s : Symbol)

@[simp] theorem name_unplaced : s.unplaced.name = s.name := rfl

@[simp] theorem block_unplaced : s.unplaced.block = s.block := rfl

@[simp] theorem attrs_unplaced : s.unplaced.attrs = s.attrs := rfl

@[simp] theorem fields_unplaced : s.unplaced.fields = s.fields := rfl

@[simp] theorem params_unplaced : s.unplaced.params = s.params := rfl

@[simp] theorem isComplete_unplaced : s.unplaced.isComplete = s.isComplete := rfl

@[simp] theorem field?_unplaced (name : String) : s.unplaced.field? name = s.field? name := rfl

end Symbol

namespace SymbolTable

def unplaced (t : SymbolTable) : SymbolTable := { t with entries := t.entries.map Symbol.unplaced }

variable (t : SymbolTable)

@[simp] theorem size_unplaced : t.unplaced.size = t.size := by simp [unplaced, size]

@[simp] theorem get_unplaced (id : SymbolId) : t.unplaced.get id = (t.get id).unplaced := by
  simp only [get, unplaced, Array.getD_eq_getD_getElem?, Array.getElem?_map]
  cases t.entries[id.index]? <;> rfl

@[simp] theorem currentBlock_unplaced : t.unplaced.currentBlock = t.currentBlock := rfl

@[simp] theorem depth_unplaced : t.unplaced.depth = t.depth := rfl

@[simp] theorem lookup_unplaced (name : String) : t.unplaced.lookup name = t.lookup name := rfl

@[simp] theorem lookupInBlock_unplaced (block : Nat) (name : String) :
    t.unplaced.lookupInBlock block name = t.lookupInBlock block name := rfl

@[simp] theorem struct?_unplaced (name : String) : t.unplaced.struct? name = t.struct? name := rfl

@[simp] theorem unplaced_enterBlock : t.enterBlock.unplaced = t.unplaced.enterBlock := rfl

@[simp] theorem unplaced_exitBlock : t.exitBlock.2.unplaced = t.unplaced.exitBlock.2 := by
  obtain ⟨entries, inner, outer, archive, structs, nextBlock, listing⟩ := t
  cases outer <;> rfl

@[simp] theorem unplaced_record (depth : Nat) (id : SymbolId) : (t.record depth id).unplaced = t.unplaced.record depth id :=
  rfl

@[simp] theorem unplaced_recordBlank : t.recordBlank.unplaced = t.unplaced.recordBlank := rfl

theorem insert_unplaced (name : String) (id : SymbolId) : t.unplaced.insert name id = (t.insert name id).map unplaced := by
  rw [insert, insert]
  cases h : t.inner.find? name with
  | some existing => rw [show t.unplaced.inner.find? name = some existing from h]; rfl
  | none => rw [show t.unplaced.inner.find? name = none from h]; rfl

theorem push_unplaced (s : Symbol) : t.unplaced.push s.unplaced = ((t.push s).1, (t.push s).2.unplaced) := by
  simp [push, unplaced, size]

theorem unplaced_modify (id : SymbolId) {f f' : Symbol → Symbol} (hf : ∀ s, (f s).unplaced = f' s.unplaced) :
    (t.modify id f).unplaced = t.unplaced.modify id f' := by
  have hentries : (t.entries.modify id.index f).map Symbol.unplaced = (t.entries.map Symbol.unplaced).modify id.index f' := by
    refine Array.ext_getElem? fun i => ?_
    simp only [Array.getElem?_map, Array.getElem?_modify]
    split
    · cases t.entries[i]? with
      | none => rfl
      | some s => exact congrArg some (hf s)
    · rfl
  simp only [modify, unplaced, hentries]

theorem structOrPlaceholder_unplaced (tag : Lexeme) :
    t.unplaced.structOrPlaceholder tag.unplaced =
      ((t.structOrPlaceholder tag).1, (t.structOrPlaceholder tag).2.unplaced) := by
  rw [structOrPlaceholder, structOrPlaceholder, struct?_unplaced, Lexeme.text_unplaced]
  cases t.struct? tag.text with
  | some id => rfl
  | none => simp [push, unplaced, size, Symbol.unplaced, Lexeme.unplaced]

end SymbolTable

def Diagnostic.unplaced (d : Diagnostic) : Diagnostic := { d with loc := {} }

@[simp] theorem SemanticCause.unplaced_about (c : SemanticCause) (x : Lexeme) : (c.about x).unplaced = c.about x.unplaced :=
  rfl

def Log.unplaced (log : Log) : Log := log.map Diagnostic.unplaced

def Declaration.unplaced (d : Declaration) : Declaration :=
  { d with typeLexeme := d.typeLexeme.unplaced, name := d.name.unplaced }

@[simp] theorem Declaration.type_unplaced (d : Declaration) : d.unplaced.type = d.type := rfl

@[simp] theorem Declaration.nameNode_unplaced (d : Declaration) : d.unplaced.nameNode = d.nameNode := rfl

@[simp] theorem Declaration.name_unplaced (d : Declaration) : d.unplaced.name = d.name.unplaced := rfl

namespace Analysis

def unplaced (a : Analysis) : Analysis := { a with symbols := a.symbols.unplaced, log := a.log.unplaced }

variable (a : Analysis)

@[simp] theorem decoration_unplaced (n : NodeId) : a.unplaced.decoration n = a.decoration n := rfl

@[simp] theorem attrs_unplaced (n : NodeId) : a.unplaced.attrs n = a.attrs n := rfl

@[simp] theorem typeOf_unplaced (n : NodeId) : a.unplaced.typeOf n = a.typeOf n := rfl

@[simp] theorem symbols_unplaced : a.unplaced.symbols = a.symbols.unplaced := rfl

@[simp] theorem unplaced_decorate (n : NodeId) (d : Decoration) : (a.decorate n d).unplaced = a.unplaced.decorate n d := rfl

@[simp] theorem unplaced_setAttrs (n : NodeId) (attrs : Attributes) :
    (a.setAttrs n attrs).unplaced = a.unplaced.setAttrs n attrs := rfl

@[simp] theorem unplaced_setBlock (n : NodeId) (block : Nat) : (a.setBlock n block).unplaced = a.unplaced.setBlock n block :=
  rfl

@[simp] theorem unplaced_setType (n : NodeId) (type : ValueType) : (a.setType n type).unplaced = a.unplaced.setType n type :=
  rfl

@[simp] theorem unplaced_setSymbols (symbols : SymbolTable) :
    (a.setSymbols symbols).unplaced = a.unplaced.setSymbols symbols.unplaced := rfl

@[simp] theorem unplaced_report (d : Diagnostic) : (a.report d).unplaced = a.unplaced.report d.unplaced := by
  simp [report, unplaced, Log.unplaced]

@[simp] theorem unplaced_reports (ds : List Diagnostic) :
    (ds.foldl report a).unplaced = (ds.map Diagnostic.unplaced).foldl report a.unplaced := by
  induction ds generalizing a with
  | nil => rfl
  | cons d ds ih => rw [List.foldl_cons, ih, unplaced_report, List.map_cons, List.foldl_cons]

@[simp] theorem unplaced_markField (n : NodeId) : (a.markField n).unplaced = a.unplaced.markField n := rfl

@[simp] theorem unplaced_exitBlock : a.exitBlock.unplaced = a.unplaced.exitBlock := by
  rw [exitBlock, unplaced_setSymbols, SymbolTable.unplaced_exitBlock]
  rfl

@[simp] theorem unplaced_place (n : NodeId) (tag : Tag) : (a.place n tag).unplaced = a.unplaced.place n tag := by
  rw [place, apply_ite unplaced]
  rfl

@[simp] theorem unplaced_refer (n : NodeId) (x : Lexeme) : (a.refer n x).unplaced = a.unplaced.refer n x.unplaced := by
  rw [refer, refer, symbols_unplaced, SymbolTable.lookup_unplaced, Lexeme.text_unplaced]
  cases a.symbols.lookup x.text <;> simp

@[simp] theorem unplaced_useStruct (n : NodeId) (tag : Lexeme) (mayLackFields : Bool) :
    (a.useStruct n tag mayLackFields).unplaced = a.unplaced.useStruct n tag.unplaced mayLackFields := by
  simp only [useStruct, symbols_unplaced, SymbolTable.structOrPlaceholder_unplaced, unplaced_decorate,
    SymbolTable.currentBlock_unplaced, SymbolTable.get_unplaced, Symbol.isComplete_unplaced]
  split
  · rfl
  · rw [unplaced_report]
    rfl

theorem declare_unplaced (n : NodeId) (x : Lexeme) (attrs : Attributes) :
    a.unplaced.declare n x.unplaced attrs = ((a.declare n x attrs).1, (a.declare n x attrs).2.unplaced) := by
  have hpush := a.symbols.push_unplaced { name := x.text, loc := x.loc, block := a.symbols.currentBlock, attrs }
  rw [Symbol.unplaced] at hpush
  simp only [declare, symbols_unplaced, SymbolTable.currentBlock_unplaced, Lexeme.unplaced, hpush, unplaced_decorate,
    unplaced_setSymbols]

theorem bind_unplaced (x : Lexeme) (id : SymbolId) (roles : Roles) :
    a.unplaced.bind x.unplaced id roles = ((a.bind x id roles).1, (a.bind x id roles).2.unplaced) := by
  rw [bind, bind, symbols_unplaced, SymbolTable.insert_unplaced, Lexeme.text_unplaced]
  cases a.symbols.insert x.text id with
  | ok symbols => rfl
  | error existing =>
    simp only [Except.map, SymbolTable.get_unplaced, Symbol.attrs_unplaced]
    split
    · rfl
    · rw [unplaced_report]
      rfl

@[simp] theorem unplaced_useBase (d : Declaration) (mayLackFields : Bool) :
    (a.useBase d mayLackFields).unplaced = a.unplaced.useBase d.unplaced mayLackFields := by
  obtain ⟨base, typeNode, typeLexeme, isArray, nameNode, name⟩ := d
  cases base with
  | struct tag => exact a.unplaced_useStruct _ _ _
  | scalar s => rfl

@[simp] theorem unplaced_refuseVoid (d : Declaration) (roles : Roles) :
    (a.refuseVoid d roles).unplaced = a.unplaced.refuseVoid d.unplaced roles := by
  rw [refuseVoid, refuseVoid, Declaration.type_unplaced]
  split
  · exact a.unplaced_report _
  · rfl

theorem define_unplaced (d : Declaration) (roles : Roles) :
    a.unplaced.define d.unplaced roles = ((a.define d roles).1, (a.define d roles).2.unplaced) := by
  simp only [define, ← unplaced_useBase, Declaration.type_unplaced, Declaration.nameNode_unplaced,
    Declaration.name_unplaced, declare_unplaced, ← unplaced_refuseVoid]
  split
  · rfl
  · exact bind_unplaced _ _ _ _

@[simp] theorem unplaced_define (d : Declaration) (roles : Roles) :
    (a.define d roles).2.unplaced = (a.unplaced.define d.unplaced roles).2 := by rw [define_unplaced]

theorem unplaced_addField (struct : SymbolId) (depth : Nat) (field : SymbolId) :
    (a.addField struct depth field).unplaced = a.unplaced.addField struct depth field := by
  simp only [addField, symbols_unplaced, SymbolTable.get_unplaced, Symbol.name_unplaced, Symbol.field?_unplaced]
  rw [apply_ite unplaced, unplaced_report, unplaced_setSymbols, SymbolTable.unplaced_record, SymbolTable.unplaced_modify]
  · rfl
  · exact fun _ => rfl

theorem unplaced_defineFields (struct : SymbolId) (depth : Nat) (ds : List Declaration) :
    (a.defineFields struct depth ds).unplaced = a.unplaced.defineFields struct depth (ds.map Declaration.unplaced) := by
  induction ds generalizing a with
  | nil => rfl
  | cons d ds ih => rw [List.map_cons, defineFields, defineFields, define_unplaced, ih, unplaced_addField]

theorem openStruct_unplaced (n : NodeId) (tag : Lexeme) :
    a.unplaced.openStruct n tag.unplaced = ((a.openStruct n tag).1, (a.openStruct n tag).2.unplaced) := by
  rw [openStruct, openStruct, symbols_unplaced, SymbolTable.structOrPlaceholder_unplaced]
  generalize a.symbols.structOrPlaceholder tag = found
  obtain ⟨id, symbols⟩ := found
  have hmodify : (symbols.modify id fun s => { s with loc := tag.loc, block := symbols.currentBlock, fields := some [] }).unplaced =
      symbols.unplaced.modify id fun s =>
        { s with loc := tag.unplaced.loc, block := symbols.currentBlock, fields := some [] } :=
    SymbolTable.unplaced_modify _ _ fun _ => rfl
  simp only [SymbolTable.get_unplaced, Symbol.isComplete_unplaced, SymbolTable.currentBlock_unplaced, ← hmodify]
  split
  · rw [unplaced_report]
    rfl
  · rfl

@[simp] theorem unplaced_defineStructAs (n name : NodeId) (tag : Lexeme) (fields : List Declaration) :
    (a.defineStructAs n name tag fields).unplaced =
      a.unplaced.defineStructAs n name tag.unplaced (fields.map Declaration.unplaced) := by
  rw [defineStructAs, defineStructAs, openStruct_unplaced]
  generalize a.openStruct name tag = opened
  obtain ⟨id | id, b⟩ := opened
  · rfl
  · simp only
    rw [symbols_unplaced, SymbolTable.depth_unplaced, ← unplaced_defineFields]
    rfl

theorem paramDivergence_unplaced {agrees agrees' : Symbol → SymbolId → Bool}
    (hagrees : ∀ s id, agrees' s.unplaced id = agrees s id) (last : Location) (params : List Symbol)
    (announced : List SymbolId) :
    paramDivergence agrees' {} (params.map Symbol.unplaced) announced =
      (paramDivergence agrees last params announced).map fun _ => {} := by
  induction params generalizing last announced with
  | nil =>
    cases announced <;> rfl
  | cons param params ih =>
    cases announced with
    | nil => rfl
    | cons id announced =>
      rw [List.map_cons, paramDivergence, paramDivergence, hagrees]
      split
      · exact ih param.loc announced
      · rfl

theorem prototypeDivergence_unplaced (symbols : SymbolTable) (definition prototype : Symbol) (params : List SymbolId) :
    prototypeDivergence symbols.unplaced definition.unplaced prototype.unplaced params =
      (prototypeDivergence symbols definition prototype params).map fun _ => {} := by
  simp only [prototypeDivergence, Symbol.attrs_unplaced, Symbol.params_unplaced, SymbolTable.get_unplaced,
    Symbol.block_unplaced, SymbolTable.lookupInBlock_unplaced]
  split
  · rfl
  · have hparams : params.map symbols.unplaced.get = (params.map symbols.get).map Symbol.unplaced := by simp
    rw [hparams]
    exact paramDivergence_unplaced (fun _ _ => rfl) _ _ _

theorem unplaced_matchPrototype (definition prototype : SymbolId) (params : List SymbolId) :
    (a.matchPrototype definition prototype params).unplaced = a.unplaced.matchPrototype definition prototype params := by
  have hmodify : (a.symbols.modify prototype fun s =>
        { s with attrs := { s.attrs with roles := { s.attrs.roles with prototype := false } } }).unplaced =
      a.symbols.unplaced.modify prototype fun s =>
        { s with attrs := { s.attrs with roles := { s.attrs.roles with prototype := false } } } :=
    SymbolTable.unplaced_modify _ _ fun _ => rfl
  simp only [matchPrototype, symbols_unplaced, ← hmodify, SymbolTable.get_unplaced, prototypeDivergence_unplaced]
  split
  · rename_i loc hloc
    rw [hloc, unplaced_report]
    rfl
  · rename_i hnone
    rw [hnone]
    rfl

theorem defineParams_unplaced (ds : List Declaration) :
    defineParams (ds.map Declaration.unplaced) a.unplaced = ((defineParams ds a).1, (defineParams ds a).2.unplaced) := by
  induction ds generalizing a with
  | nil => rfl
  | cons d ds ih =>
    rw [List.map_cons, defineParams, define_unplaced, defineParams]
    simp only [ih]

@[simp] theorem enterBlock_unplaced : a.unplaced.enterBlock = (a.enterBlock.1, a.enterBlock.2.unplaced) := rfl

@[simp] theorem unplaced_openFunction (d : Declaration) (paramList : NodeId) (params : List Declaration) (roles : Roles) :
    (a.openFunction d paramList params roles).unplaced =
      a.unplaced.openFunction d.unplaced paramList (params.map Declaration.unplaced) roles := by
  simp only [openFunction, define_unplaced, enterBlock_unplaced, ← unplaced_setBlock, defineParams_unplaced]
  generalize a.define d roles = defined
  generalize defineParams params _ = opened
  obtain ⟨⟨id, prototype⟩, b⟩ := defined
  have hmodify : (opened.2.setSymbols (opened.2.symbols.modify id fun s => { s with params := some opened.1 })).unplaced =
      opened.2.unplaced.setSymbols (opened.2.unplaced.symbols.modify id fun s => { s with params := some opened.1 }) := by
    rw [unplaced_setSymbols, SymbolTable.unplaced_modify]
    · rfl
    · exact fun _ => rfl
  simp only [← hmodify]
  cases prototype with
  | none => rfl
  | some prototype => exact unplaced_matchPrototype _ _ _ _

def Verdict.unplaced (v : Verdict) : Verdict := { v with reports := v.reports.map Diagnostic.unplaced }

def ReturnSite.unplaced (site : ReturnSite) : ReturnSite := { site with mark := site.mark.unplaced }

@[simp] theorem unplaced_apply (n : NodeId) (v : Verdict) : (a.apply n v).unplaced = a.unplaced.apply n v.unplaced := by
  obtain ⟨reports, type⟩ := v
  cases type with
  | none => exact a.unplaced_reports reports
  | some type =>
    simp only [apply, unplaced_setType, unplaced_reports]
    rfl

@[simp] theorem unplaced_complaint (x : Lexeme) (cause : Option SemanticCause) :
    (complaint x cause).map Diagnostic.unplaced = complaint x.unplaced cause := by
  cases cause <;> rfl

@[simp] theorem unplaced_operandVerdict (expected : ValueType) (n : NodeId) (mark : Lexeme) :
    (a.operandVerdict expected n mark).unplaced = a.unplaced.operandVerdict expected n mark.unplaced := by
  simp [operandVerdict, Verdict.operand, Verdict.unplaced]

@[simp] theorem unplaced_binaryVerdict (op : BinaryOp) (left right : NodeId) (mark : Lexeme) :
    (a.binaryVerdict op left right mark).unplaced = a.unplaced.binaryVerdict op left right mark.unplaced := by
  cases op <;> simp [binaryVerdict, Verdict.binary, Verdict.unplaced]

@[simp] theorem unplaced_newArrayVerdict (element : BaseType) (length : NodeId) (mark : Lexeme) :
    (a.newArrayVerdict element length mark).unplaced = a.unplaced.newArrayVerdict element length mark.unplaced := by
  simp [newArrayVerdict, Verdict.newArray, Verdict.unplaced]

@[simp] theorem unplaced_variableVerdict (nameNode value : NodeId) (name equals : Lexeme) :
    (a.variableVerdict nameNode value name equals).unplaced =
      a.unplaced.variableVerdict nameNode value name.unplaced equals.unplaced := by
  rw [variableVerdict, variableVerdict, typeOf_unplaced]
  cases a.typeOf nameNode with
  | none => rfl
  | some declared =>
    simp only [Verdict.unplaced, unplaced_complaint, typeOf_unplaced, apply_ite Lexeme.unplaced]

@[simp] theorem unplaced_callVerdict (callee : NodeId) (args : List NodeId) (name : Lexeme) :
    (a.callVerdict callee args name).unplaced = a.unplaced.callVerdict callee args name.unplaced := by
  simp only [callVerdict, decoration_unplaced]
  cases (a.decoration callee).symbol with
  | none => rfl
  | some function =>
    have hargs : args.map a.unplaced.typeOf = args.map a.typeOf := rfl
    simp only [symbols_unplaced, SymbolTable.get_unplaced, Symbol.params_unplaced, Symbol.attrs_unplaced, hargs]
    split
    · simp [Verdict.unplaced, Function.comp_def]
    · rfl

@[simp] theorem unplaced_selectVerdict (operand : NodeId) (dot field : Lexeme) :
    (a.selectVerdict operand dot field).unplaced = a.unplaced.selectVerdict operand dot.unplaced field.unplaced := by
  rw [selectVerdict, selectVerdict, typeOf_unplaced]
  rcases a.typeOf operand with _ | (s | tag) | element | _
  · rfl
  · rfl
  · simp only [symbols_unplaced, SymbolTable.struct?_unplaced]
    cases a.symbols.struct? tag with
    | none => rfl
    | some id =>
      simp only [Option.map_some, SymbolTable.get_unplaced]
      obtain ⟨name, loc, block, attrs, fields, params⟩ := a.symbols.get id
      cases fields with
      | none => rfl
      | some fields =>
        simp only [Symbol.unplaced, Symbol.field?, Option.bind_some, Lexeme.text_unplaced]
        cases fields.lookup field.text <;> rfl
  · rfl
  · rfl

@[simp] theorem unplaced_indexVerdict (base subscript : NodeId) (bracket : Lexeme) :
    (a.indexVerdict base subscript bracket).unplaced = a.unplaced.indexVerdict base subscript bracket.unplaced := by
  simp only [indexVerdict, Verdict.index, typeOf_unplaced]
  rcases (a.typeOf base).map Typing.element with _ | cause | type <;> simp [Verdict.unplaced]

@[simp] theorem unplaced_functionVerdict (nameNode : NodeId) (name : Lexeme) (sites : List ReturnSite) :
    (a.functionVerdict nameNode name sites).unplaced =
      a.unplaced.functionVerdict nameNode name.unplaced (sites.map ReturnSite.unplaced) := by
  rw [functionVerdict, functionVerdict, typeOf_unplaced]
  cases a.typeOf nameNode with
  | none => rfl
  | some declared =>
    have hsites (site : ReturnSite) : (complaint site.mark (a.returnCause declared site)).map Diagnostic.unplaced =
        complaint site.unplaced.mark (a.unplaced.returnCause declared site.unplaced) := unplaced_complaint _ _
    have hmissing : (if sites.isEmpty && !declared.isVoid then [(SemanticCause.missingReturn declared.text).about name]
          else []).map Diagnostic.unplaced =
        if sites.isEmpty && !declared.isVoid then [(SemanticCause.missingReturn declared.text).about name.unplaced] else [] := by
      rw [apply_ite (List.map Diagnostic.unplaced)]
      rfl
    simp only [Verdict.unplaced, functionReports, List.map_append, hmissing, List.map_flatMap, hsites, List.flatMap_map,
      List.isEmpty_map]

end Analysis

namespace Sapling

theorem lead_unplaced (s : Sapling) : s.unplaced.lead = s.lead := by
  cases s with
  | node tag x before after => exact sizes_unplacedAll before
  | spent x => rfl

end Sapling

namespace Expr

@[simp] theorem size_unplaced (e : Expr) : e.unplaced.size = e.size := by
  rw [size, ← unplaced_sapling, Sapling.size_unplaced, size]

@[simp] theorem topNode_unplaced (k : Nat) (e : Expr) : e.unplaced.topNode k = e.topNode k := by
  rw [topNode, ← unplaced_sapling, Sapling.lead_unplaced, topNode]

@[simp] theorem topNodes_unplaced (k : Nat) (es : List Expr) : topNodes k (unplacedAll es) = topNodes k es := by
  induction es generalizing k with
  | nil => rfl
  | cons e es ih => rw [unplacedAll, topNodes, topNodes, topNode_unplaced, size_unplaced, ih]

attribute [local simp] analyze unplaced TypeName.unplaced

mutual

theorem unplaced_analyze (k : Nat) (e : Expr) (a : Analysis) : (e.analyze k a).unplaced = e.unplaced.analyze k a.unplaced := by
  cases e with
  | name x => simp
  | constant c x =>
    simp only [analyze, unplaced, ← Analysis.unplaced_place]
    rw [apply_ite Analysis.unplaced]
    rfl
  | unary op mark e => simp [unplaced_analyze _ e]
  | binary op left mark right | index left bracket right => simp [unplaced_analyze _ left, unplaced_analyze _ right]
  | call callee paren args => simp [unplaced_analyzeAll _ args]
  | select object dot field => simp [unplaced_analyze _ object]
  | newStruct mark tag => simp
  | newString mark count => simp [unplaced_analyze _ count]
  | newArray element mark count =>
    cases element <;>
    · simp [unplaced_analyze _ count]
      rfl

theorem unplaced_analyzeAll (k : Nat) (es : List Expr) (a : Analysis) :
    (analyzeAll k es a).unplaced = analyzeAll k (unplacedAll es) a.unplaced := by
  match es with
  | [] => rfl
  | e :: es => rw [unplacedAll, analyzeAll, analyzeAll, unplaced_analyzeAll _ es, unplaced_analyze k e, size_unplaced]

end

end Expr

namespace Decl

@[simp] theorem size_unplaced (d : Decl) : d.unplaced.size = d.size := by
  obtain ⟨base, mark, name⟩ := d
  cases mark <;> rfl

@[simp] theorem sizes_unplaced (ds : List Decl) : sizes (ds.map unplaced) = sizes ds := by
  induction ds with
  | nil => rfl
  | cons d ds ih => rw [List.map_cons, sizes, sizes, size_unplaced, ih]

@[simp] theorem declaration_unplaced (k : Nat) (d : Decl) : d.unplaced.declaration k = (d.declaration k).unplaced := by
  obtain ⟨base, mark, name⟩ := d
  cases base <;> cases mark <;> rfl

@[simp] theorem declarations_unplaced (k : Nat) (ds : List Decl) :
    declarations k (ds.map unplaced) = (declarations k ds).map Declaration.unplaced := by
  induction ds generalizing k with
  | nil => rfl
  | cons d ds ih => rw [List.map_cons, declarations, declarations, List.map_cons, declaration_unplaced, size_unplaced, ih]

@[simp] theorem unplaced_place (k : Nat) (nameTag : Tag) (d : Decl) (a : Analysis) :
    (d.place k nameTag a).unplaced = d.unplaced.place k nameTag a.unplaced := by
  obtain ⟨base, mark, name⟩ := d
  cases mark <;> simp [place, unplaced, TypeName.tag_unplaced]

@[simp] theorem unplaced_placeAll (k : Nat) (nameTag : Tag) (ds : List Decl) (a : Analysis) :
    (placeAll k nameTag ds a).unplaced = placeAll k nameTag (ds.map unplaced) a.unplaced := by
  induction ds generalizing k a with
  | nil => rfl
  | cons d ds ih => rw [List.map_cons, placeAll, placeAll, ih, unplaced_place, size_unplaced]

end Decl

@[simp] theorem Analysis.unplaced_queueGlobal (n : NodeId) (a : Analysis) : (a.queueGlobal n).unplaced = a.unplaced.queueGlobal n := by
  rw [queueGlobal, apply_ite unplaced]
  rfl

namespace Stmt

@[simp] theorem size_unplaced (s : Stmt) : s.unplaced.size = s.size := by
  rw [size, ← unplaced_sapling, Sapling.size_unplaced, size]

@[simp] theorem sizes_unplaced (ss : List Stmt) : sizes (unplacedAll ss) = sizes ss := by
  induction ss with
  | nil => rfl
  | cons s ss ih => rw [unplacedAll, sizes, sizes, size_unplaced, ih]

attribute [local simp] analyze unplaced

mutual

theorem unplaced_analyze (k : Nat) (s : Stmt) (a : Analysis) : (s.analyze k a).unplaced = s.unplaced.analyze k a.unplaced := by
  cases s with
  | block brace body => simp [unplaced_analyzeAll _ body]
  | empty mark => simp
  | varDecl d equals init =>
    simp [Expr.unplaced_analyze]
    rfl
  | whileLoop mark cond body | ifThen mark cond body => simp [Expr.unplaced_analyze, unplaced_analyze _ body]
  | ifElse mark cond yes no => simp [Expr.unplaced_analyze, unplaced_analyze _ yes, unplaced_analyze _ no]
  | returnValue mark value => simp [Expr.unplaced_analyze]
  | returnVoid mark => simp
  | expr e => simp [Expr.unplaced_analyze]

theorem unplaced_analyzeAll (k : Nat) (ss : List Stmt) (a : Analysis) :
    (analyzeAll k ss a).unplaced = analyzeAll k (unplacedAll ss) a.unplaced := by
  match ss with
  | [] => rfl
  | s :: ss => rw [unplacedAll, analyzeAll, analyzeAll, unplaced_analyzeAll _ ss, unplaced_analyze k s, size_unplaced]

end

mutual

theorem returns_unplaced (k : Nat) (s : Stmt) :
    s.unplaced.returns k = (s.returns k).map Analysis.ReturnSite.unplaced := by
  cases s with
  | block brace body => rw [unplaced, returns, returns, returnsAll_unplaced _ body]
  | whileLoop mark cond body => rw [unplaced, returns, returns, returns_unplaced _ body, Expr.size_unplaced]
  | ifThen mark cond yes => rw [unplaced, returns, returns, returns_unplaced _ yes, Expr.size_unplaced]
  | ifElse mark cond yes no =>
    rw [unplaced, returns, returns, List.map_append, returns_unplaced _ yes, returns_unplaced _ no, Expr.size_unplaced,
      size_unplaced]
  | returnValue mark value =>
    rw [unplaced, returns, returns, Expr.topNode_unplaced]
    rfl
  | returnVoid mark => rfl
  | empty mark => rfl
  | varDecl d equals init => rfl
  | expr e => rfl

theorem returnsAll_unplaced (k : Nat) (ss : List Stmt) :
    returnsAll k (unplacedAll ss) = (returnsAll k ss).map Analysis.ReturnSite.unplaced := by
  match ss with
  | [] => rfl
  | s :: ss =>
    rw [unplacedAll, returnsAll, returnsAll, returns_unplaced k s, returnsAll_unplaced _ ss, List.map_append, size_unplaced]

end

@[simp] theorem any_isVarDecl_unplaced (ss : List Stmt) : (unplacedAll ss).any isVarDecl = ss.any isVarDecl := by
  induction ss with
  | nil => rfl
  | cons s ss ih =>
    rw [unplacedAll, List.any_cons, List.any_cons, ih]
    cases s <;> rfl

end Stmt

namespace Item

@[simp] theorem size_unplaced (i : Item) : i.unplaced.size = i.size := by
  rw [size, ← unplaced_sapling, Sapling.size_unplaced, size]

@[simp] theorem unplaced_placeHead (k : Nat) (d : Decl) (params : List Decl) (a : Analysis) :
    (placeHead k d params a).unplaced = placeHead k d.unplaced (params.map Decl.unplaced) a.unplaced := by
  rw [placeHead, placeHead, Decl.unplaced_placeAll, Analysis.unplaced_place, Decl.unplaced_place, Decl.size_unplaced]

theorem unplaced_analyze (k : Nat) (i : Item) (a : Analysis) : (i.analyze k a).unplaced = i.unplaced.analyze k a.unplaced := by
  cases i with
  | struct mark tag fields => simp [analyze, unplaced]
  | function d paren params brace body =>
    have hblank (b : Analysis) : (if body.any Stmt.isVarDecl then b.setSymbols b.symbols.recordBlank else b).unplaced =
        if body.any Stmt.isVarDecl then b.unplaced.setSymbols b.unplaced.symbols.recordBlank else b.unplaced := by
      rw [apply_ite Analysis.unplaced]
      rfl
    have hqueue (b : Analysis) (n : NodeId) : ({ b with queues.functions := b.queues.functions.push n } : Analysis).unplaced =
        { b.unplaced with queues.functions := b.unplaced.queues.functions.push n } := rfl
    have hblock (b : Analysis) : (placeHead k d params b).symbols.currentBlock =
        (placeHead k d.unplaced (params.map Decl.unplaced) b.unplaced).symbols.currentBlock := by
      rw [← unplaced_placeHead]
      rfl
    simp only [analyze, unplaced, Decl.size_unplaced, Decl.sizes_unplaced, Stmt.sizes_unplaced, Decl.declaration_unplaced,
      Decl.declarations_unplaced, Stmt.any_isVarDecl_unplaced, Stmt.returnsAll_unplaced, Analysis.unplaced_apply,
      Analysis.unplaced_functionVerdict, Analysis.unplaced_exitBlock, Stmt.unplaced_analyzeAll, Analysis.unplaced_setBlock,
      hblock, unplaced_placeHead, hqueue, hblank, Analysis.unplaced_openFunction, Analysis.unplaced_place]
    rfl
  | prototype d paren params semicolon => simp [analyze, unplaced]
  | stmt s => exact s.unplaced_analyze k a

theorem unplaced_analyzeAll (k : Nat) (is : List Item) (a : Analysis) :
    (analyzeAll k is a).unplaced = analyzeAll k (is.map unplaced) a.unplaced := by
  induction is generalizing k a with
  | nil => rfl
  | cons i is ih => rw [List.map_cons, analyzeAll, analyzeAll, ih, unplaced_analyze, size_unplaced]

end Item

theorem Program.unplaced_analyze (items : List Item) (log : Log) :
    (analyze items log).unplaced = analyze (items.map Item.unplaced) log.unplaced := by
  have hstart : ({ log } : Analysis).unplaced = { log := log.unplaced } := by
    simp [Analysis.unplaced, SymbolTable.unplaced]
  rw [analyze, analyze, Item.unplaced_analyzeAll, Analysis.unplaced_place, hstart]

end OcCompiler
