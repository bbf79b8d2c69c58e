import OcCompiler.Proofs.Definitions

/-! Structs: how a body is opened and its fields are added, and when this is silent. -/

namespace OcCompiler

open Analysis

theorem Env.fields?_addStruct {Γ : Env} {tag : String} (hnew : Γ.fields? tag = none) (fields : List (String × ValueType))
    (t : String) : (Γ.addStruct tag fields).fields? t = if t = tag then some fields else Γ.fields? t := by
  unfold Env.fields? Env.addStruct at *
  rw [List.lookup_append]
  by_cases ht : t = tag
  · subst ht
    simp [hnew]
  · simp [List.lookup_cons, beq_eq_false_iff_ne.mpr ht, ht]

namespace Env.Describes

open SymbolTable

variable {Γ : Env} {pending : Option (SymbolId × Entry)} {s : SymbolTable}

theorem modifyStruct {tag : String} {id : SymbolId} (h : Γ.Describes none s) (hid : s.struct? tag = some id)
    (g : Symbol → Symbol) (hattrs : (g (s.get id)).attrs = (s.get id).attrs) (hname : (g (s.get id)).name = (s.get id).name)
    {fs : List (String × SymbolId)} (hfs : (g (s.get id)).fields = some fs) (hin : ∀ q ∈ fs, q.2.index < s.size)
    (types : List (String × ValueType))
    (htypes : fs.map (fun p => (p.1, (s.get p.2).attrs.type)) = types.map fun p => (p.1, some p.2)) (Γ' : Env)
    (hinner : Γ'.inner = Γ.inner) (houter : Γ'.outer = Γ.outer)
    (hfields : ∀ t, Γ'.fields? t = if t = tag then some types else Γ.fields? t) : Γ'.Describes none (s.modify id g) := by
  obtain ⟨hlt, htag⟩ := h.sound.structs _ (mem_of_lookup hid)
  have hget := get_modify hlt g
  have hfree : (s.get id).attrs.roles.isBindable = false := by rw [htag]; rfl
  have hsound := (h.sound.modify id g ⟨hname, .inl hattrs, fun hrole => by simp [hfree] at hrole,
    fun hrole => by simp [hfree] at hrole⟩).sound
  have hkept (i : SymbolId) : ((s.modify id g).get i).attrs = (s.get i).attrs := by
    rw [hget]
    split
    · rename_i hi
      rw [hi, hattrs]
    · rfl
  -- Whatever has a role is no struct tag, so it is as before.
  have hsame (i : SymbolId) (hi : (s.get i).attrs.roles.isBindable = true) : (s.modify id g).get i = s.get i := by
    rw [hget, if_neg]
    rintro rfl
    rw [htag] at hi
    cases hi
  refine ⟨hsound, ?_, fun t => ?_, fun p hp q hq => ?_⟩
  · rw [hinner, houter]
    refine h.frames_mono fun c hc p hp entry hstands => stands_none.mpr ((stands_none.mp hstands).mono (by simp) ?_ ?_ ?_)
    · exact hsame _ (h.sound.bound c (mem_scopes_of_open hc) p hp).2.2.2
    · exact fun i _ hvar => hsame i (by rw [Roles.isBindable, hvar]; rfl)
    · exact fun _ hc => hc
  · rw [hfields]
    have hold := h.structs t
    unfold fieldTypes? at hold ⊢
    have hstructs : (s.modify id g).struct? t = s.struct? t := rfl
    rw [hstructs]
    split
    · rename_i ht
      subst ht
      rw [hid, Option.bind_some, hget, if_pos rfl, hfs, Option.map_some, Option.map_some, ← htypes]
      simp only [hkept]
    · rename_i ht
      rw [← hold]
      cases hi : s.struct? t with
      | none => rfl
      | some i =>
        have hne : i ≠ id := by
          rintro rfl
          obtain ⟨-, htag'⟩ := h.sound.structs _ (mem_of_lookup hi)
          rw [htag] at htag'
          cases htag'
          exact ht rfl
        simp only [Option.bind_some]
        rw [hget, if_neg hne]
        simp only [hkept]
  · rw [size_modify]
    have hp' : p ∈ s.structs := hp
    rw [hget] at hq
    split at hq
    · rw [hfs] at hq
      exact hin q hq
    · exact h.fields p hp' q hq

end Env.Describes

def Decl.FieldsSettled (a : Analysis) (k : Nat) : List Decl → Prop
  | [] => True
  | d :: ds => ((a.decoration ⟨k + 1⟩).symbol.isSome = true ∧ a.typeOf ⟨k + 1⟩ = some d.type) ∧
      FieldsSettled a (k + d.size) ds

theorem Decl.FieldsSettled.mono {a b : Analysis} {ds : List Decl} {k : Nat} (h : FieldsSettled a k ds)
    (hdecor : ∀ n : NodeId, k ≤ n.index → n.index < k + sizes ds → (a.decoration n).symbol.isSome = true →
      b.decoration n = a.decoration n) : FieldsSettled b k ds := by
  induction ds generalizing k with
  | nil => exact h
  | cons d ds ih =>
    have hd := d.two_le_size
    rw [sizes] at hdecor
    obtain ⟨⟨hsymbol, htype⟩, hrest⟩ := h
    have hname := hdecor ⟨k + 1⟩ (by dsimp only; omega) (by dsimp only; omega) hsymbol
    refine ⟨⟨by rw [hname]; exact hsymbol, ?_⟩, ih hrest fun n hn hn' => hdecor n (by omega) (by omega)⟩
    rw [typeOf, attrs, hname]
    exact htype

namespace Analysis

variable {Γ : Env} {a : Analysis} {d : Decl} {k : Nat}

theorem useTypeName_field (hΓ : Γ.Describes none a.symbols) (n : NodeId) (name : TypeName) :
    (a.useTypeName n name true).log = a.log ∧ Γ.Describes none (a.useTypeName n name true).symbols ∧
      ∀ t id, a.symbols.struct? t = some id → (a.useTypeName n name true).symbols.struct? t = some id := by
  cases name with
  | scalar s lexeme => exact ⟨rfl, hΓ, fun _ _ h => h⟩
  | struct tag =>
    refine ⟨rfl, hΓ.structOrPlaceholder tag, fun t id h => ?_⟩
    show (a.symbols.structOrPlaceholder tag).2.struct? t = some id
    unfold SymbolTable.structOrPlaceholder
    split
    · exact h
    · show List.lookup t (a.symbols.structs ++ _) = some id
      rw [List.lookup_append, show a.symbols.structs.lookup t = some id from h]
      rfl

structure FieldDefined (Γ : Env) (a : Analysis) (k : Nat) (d : Decl) (f : SymbolId) (b : Analysis) : Prop where
  log : b.log = a.log
  describes : Γ.Describes none b.symbols
  structs : ∀ t id, a.symbols.struct? t = some id → b.symbols.struct? t = some id
  inTable : f.index < b.symbols.size
  name : (b.symbols.get f).name = d.name.text
  type : (b.symbols.get f).attrs.type = some d.type
  decor : (b.decoration ⟨k + 1⟩).symbol.isSome = true ∧ b.typeOf ⟨k + 1⟩ = some d.type

theorem define_field (hΓ : Γ.Describes none a.symbols) (hvoid : d.type.isVoid = false) (k : Nat) :
    ∃ f b, a.define (d.declaration k) { field := true } = (⟨f, none⟩, b) ∧ FieldDefined Γ a k d f b := by
  obtain ⟨hlog, hΓ', hstructs⟩ := useTypeName_field hΓ ⟨k⟩ d.base
  rw [← useBase_declaration] at hlog hΓ' hstructs
  have hrefuse (c : Analysis) : c.refuseVoid (d.declaration k) { field := true } = c := by
    have htype : (d.declaration k).type = d.type := rfl
    rw [refuseVoid, htype, hvoid]
    rfl
  unfold define
  simp only [hrefuse, if_true]
  generalize a.useBase (d.declaration k) true = c at hlog hΓ' hstructs
  have hnew := SymbolTable.get_push_new (s := c.symbols) (d.symbol { field := true } c.symbols.currentBlock)
  have hdecor := decoration_decorate (c.setSymbols (c.symbols.push (d.symbol { field := true } c.symbols.currentBlock)).2)
    ⟨k + 1⟩ ⟨k + 1⟩ ⟨.typed d.type { field := true }, c.symbols.currentBlock, some ⟨c.symbols.size⟩⟩
  rw [if_pos rfl] at hdecor
  refine ⟨⟨c.symbols.size⟩, (c.declare ⟨k + 1⟩ d.name (.typed d.type { field := true })).2, rfl,
    ⟨hlog, hΓ'.push _, hstructs, ?_, ?_, ?_, ?_⟩⟩
  · show c.symbols.size < (c.symbols.push _).2.size
    rw [SymbolTable.size_push]
    exact Nat.lt_succ_self _
  · exact congrArg Symbol.name hnew
  · exact congrArg (·.attrs.type) hnew
  · exact ⟨congrArg (·.symbol.isSome) hdecor, congrArg (·.attrs.type) hdecor⟩

theorem notVoid_of_define_field (hΓ : Γ.Describes none a.symbols)
    (hlog : (a.define (d.declaration k) { field := true }).2.log = a.log) : d.type.isVoid = false := by
  obtain ⟨hlog', -, -⟩ := useTypeName_field hΓ ⟨k⟩ d.base
  rw [← useBase_declaration] at hlog'
  cases hvoid : d.type.isVoid with
  | false => rfl
  | true =>
    have htype : (d.declaration k).type = d.type := rfl
    unfold define at hlog
    simp only [refuseVoid, htype, hvoid, if_true, Bool.or_true, Bool.and_true] at hlog
    rw [← hlog'] at hlog
    exact absurd (congrArg Array.size hlog) (by simp [report, declare, decorate, setSymbols])

variable {tag : String} {id : SymbolId} {types : List (String × ValueType)} {ds : List Decl} {depth : Nat}

theorem addField_of_new {f : SymbolId} {τ : ValueType} (hnew : Γ.fields? tag = none)
    (h : (Γ.addStruct tag types).Describes none a.symbols) (hid : a.symbols.struct? tag = some id)
    (hf : f.index < a.symbols.size) (hτ : (a.symbols.get f).attrs.type = some τ) (depth : Nat) :
    ((a.addField id depth f).log = a.log ↔ types.lookup (a.symbols.get f).name = none) ∧
      (types.lookup (a.symbols.get f).name = none →
        (Γ.addStruct tag (types ++ [((a.symbols.get f).name, τ)])).Describes none (a.addField id depth f).symbols ∧
        (a.addField id depth f).symbols.struct? tag = some id) := by
  have hfields : (Γ.addStruct tag types).fields? tag = some types := by rw [Env.fields?_addStruct hnew, if_pos rfl]
  obtain ⟨id', fs, hid', hfs, hlookup⟩ := h.field? hfields
  rw [hid] at hid'
  cases hid'
  have hfound : ((a.symbols.get id).field? (a.symbols.get f).name).isSome = (types.lookup (a.symbols.get f).name).isSome := by
    have hmap := congrArg Option.isSome (hlookup (a.symbols.get f).name)
    rwa [Option.isSome_map, Option.isSome_map] at hmap
  unfold addField
  dsimp only
  rw [hfound]
  cases hx : types.lookup (a.symbols.get f).name with
  | some σ =>
    refine ⟨⟨fun hlog => ?_, fun h => by cases h⟩, fun h => by cases h⟩
    exact absurd (congrArg Array.size hlog) (by simp [report])
  | none =>
    refine ⟨⟨fun _ => rfl, fun _ => rfl⟩, fun _ => ⟨?_, hid⟩⟩
    have hfresh : fs.lookup (a.symbols.get f).name = none := by
      have hnone : (a.symbols.get id).field? (a.symbols.get f).name = none := by
        rw [← Option.not_isSome_iff_eq_none, hfound, hx]
        simp
      rwa [Symbol.field?, hfs] at hnone
    have hset : ((a.symbols.get id).setField (a.symbols.get f).name f).fields =
        some (fs ++ [((a.symbols.get f).name, f)]) := by
      simp [Symbol.setField, hfs, hfresh]
    have hold := h.structs tag
    rw [hfields, SymbolTable.fieldTypes?, hid, Option.bind_some, hfs, Option.map_some, Option.map_some,
      Option.some.injEq] at hold
    have hin := h.fields _ (SymbolTable.mem_of_lookup hid)
    rw [hfs] at hin
    refine Env.Describes.record (h.modifyStruct hid (·.setField (a.symbols.get f).name f) rfl rfl hset ?_
      (types ++ [((a.symbols.get f).name, τ)]) ?_ _ ?_ ?_ ?_) _ _
    · intro q hq
      rcases List.mem_append.mp hq with hq | hq
      · exact hin q hq
      · rw [List.mem_singleton.mp hq]
        exact hf
    · rw [List.map_append, List.map_append, hold, List.map_cons, List.map_nil, hτ]
      rfl
    · rfl
    · rfl
    · intro t
      rw [Env.fields?_addStruct hnew, Env.fields?_addStruct hnew]
      split <;> rfl

theorem defineFields_of_ok (hnew : Γ.fields? tag = none) (h : (Γ.addStruct tag types).Describes none a.symbols)
    (hid : a.symbols.struct? tag = some id) (hvoid : ∀ d ∈ ds, d.type.isVoid = false)
    (hdistinct : (types.map (·.1) ++ ds.map (·.name.text)).Nodup) (depth k : Nat) :
    let b := defineFields id depth (Decl.declarations k ds) a
    b.log = a.log ∧ (Γ.addStruct tag (types ++ ds.map Decl.binding)).Describes none b.symbols ∧ Decl.FieldsSettled b k ds := by
  induction ds generalizing types a k with
  | nil => exact ⟨rfl, by rw [List.map_nil, List.append_nil]; exact h, trivial⟩
  | cons d ds ih =>
    obtain ⟨hv, hvs⟩ := List.forall_mem_cons.mp hvoid
    have hd := d.two_le_size
    obtain ⟨f, b, hdefine, hfield⟩ := define_field h hv k
    have hfree : types.lookup d.name.text = none := by
      rw [lookup_eq_none_iff_not_mem]
      exact fun hmem => (List.nodup_append.mp hdistinct).2.2 _ hmem _ (by simp) rfl
    obtain ⟨hadd, hadded⟩ := addField_of_new hnew hfield.describes (hfield.structs _ _ hid) hfield.inTable hfield.type depth
    rw [hfield.name] at hadd hadded
    obtain ⟨hΓ', hid'⟩ := hadded hfree
    have heff : Effect (k + d.size) (k + d.size + Decl.sizes ds) (b.addField id depth f)
        (defineFields id depth (Decl.declarations (k + d.size) ds) (b.addField id depth f)) :=
      effect_defineFields _ _ _ (Decl.declarations_within ds)
    obtain ⟨hlog, hdescribes, hsettled⟩ := ih hΓ' hid' hvs (by simpa using hdistinct) (k + d.size)
    have hdefineAll : defineFields id depth (Decl.declarations k (d :: ds)) a =
        defineFields id depth (Decl.declarations (k + d.size) ds) (b.addField id depth f) := by
      rw [Decl.declarations, defineFields, hdefine]
    dsimp only
    rw [hdefineAll]
    have hname : (b.addField id depth f).decoration ⟨k + 1⟩ = b.decoration ⟨k + 1⟩ :=
      (effect_addField (k := 0) (m := 0) b id f depth).decor _ (.inr (Nat.zero_le _))
    replace hname := (heff.decor ⟨k + 1⟩ (.inl (by dsimp only; omega))).trans hname
    refine ⟨(hlog.trans (hadd.mpr hfree)).trans hfield.log, by simpa [Decl.binding] using hdescribes, ⟨?_, ?_⟩, hsettled⟩
    · rw [hname]
      exact hfield.decor.1
    · rw [typeOf, attrs, hname]
      exact hfield.decor.2

theorem ok_of_defineFields (hnew : Γ.fields? tag = none) (h : (Γ.addStruct tag types).Describes none a.symbols)
    (hid : a.symbols.struct? tag = some id) (hnodup : (types.map (·.1)).Nodup)
    (hlog : (defineFields id depth (Decl.declarations k ds) a).log = a.log) :
    (∀ d ∈ ds, d.type.isVoid = false) ∧ (types.map (·.1) ++ ds.map (·.name.text)).Nodup := by
  induction ds generalizing types a k with
  | nil => exact ⟨by simp, by simpa using hnodup⟩
  | cons d ds ih =>
    have hdefineEff : Effect k (k + d.size) a (a.define (d.declaration k) { field := true }).2 :=
      effect_define a (.inl rfl) (d.declaration_within)
    have hrest (b : Analysis) (f : SymbolId) : Effect (k + d.size) (k + d.size + Decl.sizes ds) (b.addField id depth f)
        (defineFields id depth (Decl.declarations (k + d.size) ds) (b.addField id depth f)) :=
      effect_defineFields _ _ _ (Decl.declarations_within ds)
    rw [Decl.declarations, defineFields] at hlog
    dsimp only at hlog
    obtain ⟨hquiet, hlog'⟩ := hdefineEff.quiet ((effect_addField _ _ _ _).trans (hrest _ _)) hlog
    have hv := notVoid_of_define_field h hquiet
    obtain ⟨f, b, hdefine, hfield⟩ := define_field h hv k
    rw [hdefine] at hlog'
    obtain ⟨hquietAdd, hquietRest⟩ := (effect_addField (k := 0) (m := 0) b id f depth).quiet (hrest b f) hlog'
    obtain ⟨hadd, hadded⟩ := addField_of_new hnew hfield.describes (hfield.structs _ _ hid) hfield.inTable hfield.type depth
    rw [hfield.name] at hadd hadded
    have hfree := hadd.mp hquietAdd
    obtain ⟨hΓ', hid'⟩ := hadded hfree
    have hnodup' : ((types ++ [(d.name.text, d.type)]).map (·.1)).Nodup := by
      rw [List.map_append, List.nodup_append]
      refine ⟨hnodup, by simp, fun x hx y hy => ?_⟩
      rintro rfl
      simp only [List.map_cons, List.map_nil, List.mem_singleton] at hy
      exact lookup_eq_none_iff_not_mem.mp hfree (hy ▸ hx)
    obtain ⟨hvs, hdistinct⟩ := ih hΓ' hid' hnodup' hquietRest
    exact ⟨List.forall_mem_cons.mpr ⟨hv, hvs⟩, by simpa using hdistinct⟩

end Analysis

end OcCompiler
