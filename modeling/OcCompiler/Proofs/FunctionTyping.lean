import OcCompiler.Proofs.StmtTyping

/-! Functions and prototypes: how their parameters are defined, and when a definition fits its prototype. -/

namespace OcCompiler

open Analysis

def Decl.frame (params : List Decl) : Frame := params.map fun p => (p.name.text, .var p.type)

def Env.extend (Γ : Env) (frame : Frame) : Env := { Γ with inner := Γ.inner ++ frame }

namespace Analysis

variable {Γ : Env} {pending : Option (SymbolId × Entry)} {a : Analysis} {k : Nat} {ds : List Decl}

/-- Parameters are defined: their symbols are the last that the innermost scope binds. -/
structure ParamsDefined (Γ : Env) (pending : Option (SymbolId × Entry)) (a : Analysis) (k : Nat) (ds : List Decl)
    (ids : List SymbolId) (b : Analysis) : Prop where
  log : b.log = a.log
  describes : (Γ.extend (Decl.frame ds)).Describes pending b.symbols
  params : b.symbols.ParamsAre (ds.map Decl.binding) ids
  settled : Decl.SettledAll b k ds
  bound : b.symbols.inner.bindings.map (·.2) = a.symbols.inner.bindings.map (·.2) ++ ids
  outer : b.symbols.outer = a.symbols.outer
  grows : a.symbols.Extends b.symbols

theorem isVariable_ofParam : Roles.ofParam.IsVariable := ⟨rfl, rfl, rfl, rfl, rfl⟩

theorem pending_ne {n : Nat} (h : ∀ p, pending = some p → p.1.index < n) : pending.map (·.1) ≠ some ⟨n⟩ := by
  intro hn
  obtain ⟨p, hp, hid⟩ := Option.map_eq_some_iff.mp hn
  have hlt := h p hp
  rw [hid] at hlt
  exact Nat.lt_irrefl _ hlt

theorem defineParams_of_ok (hΓ : Γ.Describes pending a.symbols)
    (hpending : ∀ p, pending = some p → p.1.index < a.symbols.size)
    (hcomplete : ∀ p ∈ ds, Γ.Complete p.base.base) (hvoid : ∀ p ∈ ds, p.type.isVoid = false)
    (hdistinct : (Γ.inner.map (·.1) ++ ds.map (·.name.text)).Nodup) :
    ParamsDefined Γ pending a k ds (defineParams (Decl.declarations k ds) a).1
      (defineParams (Decl.declarations k ds) a).2 := by
  induction ds generalizing Γ a k with
  | nil =>
    have hextend : Γ.extend (Decl.frame []) = Γ := by simp [Env.extend, Decl.frame]
    refine ⟨rfl, ?_, .nil, trivial, by simp [defineParams, Decl.declarations], rfl, .refl _⟩
    rw [hextend]
    exact hΓ
  | cons d ds ih =>
    obtain ⟨hc, hcs⟩ := List.forall_mem_cons.mp hcomplete
    obtain ⟨hv, hvs⟩ := List.forall_mem_cons.mp hvoid
    have hfree : Γ.inner.lookup d.name.text = none := by
      rw [lookup_eq_none_iff_not_mem]
      exact fun hmem => (List.nodup_append.mp hdistinct).2.2 _ hmem _ (by simp) rfl
    obtain ⟨hfirst, hdefined, hinner, hΓ', hnames⟩ := define_variable hΓ (pending_ne hpending) isVariable_ofParam hc (fun _ => hv) hfree k
    -- The remaining parameters are defined in the environment that has this one.
    have hrest := ih (k := k + d.size) hΓ' (fun p hp => Nat.lt_of_lt_of_le (hpending p hp) hdefined.grows.size) hcs hvs
      (by simpa [Env.bind] using hdistinct)
    have heff : Effect (k + d.size) (k + d.size + Decl.sizes ds) (a.define (d.declaration k) .ofParam).2
        (defineParams (Decl.declarations (k + d.size) ds) (a.define (d.declaration k) .ofParam).2).2 :=
      effect_defineParams _ (Decl.declarations_within ds)
    have hd := d.two_le_size
    rw [Decl.declarations, defineParams]
    change ParamsDefined Γ pending a k (d :: ds) ((a.define (d.declaration k) .ofParam).1.symbol ::
      (defineParams (Decl.declarations (k + d.size) ds) (a.define (d.declaration k) .ofParam).2).1)
      (defineParams (Decl.declarations (k + d.size) ds) (a.define (d.declaration k) .ofParam).2).2
    rw [hfirst]
    generalize (a.define (d.declaration k) .ofParam).2 = b at hdefined hinner hΓ' hnames hrest heff
    refine ⟨hrest.log.trans hdefined.log, ?_, .cons ?_ hrest.params, ⟨?_, hrest.settled⟩, ?_,
      hrest.outer.trans hdefined.outer, hdefined.grows.trans hrest.grows⟩
    · have hdescribes := hrest.describes
      simpa [Env.extend, Env.bind, Decl.frame] using hdescribes
    · have hin : a.symbols.size < b.symbols.size := by rw [hdefined.size]; exact Nat.lt_succ_self _
      refine ⟨Nat.lt_of_lt_of_le hin hrest.grows.size, ?_⟩
      dsimp only
      rw [hrest.grows.get ⟨a.symbols.size⟩ hin, hdefined.symbol]
      exact ⟨rfl, rfl⟩
    · exact Decl.Settled.mono ⟨hnames, hdefined.typeOf⟩ hΓ'.sound (heff.symbols hΓ'.sound)
        (heff.decor _ (.inl (by dsimp only; omega)))
    · rw [hrest.bound, hinner]
      simp [Scope.bind]

theorem ok_of_defineParams (hΓ : Γ.Describes pending a.symbols)
    (hpending : ∀ p, pending = some p → p.1.index < a.symbols.size) (hnodup : (Γ.inner.map (·.1)).Nodup)
    (hlog : (defineParams (Decl.declarations k ds) a).2.log = a.log) :
    (∀ p ∈ ds, Γ.Complete p.base.base) ∧ (∀ p ∈ ds, p.type.isVoid = false) ∧
      (Γ.inner.map (·.1) ++ ds.map (·.name.text)).Nodup := by
  induction ds generalizing Γ a k with
  | nil => exact ⟨by simp, by simp, by simpa using hnodup⟩
  | cons d ds ih =>
    have hdefine : Effect k (k + d.size) a (a.define (d.declaration k) .ofParam).2 :=
      effect_define a (.inr rfl) (d.declaration_within)
    have heff : Effect (k + d.size) (k + d.size + Decl.sizes ds) (a.define (d.declaration k) .ofParam).2
        (defineParams (Decl.declarations (k + d.size) ds) (a.define (d.declaration k) .ofParam).2).2 :=
      effect_defineParams _ (Decl.declarations_within ds)
    obtain ⟨hquiet, hquiet'⟩ := hdefine.quiet heff hlog
    obtain ⟨hc, hv, hfree⟩ := variable_of_define hΓ isVariable_ofParam hquiet
    obtain ⟨-, hdefined, -, hΓ', -⟩ := define_variable hΓ (pending_ne hpending) isVariable_ofParam hc hv hfree k
    have hnodup' : ((Γ.bind d.name.text (.var d.type)).inner.map (·.1)).Nodup := by
      rw [Env.bind, List.map_append, List.nodup_append]
      refine ⟨hnodup, by simp, fun x hx y hy => ?_⟩
      rintro rfl
      simp only [List.map_cons, List.map_nil, List.mem_singleton] at hy
      exact lookup_eq_none_iff_not_mem.mp hfree (hy ▸ hx)
    obtain ⟨hcs, hvs, hdistinct⟩ := ih hΓ' (fun p hp => Nat.lt_of_lt_of_le (hpending p hp) hdefined.grows.size)
      hnodup' hquiet'
    exact ⟨List.forall_mem_cons.mpr ⟨hc, hcs⟩, List.forall_mem_cons.mpr ⟨hv rfl, hvs⟩, by simpa [Env.bind] using hdistinct⟩

end Analysis

namespace SymbolTable

variable {s : SymbolTable} {c : Scope} {id : SymbolId}

theorem Realizes.lt {entry : Entry} (h : s.Realizes id entry) : id.index < s.size := by
  cases entry <;> exact h.1

theorem ParamsAre.eq_iff {ps qs : List (String × ValueType)} {ids es : List SymbolId} (hps : s.ParamsAre ps ids)
    (hqs : s.ParamsAre qs es) :
    List.Forall₂ (fun i e => (s.get i).name = (s.get e).name ∧ (s.get e).attrs = (s.get i).attrs) ids es ↔ qs = ps := by
  induction hps generalizing qs es with
  | nil =>
    cases hqs with
    | nil => simp
    | cons => simp
  | @cons p i ps ids hp _ ih =>
    cases hqs with
    | nil => simp
    | @cons q e qs es hq hqs =>
      rw [List.forall₂_cons, ih hqs, List.cons.injEq]
      refine and_congr_left fun _ => ?_
      obtain ⟨x, τ⟩ := p
      obtain ⟨y, σ⟩ := q
      rw [hp.2.1, hp.2.2, hq.2.1, hq.2.2]
      simp only [Attributes.typed, Attributes.mk.injEq, Option.some.injEq, and_true, Prod.mk.injEq]
      exact and_congr_left fun _ => eq_comm

theorem Realizes.unique {entry entry' : Entry} (h : s.Realizes id entry) (h' : s.Realizes id entry') : entry = entry' := by
  cases entry with
  | var τ =>
    obtain ⟨-, roles, hroles, hvariable⟩ := h
    cases entry' with
    | var τ' =>
      obtain ⟨-, roles', hroles', -⟩ := h'
      rw [hroles] at hroles'
      cases hroles'
      rfl
    | function sig announced =>
      obtain ⟨-, hattrs, -⟩ := h'
      rw [hroles] at hattrs
      cases hattrs
      cases hvariable.function
  | function sig announced =>
    obtain ⟨-, hattrs, ids, hids, hparams, -⟩ := h
    cases entry' with
    | var τ' =>
      obtain ⟨-, roles, hroles, hvariable⟩ := h'
      rw [hroles] at hattrs
      cases hattrs
      cases hvariable.function
    | function sig' announced' =>
      obtain ⟨-, hattrs', ids', hids', hparams', -⟩ := h'
      rw [hids] at hids'
      cases hids'
      rw [hattrs] at hattrs'
      obtain ⟨result, params⟩ := sig
      obtain ⟨result', params'⟩ := sig'
      simp only [Attributes.typed, Attributes.mk.injEq, Option.some.injEq, Roles.mk.injEq, true_and, and_true] at hattrs'
      obtain ⟨rfl, rfl⟩ := hattrs'
      obtain rfl : params' = params := (hparams.eq_iff hparams').mp (List.forall₂_same.mpr fun _ _ => ⟨rfl, rfl⟩)
      rfl

theorem Sound.lookupInBlock_eq (h : s.Sound) (hc : c ∈ s.scopes) (x : String) :
    s.lookupInBlock c.block x = c.find? x := by
  cases hfound : s.scopes.find? (·.block == c.block) with
  | none => exact absurd (List.find?_eq_none.mp hfound c hc) (by simp)
  | some c' =>
    have hblock : c'.block = c.block := by simpa using List.find?_some hfound
    obtain rfl := List.inj_on_of_nodup_map h.blocks (List.mem_of_find?_eq_some hfound) hc hblock
    rw [lookupInBlock, hfound]
    rfl

theorem Sound.find?_eq_some_iff (h : s.Sound) (hc : c ∈ s.scopes) (hid : id ∈ c.bindings.map (·.2)) (x : String) :
    c.find? x = some id ↔ x = (s.get id).name := by
  obtain ⟨p, hp, rfl⟩ := List.mem_map.mp hid
  obtain ⟨-, hname, -⟩ := h.bound c hc p hp
  constructor
  · intro hfind
    exact ((h.bound c hc _ (mem_of_lookup hfind)).2.1).symm
  · rintro rfl
    rw [hname]
    cases hfind : c.find? p.1 with
    | none =>
      rw [Scope.find?, List.lookup_eq_none_iff] at hfind
      exact absurd (hfind p hp) (by simp)
    | some id' =>
      exact congrArg (some ∘ Prod.snd) (List.inj_on_of_nodup_map (h.names c hc) (mem_of_lookup hfind) hp rfl)

end SymbolTable

namespace Analysis

theorem paramDivergence_eq_none_iff {agrees : Symbol → SymbolId → Bool} {last : Location} {params : List Symbol}
    {announced : List SymbolId} :
    paramDivergence agrees last params announced = none ↔ List.Forall₂ (fun p e => agrees p e = true) params announced := by
  induction params generalizing last announced with
  | nil => cases announced <;> simp [paramDivergence]
  | cons p params ih =>
    cases announced with
    | nil => simp [paramDivergence]
    | cons e announced =>
      rw [paramDivergence, List.forall₂_cons]
      split
      · rename_i hagrees
        simp [hagrees, ih]
      · rename_i hagrees
        simp [hagrees]

theorem prototypeDivergence_eq_none_iff {s : SymbolTable} (hs : s.Sound) {definition prototype : Symbol} {τ σ : ValueType}
    (hτ : definition.attrs.type = some τ) (hσ : prototype.attrs.type = some σ) {ids announced : List SymbolId}
    {ps qs : List (String × ValueType)} (hids : s.ParamsAre ps ids) (hannounced : prototype.params = some announced)
    (hqs : s.ParamsAre qs announced) (harchived : s.Archived announced) :
    prototypeDivergence s definition prototype ids = none ↔ σ = τ ∧ qs = ps := by
  unfold prototypeDivergence
  rw [hτ, hσ, hannounced]
  by_cases htype : σ = τ
  · rw [if_neg (by simp [htype]), Option.getD_some, paramDivergence_eq_none_iff, List.forall₂_map_left_iff,
      ← hids.eq_iff hqs, and_iff_right htype]
    rcases harchived with rfl | ⟨c, hc, hbindings⟩
    · cases ids <;> simp
    -- The announced parameters are looked up in the block that the first of them is in, which is theirs.
    · have hc : c ∈ s.scopes := List.mem_append_left _ hc
      have hblock (e : SymbolId) (he : e ∈ announced) :
          announced.head?.map (fun first => (s.get first).block) = some c.block := by
        cases hhead : announced with
        | nil => rw [hhead] at he; cases he
        | cons first rest =>
          have hfirst : first ∈ c.bindings.map (·.2) := by rw [hbindings, hhead]; exact List.mem_cons_self
          obtain ⟨p, hp, rfl⟩ := List.mem_map.mp hfirst
          rw [List.head?_cons, Option.map_some, (hs.bound c hc p hp).2.2.1]
      have hagrees (i e : SymbolId) (he : e ∈ announced) :
          ((announced.head?.map fun first => (s.get first).block).bind (s.lookupInBlock · (s.get i).name) == some e &&
            (s.get e).attrs == (s.get i).attrs) = true ↔
            (s.get i).name = (s.get e).name ∧ (s.get e).attrs = (s.get i).attrs := by
        rw [hblock e he, Option.bind_some, hs.lookupInBlock_eq hc, Bool.and_eq_true, beq_iff_eq, beq_iff_eq,
          hs.find?_eq_some_iff hc (by rw [hbindings]; exact he)]
      exact ⟨fun h => forall₂_imp_of_mem_right h fun i e he => (hagrees i e he).mp,
        fun h => forall₂_imp_of_mem_right h fun i e he => (hagrees i e he).mpr⟩
  · rw [if_pos (by simpa using htype)]
    simp [htype]

end Analysis

namespace Env.Describes

variable {Γ : Env} {s : SymbolTable} {f : SymbolId}

theorem suspend {entry : Entry} (h : Γ.Describes none s) (hreal : s.Realizes f entry) : Γ.Describes (some (f, entry)) s := by
  refine ⟨h.sound, h.frames_mono fun c hc p hp e hstands => ?_, h.structs, h.fields⟩
  have hr := SymbolTable.stands_none.mp hstands
  by_cases hpf : p.2 = f
  · subst hpf
    exact SymbolTable.stands_pending.mpr (hreal.unique hr)
  · exact (SymbolTable.stands_other hpf).mpr hr

theorem settle {frame : Frame} {x : String} {sig : Signature} {c : Scope} (h : (Γ.enter frame).Describes none s)
    (hglobal : Γ.outer = []) (hc : s.outer = [c]) (hx : Γ.inner.lookup x = some (.function sig true))
    (hfind : c.find? x = some f) :
    ((Γ.define x).enter frame).Describes none (s.modify f fun y => { y with attrs := y.attrs.settled }) := by
  have hcmem : c ∈ s.scopes := mem_scopes_of_open (by rw [SymbolTable.openScopes, hc]; simp)
  have hbound := h.sound.bound c hcmem _ (SymbolTable.mem_of_lookup hfind)
  have hreal : s.Realizes f (.function sig true) := by
    have houter := h.outer
    rw [hc] at houter
    obtain ⟨f', hf', hreal⟩ := (find?_frame (List.forall₂_cons.mp houter).1 x).1 _ hx
    rw [hfind] at hf'
    cases hf'
    exact hreal
  obtain ⟨hin, hattrs, ids, hids, hparams, -⟩ := id hreal
  -- While it changes the prototype is pending, and then it is a function that is defined.
  have h' := (h.suspend hreal).modify hin (fun y => { y with attrs := y.attrs.settled }) (.settle _)
    (by rw [hattrs]; rfl) (by rw [hattrs]; rfl)
  have hget := SymbolTable.get_modify hin (fun y => { y with attrs := y.attrs.settled })
  have hreal' : (s.modify f fun y => { y with attrs := y.attrs.settled }).Realizes f (.function sig false) := by
    refine ⟨by rw [SymbolTable.size_modify]; exact hin, ?_, ids, ?_, hparams.mono (by simp) fun i _ hvar => ?_, by simp⟩
    · rw [hget, if_pos rfl, hattrs]
      rfl
    · rw [hget, if_pos rfl]
      exact hids
    · rw [hget, if_neg]
      rintro rfl
      rw [hattrs] at hvar
      cases hvar
  refine ⟨h'.sound, .cons ?_ ?_, h'.structs, h'.fields⟩
  · -- What the innermost scope binds belongs to another block.
    refine h'.inner.mono fun q hq entry hstands => SymbolTable.stands_none.mpr ((SymbolTable.stands_other ?_).mp hstands)
    rintro rfl
    have hqblock := (h.sound.bound _ (SymbolTable.mem_scopes_inner s) q hq).2.2.1
    rw [hbound.2.2.1] at hqblock
    have hblocks := h.sound.blocks
    simp only [SymbolTable.scopes, SymbolTable.openScopes, hc, List.map_append] at hblocks
    simpa [hqblock] using (List.nodup_append.mp hblocks).2.1
  · have houter := h'.outer
    have hc' : (s.modify f fun y => { y with attrs := y.attrs.settled }).outer = [c] := hc
    rw [hc'] at houter
    show List.Forall₂ _ ((Γ.define x).inner :: Γ.outer) s.outer
    rw [hglobal, hc]
    refine .cons ?_ .nil
    unfold SymbolTable.Matches Env.define
    rw [List.forall₂_map_left_iff]
    refine forall₂_imp_of_mem_right (List.forall₂_cons.mp houter).1 fun p q hq hpq => ?_
    obtain ⟨hkey, hstands⟩ := hpq
    obtain ⟨y, entry⟩ := p
    obtain ⟨z, i⟩ := q
    obtain rfl : y = z := hkey
    by_cases hyx : y = x
    · subst hyx
      obtain rfl : i = f := congrArg Prod.snd
        (List.inj_on_of_nodup_map (h.sound.names c hcmem) hq (SymbolTable.mem_of_lookup hfind) rfl)
      obtain rfl := SymbolTable.stands_pending.mp hstands
      refine ⟨rfl, SymbolTable.stands_none.mpr ?_⟩
      simpa using hreal'
    · have hif : i ≠ f := by
        rintro rfl
        exact hyx ((h.sound.bound c hcmem _ hq).2.1.symm.trans hbound.2.1)
      have hr := SymbolTable.stands_none.mpr ((SymbolTable.stands_other hif).mp hstands)
      cases entry with
      | var τ => exact ⟨rfl, hr⟩
      | function sig' announced =>
        have hne : (announced && y != x) = announced := by simp [hyx]
        refine ⟨rfl, ?_⟩
        show SymbolTable.Stands _ none i (.function sig' (announced && y != x))
        rw [hne]
        exact hr

end Env.Describes

namespace Analysis

def openParams (f : SymbolId) (paramList : NodeId) (params : List Declaration) (a : Analysis) : List SymbolId × Analysis :=
  let b := a.enterBlock.2.setBlock paramList a.enterBlock.1
  let (ids, c) := defineParams params b
  (ids, c.setSymbols (c.symbols.modify f fun s => { s with params := some ids }))

theorem openFunction_eq (d : Declaration) (paramList : NodeId) (params : List Declaration) (roles : Roles) (a : Analysis) :
    a.openFunction d paramList params roles =
      let r := (a.define d roles).2.openParams (a.define d roles).1.symbol paramList params
      match (a.define d roles).1.prototype with
      | some prototype => r.2.matchPrototype (a.define d roles).1.symbol prototype r.1
      | none => r.2 := rfl

variable {Γ : Env} {a : Analysis} {f : SymbolId} {entry : Entry} {paramList : NodeId} {j : Nat} {params : List Decl}
variable {ids : List SymbolId} {s : SymbolTable} {sig : Signature} {b : Analysis}

/-- The parameters of a function are known, inside their block and at the function's symbol. -/
structure ParamsOpened (Γ : Env) (f : SymbolId) (entry : Entry) (a : Analysis) (j : Nat) (params : List Decl)
    (ids : List SymbolId) (b : Analysis) : Prop where
  log : b.log = a.log
  describes : (Γ.enter (Decl.frame params)).Describes (some (f, entry)) b.symbols
  size : a.symbols.size ≤ b.symbols.size
  get : b.symbols.get f = { a.symbols.get f with params := some ids }
  paramsAre : b.symbols.ParamsAre (params.map Decl.binding) ids
  bound : b.symbols.inner.bindings.map (·.2) = ids
  outer : b.symbols.outer = a.symbols.inner :: a.symbols.outer
  settled : Decl.SettledAll b j params

theorem openParams_of_ok (paramList : NodeId) (j : Nat) (hΓ : Γ.Describes (some (f, entry)) a.symbols) (hf : f.index < a.symbols.size)
    (hfunction : (a.symbols.get f).attrs.roles.function = true) (hvar : (a.symbols.get f).attrs.roles.var = false)
    (hparams : ParamsOk Γ params) :
    ParamsOpened Γ f entry a j params (a.openParams f paramList (Decl.declarations j params)).1
      (a.openParams f paramList (Decl.declarations j params)).2 := by
  unfold openParams
  dsimp only
  have hΓ' : (Γ.enter []).Describes (some (f, entry)) (a.enterBlock.2.setBlock paramList a.enterBlock.1).symbols :=
    hΓ.enterBlock
  have hdefined := defineParams_of_ok (k := j) hΓ' (fun p hp => by cases hp; exact hf) hparams.complete hparams.notVoid
    (by simpa [Env.enter] using hparams.distinct)
  generalize (defineParams (Decl.declarations j params) (a.enterBlock.2.setBlock paramList a.enterBlock.1)).1 = ids at hdefined
  generalize (defineParams (Decl.declarations j params) (a.enterBlock.2.setBlock paramList a.enterBlock.1)).2 = b at hdefined
  have hsize : a.symbols.size ≤ b.symbols.size := hdefined.grows.size
  have hfb : f.index < b.symbols.size := Nat.lt_of_lt_of_le hf hsize
  have hget : b.symbols.get f = a.symbols.get f := hdefined.grows.get f hf
  have hkeeps : (b.symbols.get f).Keeps { b.symbols.get f with params := some ids } := ⟨rfl, .inl rfl, fun _ => rfl, fun _ => rfl⟩
  have hmodify := hdefined.describes.modify hfb (fun s => { s with params := some ids }) hkeeps
    (by rw [hget]; exact hfunction) (by rw [hget]; exact hvar)
  refine ⟨hdefined.log, ?_, ?_, ?_, ?_, ?_, hdefined.outer, ?_⟩
  · have henter : (Γ.enter []).extend (Decl.frame params) = Γ.enter (Decl.frame params) := rfl
    rw [← henter]
    exact hmodify
  · show a.symbols.size ≤ (b.symbols.modify _ _).size
    rw [SymbolTable.size_modify]
    exact hsize
  · show (b.symbols.modify _ _).get f = _
    rw [SymbolTable.get_modify hfb, if_pos rfl, hget]
  · refine hdefined.params.mono (by simp [setSymbols]) fun i _ hi => ?_
    show (b.symbols.modify _ _).get i = _
    rw [SymbolTable.get_modify hfb, if_neg]
    rintro rfl
    rw [hget, hvar] at hi
    cases hi
  · exact hdefined.bound
  · exact hdefined.settled.mono hdefined.describes.sound (hdefined.describes.sound.modify f _ hkeeps) fun _ _ _ _ => rfl

theorem ok_of_openParams (hΓ : Γ.Describes (some (f, entry)) a.symbols) (hf : f.index < a.symbols.size)
    (hlog : (a.openParams f paramList (Decl.declarations j params)).2.log = a.log) : ParamsOk Γ params := by
  have hΓ' : (Γ.enter []).Describes (some (f, entry)) (a.enterBlock.2.setBlock paramList a.enterBlock.1).symbols :=
    hΓ.enterBlock
  obtain ⟨hcomplete, hvoid, hdistinct⟩ := ok_of_defineParams (k := j) hΓ' (fun p hp => by cases hp; exact hf)
    (by simp [Env.enter]) hlog
  exact ⟨hcomplete, hvoid, by simpa [Env.enter] using hdistinct⟩

theorem ParamsOpened.realizes {τ : ValueType} {announced : Bool}
    (h : ParamsOpened Γ f entry a j params ids b) (hf : f.index < a.symbols.size)
    (hattrs : (a.symbols.get f).attrs = .typed τ { function := true, prototype := announced })
    (hsize : s.size = b.symbols.size) (hget : ∀ i, s.get i = b.symbols.get i)
    (harchived : announced = true → s.Archived ids) :
    s.Realizes f (.function ⟨τ, params.map Decl.binding⟩ announced) := by
  refine ⟨by rw [hsize]; exact Nat.lt_of_lt_of_le hf h.size, by rw [hget, h.get]; exact hattrs, ids,
    by rw [hget, h.get], ?_, harchived⟩
  exact h.paramsAre.mono (Nat.le_of_eq hsize.symm) fun i _ _ => hget i

theorem effect_openParams {k m : Nat} (f : SymbolId) {params : List Declaration} (hk : k ≤ paramList.index)
    (hm : paramList.index < m) (hparams : ∀ d ∈ params, Declaration.Within k m d) :
    Effect k m a (a.openParams f paramList params).2 := by
  have hopen : Effect k m a (a.enterBlock.2.setBlock paramList a.enterBlock.1) :=
    (effect_enterBlock a).trans (effect_setBlock _ _ hk hm)
  refine (hopen.trans (effect_defineParams _ hparams)).trans (effect_setSymbols _ fun h => ?_)
  exact h.modify _ _ ⟨rfl, .inl rfl, fun _ => rfl, fun _ => rfl⟩

abbrev functionRoles (announced : Bool) : Roles := { function := true, prototype := announced }

variable {d : Decl} {k : Nat} {announced : Bool}

abbrev openHead (a : Analysis) (k : Nat) (d : Decl) (params : List Decl) (announced : Bool) : Analysis :=
  a.openFunction (d.declaration k) ⟨k + d.size⟩ (Decl.declarations (k + d.size + 1) params) (functionRoles announced)

theorem effect_openParams_head (f : SymbolId) (a : Analysis) (d : Decl) (params : List Decl) :
    Effect (k + d.size) (k + d.size + 1 + Decl.sizes params) a
      (a.openParams f ⟨k + d.size⟩ (Decl.declarations (k + d.size + 1) params)).2 :=
  effect_openParams f (Nat.le_refl _) (by dsimp only; omega) (Decl.declarations_within params)

theorem paramsOk_bind {x : String} : ParamsOk (Γ.bind x entry) params ↔ ParamsOk Γ params :=
  ⟨fun h => ⟨h.complete, h.notVoid, h.distinct⟩, fun h => ⟨h.complete, h.notVoid, h.distinct⟩⟩

theorem define_function (hΓ : Γ.Describes none a.symbols) (hc : Γ.Complete d.base.base)
    (hfree : Γ.inner.lookup d.name.text = none) (entry : Entry) (announced : Bool) (k : Nat) :
    (a.define (d.declaration k) (functionRoles announced)).1 = ⟨⟨a.symbols.size⟩, none⟩ ∧
      a.Defined k d (functionRoles announced) (a.define (d.declaration k) (functionRoles announced)).2 ∧
      (Γ.bind d.name.text entry).Describes (some (⟨a.symbols.size⟩, entry))
        (a.define (d.declaration k) (functionRoles announced)).2.symbols := by
  obtain ⟨hfirst, hdefined, -, hΓ', -⟩ := define_of_free
    (hΓ.await (Nat.le_refl a.symbols.size : a.symbols.size ≤ (⟨a.symbols.size⟩ : SymbolId).index) entry)
    (rfl : (functionRoles announced).field = false) rfl hc
    (fun h => by cases h) hfree (SymbolTable.stands_pending.mpr rfl) k
  exact ⟨hfirst, hdefined, hΓ'⟩

/-- A head is opened: the parameters are known, and the name has its type. -/
structure HeadOpened (k : Nat) (d : Decl) (params : List Decl) (a b : Analysis) : Prop where
  log : b.log = a.log
  settled : Decl.SettledAll b (k + d.size + 1) params
  type : b.typeOf ⟨k + 1⟩ = some d.type
  symbol : (b.decoration ⟨k + 1⟩).symbol.isSome = true

theorem openHead_of_free (hΓ : Γ.Describes none a.symbols) (hc : Γ.Complete d.base.base)
    (hfree : Γ.inner.lookup d.name.text = none) (hparams : ParamsOk Γ params) (announced : Bool) (k : Nat) :
    HeadOpened k d params a (a.openHead k d params announced) ∧
      ∃ a₁ ids, a.symbols.size < a₁.symbols.size ∧
        a₁.symbols.get ⟨a.symbols.size⟩ = d.symbol (functionRoles announced) a.symbols.currentBlock ∧
        ParamsOpened (Γ.bind d.name.text (.function (d.signature params) announced)) ⟨a.symbols.size⟩
          (.function (d.signature params) announced) a₁ (k + d.size + 1) params ids (a.openHead k d params announced) := by
  obtain ⟨hfirst, hdefined, hΓ'⟩ := define_function hΓ hc hfree (.function (d.signature params) announced) announced k
  have hd := d.two_le_size
  rw [openHead, openFunction_eq]
  simp only [hfirst]
  generalize (a.define (d.declaration k) (functionRoles announced)).2 = a₁ at hdefined hΓ'
  have hsize : a.symbols.size < a₁.symbols.size := by rw [hdefined.size]; exact Nat.lt_succ_self _
  have hopened := openParams_of_ok ⟨k + d.size⟩ (k + d.size + 1) hΓ' hsize
    (by rw [hdefined.symbol]; rfl) (by rw [hdefined.symbol]; rfl) (paramsOk_bind.mpr hparams)
  have heff := effect_openParams_head (k := k) ⟨a.symbols.size⟩ a₁ d params
  have hname := heff.decor ⟨k + 1⟩ (.inl (by dsimp only; omega))
  refine ⟨⟨hopened.log.trans hdefined.log, hopened.settled, ?_, ?_⟩, a₁, _, hsize, hdefined.symbol, hopened⟩
  · rw [typeOf, attrs, hname]
    exact hdefined.typeOf
  · rw [hname, hdefined.decor]
    rfl

theorem openHead_function (hΓ : Γ.Describes none a.symbols) (hc : Γ.Complete d.base.base)
    (hfree : Γ.inner.lookup d.name.text = none) (hparams : ParamsOk Γ params) (k : Nat) :
    HeadOpened k d params a (a.openHead k d params false) ∧
      ((Γ.bind d.name.text (.function (d.signature params) false)).enter (Decl.frame params)).Describes none
        (a.openHead k d params false).symbols := by
  obtain ⟨hhead, a₁, ids, hsize, hget, hopened⟩ := openHead_of_free hΓ hc hfree hparams false k
  refine ⟨hhead, hopened.describes.realize ?_⟩
  exact hopened.realizes hsize (by rw [hget]; rfl) rfl (fun _ => rfl) (by simp)

theorem openHead_prototype (hΓ : Γ.Describes none a.symbols) (hc : Γ.Complete d.base.base)
    (hfree : Γ.inner.lookup d.name.text = none) (hparams : ParamsOk Γ params) (k : Nat) :
    HeadOpened k d params a (a.openHead k d params true) ∧
      (Γ.bind d.name.text (.function (d.signature params) true)).Describes none
        (a.openHead k d params true).symbols.exitBlock.2 := by
  obtain ⟨hhead, a₁, ids, hsize, hget, hopened⟩ := openHead_of_free hΓ hc hfree hparams true k
  generalize a.openHead k d params true = b at hhead hopened
  have hclosed := hopened.describes.exitBlock rfl
  have hexit : b.symbols.exitBlock.2 = { b.symbols with
      inner := a₁.symbols.inner, outer := a₁.symbols.outer, archive := b.symbols.archive.push b.symbols.inner } := by
    rw [SymbolTable.exitBlock, hopened.outer]
  refine ⟨hhead, Env.Describes.realize hclosed ?_⟩
  rw [hexit]
  refine hopened.realizes hsize (by rw [hget]; rfl) rfl (fun _ => rfl) fun _ => .inr ⟨b.symbols.inner, ?_, hopened.bound⟩
  simp

theorem announced_of_prototype (hreal : s.Realizes f entry)
    (hprototype : (s.get f).attrs.roles.prototype = true) : ∃ sig, entry = .function sig true := by
  cases entry with
  | var τ =>
    obtain ⟨-, roles, hroles, hvariable⟩ := hreal
    rw [hroles] at hprototype
    exact absurd (hvariable.prototype.symm.trans hprototype) (by simp)
  | function sig announced =>
    obtain ⟨-, hattrs, -⟩ := hreal
    rw [hattrs] at hprototype
    obtain rfl : announced = true := hprototype
    exact ⟨sig, rfl⟩

theorem define_announced (hΓ : Γ.Describes none a.symbols) (hc : Γ.Complete d.base.base)
    (hx : Γ.inner.lookup d.name.text = some (.function sig true)) (entry : Entry) (k : Nat) :
    ∃ existing b, a.define (d.declaration k) (functionRoles false) = (⟨⟨a.symbols.size⟩, some existing⟩, b) ∧
      a.symbols.inner.find? d.name.text = some existing ∧ a.Defined k d (functionRoles false) b ∧
      b.symbols.inner = a.symbols.inner ∧ Γ.Describes (some (⟨a.symbols.size⟩, entry)) b.symbols := by
  obtain ⟨b, hb, hdefine⟩ := define_of_complete hΓ (rfl : (functionRoles false).field = false) hc (fun h => by cases h) k
  obtain ⟨existing, hfind, hin, hattrs, -⟩ := (Env.Describes.find?_frame hΓ.inner d.name.text).1 _ hx
  have hfind' : b.symbols.inner.find? d.name.text = some existing := by rw [hb.symbols]; exact hfind
  have hprototype : (b.symbols.get existing).attrs.roles.prototype = true := by
    rw [hb.symbols, SymbolTable.get_push_old _ hin, hattrs]
    rfl
  rw [hdefine, bind_of_taken hfind', hprototype]
  refine ⟨existing, _, rfl, hfind, ⟨hb.log, ?_, fun id hid => ?_, ?_, ?_, hb.decor⟩, ?_, ?_⟩
  · show b.symbols.size = _
    rw [hb.symbols, SymbolTable.size_push]
  · show b.symbols.get id = _
    rw [hb.symbols, SymbolTable.get_push_old _ hid]
  · show b.symbols.get _ = _
    rw [hb.symbols, SymbolTable.get_push_new]
  · show b.symbols.outer = _
    rw [hb.symbols]
    rfl
  · show b.symbols.inner = _
    rw [hb.symbols]
    rfl
  · have hawait := hΓ.await (Nat.le_refl a.symbols.size : a.symbols.size ≤ (⟨a.symbols.size⟩ : SymbolId).index) entry
    show Γ.Describes _ (b.symbols.record _ _)
    rw [hb.symbols]
    exact (hawait.push _).record _ _

theorem matchPrototype_of_opened {existing : SymbolId}
    (hglobal : Γ.outer = []) (h : ParamsOpened Γ f (.function (d.signature params) false) a j params ids b)
    (hf : f.index < a.symbols.size) (hattrs : (a.symbols.get f).attrs = .typed d.type (functionRoles false))
    (hx : Γ.inner.lookup d.name.text = some (.function sig true)) (hfind : a.symbols.inner.find? d.name.text = some existing)
    (hΓa : Γ.Describes (some (f, .function (d.signature params) false)) a.symbols) :
    ((b.matchPrototype f existing ids).log = b.log ↔ sig = d.signature params) ∧
      ((Γ.define d.name.text).enter (Decl.frame params)).Describes none (b.matchPrototype f existing ids).symbols := by
  have hrealf : b.symbols.Realizes f (.function (d.signature params) false) :=
    h.realizes hf hattrs rfl (fun _ => rfl) (by simp)
  have hdescribes := h.describes.realize hrealf
  have houter : b.symbols.outer = [a.symbols.inner] := by
    have hframes := hΓa.outer
    rw [hglobal] at hframes
    rw [h.outer, List.forall₂_nil_left_iff.mp hframes]
  have hsettled := hdescribes.settle hglobal houter hx hfind
  -- The prototype is as announced, in the table before and after.
  have hreal : b.symbols.Realizes existing (.function sig true) := by
    have hframes := hdescribes.outer
    rw [houter] at hframes
    obtain ⟨e, he, hreal⟩ := (Env.Describes.find?_frame (List.forall₂_cons.mp hframes).1 _).1 _ hx
    rw [hfind] at he
    cases he
    exact hreal
  obtain ⟨hin, hpattrs, announced, hannounced, hqs, harchived⟩ := hreal
  obtain ⟨hfin, -, ids', hids', hps, -⟩ := hrealf
  obtain rfl : ids' = ids := by
    rw [h.get] at hids'
    exact (Option.some.inj hids').symm
  have hne : f ≠ existing := by
    rintro rfl
    rw [h.get] at hpattrs
    simp [hattrs, Attributes.typed] at hpattrs
  have hget := SymbolTable.get_modify hin (fun y => { y with attrs := y.attrs.settled })
  have hvars (i : SymbolId) (_ : i.index < b.symbols.size) (hvar : (b.symbols.get i).attrs.roles.var = true) :
      (b.symbols.modify existing fun y => { y with attrs := y.attrs.settled }).get i = b.symbols.get i := by
    rw [hget, if_neg]
    rintro rfl
    rw [hpattrs] at hvar
    cases hvar
  have hτ : ((b.symbols.modify existing fun y => { y with attrs := y.attrs.settled }).get f).attrs.type = some d.type := by
    rw [hget, if_neg hne, h.get, hattrs]
    rfl
  have hσ : ((b.symbols.modify existing fun y => { y with attrs := y.attrs.settled }).get existing).attrs.type =
      some sig.result := by
    rw [hget, if_pos rfl, hpattrs]
    rfl
  have hdivergence := prototypeDivergence_eq_none_iff hsettled.sound hτ hσ (hps.mono (by simp) hvars)
    (by rw [hget, if_pos rfl]; exact hannounced) (hqs.mono (by simp) hvars) (harchived rfl)
  have hsig : sig = d.signature params ↔ sig.result = d.type ∧ sig.params = params.map Decl.binding := by
    obtain ⟨result, ps⟩ := sig
    simp [Decl.signature]
  rw [hsig]
  unfold matchPrototype
  dsimp only
  split
  · rename_i loc hloc
    refine ⟨⟨fun hlog => absurd (congrArg Array.size hlog) (by simp [report, setSymbols]), fun hmatch => ?_⟩, hsettled⟩
    exact absurd (hloc.symm.trans (hdivergence.mpr hmatch)) (by simp)
  · rename_i hnone
    exact ⟨⟨fun _ => hdivergence.mp hnone, fun _ => rfl⟩, hsettled⟩

theorem openHead_announced (hglobal : Γ.outer = []) (hΓ : Γ.Describes none a.symbols) (hc : Γ.Complete d.base.base)
    (hx : Γ.inner.lookup d.name.text = some (.function (d.signature params) true)) (hparams : ParamsOk Γ params) (k : Nat) :
    HeadOpened k d params a (a.openHead k d params false) ∧
      ((Γ.define d.name.text).enter (Decl.frame params)).Describes none (a.openHead k d params false).symbols := by
  obtain ⟨existing, a₁, hdefine, hfind, hdefined, hinner, hΓ'⟩ :=
    define_announced hΓ hc hx (.function (d.signature params) false) k
  have hd := d.two_le_size
  rw [openHead, openFunction_eq]
  simp only [hdefine]
  have hsize : a.symbols.size < a₁.symbols.size := by rw [hdefined.size]; exact Nat.lt_succ_self _
  have hopened := openParams_of_ok ⟨k + d.size⟩ (k + d.size + 1) hΓ' hsize (by rw [hdefined.symbol]; rfl)
    (by rw [hdefined.symbol]; rfl) hparams
  have heff := effect_openParams_head (k := k) ⟨a.symbols.size⟩ a₁ d params
  generalize (a₁.openParams ⟨a.symbols.size⟩ ⟨k + d.size⟩ (Decl.declarations (k + d.size + 1) params)).1 = ids at hopened
  generalize (a₁.openParams ⟨a.symbols.size⟩ ⟨k + d.size⟩ (Decl.declarations (k + d.size + 1) params)).2 = b at hopened heff
  obtain ⟨hlog, hdescribes⟩ := matchPrototype_of_opened hglobal hopened hsize (by rw [hdefined.symbol]; rfl) hx
    (by rw [hinner]; exact hfind) hΓ'
  have hmatch : Effect 0 0 b (b.matchPrototype ⟨a.symbols.size⟩ existing ids) := effect_matchPrototype b _ _ _
  have hsound : b.symbols.Sound := hopened.describes.sound
  have hname := (hmatch.decor ⟨k + 1⟩ (.inr (Nat.zero_le _))).trans (heff.decor ⟨k + 1⟩ (.inl (by dsimp only; omega)))
  refine ⟨⟨?_, ?_, ?_, ?_⟩, hdescribes⟩
  · rw [hlog.mpr rfl, hopened.log, hdefined.log]
  · exact hopened.settled.mono hsound (hmatch.symbols hsound) fun n _ _ _ => hmatch.decor n (.inr (Nat.zero_le _))
  · rw [typeOf, attrs, hname]
    exact hdefined.typeOf
  · rw [hname, hdefined.decor]
    rfl

theorem ok_of_openHead (hglobal : Γ.outer = []) (hΓ : Γ.Describes none a.symbols)
    (hlog : (a.openHead k d params announced).log = a.log) :
    Γ.Complete d.base.base ∧ ParamsOk Γ params ∧ (Γ.inner.lookup d.name.text = none ∨
      announced = false ∧ Γ.inner.lookup d.name.text = some (.function (d.signature params) true)) := by
  have hdefine : Effect k (k + d.size) a (a.define (d.declaration k) (functionRoles announced)).2 :=
    effect_define a (.inr rfl) (d.declaration_within)
  have heff (f : SymbolId) (b : Analysis) := effect_openParams_head (k := k) f b d params
  rw [openHead, openFunction_eq] at hlog
  dsimp only at hlog
  -- Whatever follows, the definition and the parameters were silent.
  have hquiet : (a.define (d.declaration k) (functionRoles announced)).2.log = a.log := by
    split at hlog
    · exact (hdefine.quiet ((heff _ _).trans (effect_matchPrototype _ _ _ _)) hlog).1
    · exact (hdefine.quiet (heff _ _) hlog).1
  obtain ⟨hc, -⟩ := complete_of_define hΓ (rfl : (functionRoles announced).field = false) rfl hquiet
  obtain ⟨b, hb, hbind⟩ := define_of_complete hΓ (rfl : (functionRoles announced).field = false) hc (fun h => by cases h) k
  rw [hbind, ← hb.log] at hquiet
  have hinner : b.symbols.inner = a.symbols.inner := by rw [hb.symbols]; rfl
  rcases free_of_bind hquiet with hfree | ⟨-, hann, existing, hfind, hprototype⟩
  · rw [hinner, ← hΓ.lookup_inner_eq_none_iff] at hfree
    obtain ⟨hfirst, hdefined, hΓ'⟩ := define_function hΓ hc hfree (.function (d.signature params) announced) announced k
    rw [hfirst] at hlog
    refine ⟨hc, paramsOk_bind.mp (ok_of_openParams hΓ' ?_ (hlog.trans hdefined.log.symm)), .inl hfree⟩
    rw [hdefined.size]
    exact Nat.lt_succ_self _
  · obtain rfl : announced = false := hann
    rw [hinner] at hfind
    -- The name is that of a prototype, so its entry is announced.
    have hentry : ∃ sig, Γ.inner.lookup d.name.text = some (.function sig true) := by
      cases hx : Γ.inner.lookup d.name.text with
      | none => rw [(hΓ.lookup_inner_eq_none_iff _).mp hx] at hfind; cases hfind
      | some entry =>
        obtain ⟨e, he, hreal⟩ := (Env.Describes.find?_frame hΓ.inner _).1 _ hx
        rw [hfind] at he
        cases he
        rw [hb.symbols, SymbolTable.get_push_old _ hreal.lt] at hprototype
        obtain ⟨sig, rfl⟩ := announced_of_prototype hreal hprototype
        exact ⟨sig, rfl⟩
    obtain ⟨sig, hx⟩ := hentry
    obtain ⟨existing', a₁, hdefine', hfind', hdefined, hinner', hΓ'⟩ :=
      define_announced hΓ hc hx (.function (d.signature params) false) k
    rw [hdefine'] at hlog
    have hsize : a.symbols.size < a₁.symbols.size := by rw [hdefined.size]; exact Nat.lt_succ_self _
    obtain ⟨hquiet, hquiet'⟩ := (heff _ a₁).quiet (effect_matchPrototype (k := 0) (m := 0) _ _ existing' _)
      (hlog.trans hdefined.log.symm)
    have hparams := ok_of_openParams hΓ' hsize hquiet
    have hopened := openParams_of_ok ⟨k + d.size⟩ (k + d.size + 1) hΓ' hsize (by rw [hdefined.symbol]; rfl)
      (by rw [hdefined.symbol]; rfl) hparams
    obtain ⟨hmatch, -⟩ := matchPrototype_of_opened hglobal hopened hsize (by rw [hdefined.symbol]; rfl) hx
      (by rw [hinner']; exact hfind') hΓ'
    obtain rfl := hmatch.mp hquiet'
    exact ⟨hc, hparams, .inr ⟨rfl, hx⟩⟩

end Analysis

end OcCompiler
