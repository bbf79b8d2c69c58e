import OcCompiler.Proofs.ExprTyping

/-! What the definition of a name does to a table that describes an environment, and when it is silent. -/

namespace OcCompiler

open Analysis

def Decl.symbol (d : Decl) (roles : Roles) (block : Nat) : Symbol :=
  ⟨d.name.text, d.name.loc, block, .typed d.type roles, none, none⟩

namespace Analysis

variable {Γ : Env} {pending : Option (SymbolId × Entry)} {a b : Analysis} {d : Decl} {k : Nat} {roles : Roles}
variable {x : Lexeme}

theorem useBase_declaration (a : Analysis) (d : Decl) (k : Nat) (mayLackFields : Bool) :
    a.useBase (d.declaration k) mayLackFields = a.useTypeName ⟨k⟩ d.base mayLackFields := by
  obtain ⟨base, mark, name⟩ := d
  cases base <;> rfl

/-- The state in which the name of a declaration has a symbol, which nothing binds yet. -/
structure Declared (a : Analysis) (k : Nat) (d : Decl) (roles : Roles) (b : Analysis) : Prop where
  log : b.log = a.log
  symbols : b.symbols = (a.symbols.push (d.symbol roles a.symbols.currentBlock)).2
  decor : b.decoration ⟨k + 1⟩ =
    { attrs := .typed d.type roles, block := a.symbols.currentBlock, symbol := some ⟨a.symbols.size⟩ }

structure Defined (a : Analysis) (k : Nat) (d : Decl) (roles : Roles) (b : Analysis) : Prop where
  log : b.log = a.log
  size : b.symbols.size = a.symbols.size + 1
  get : ∀ id : SymbolId, id.index < a.symbols.size → b.symbols.get id = a.symbols.get id
  symbol : b.symbols.get ⟨a.symbols.size⟩ = d.symbol roles a.symbols.currentBlock
  outer : b.symbols.outer = a.symbols.outer
  decor : b.decoration ⟨k + 1⟩ =
    { attrs := .typed d.type roles, block := a.symbols.currentBlock, symbol := some ⟨a.symbols.size⟩ }

theorem Defined.grows (h : a.Defined k d roles b) : a.symbols.Extends b.symbols :=
  ⟨by rw [h.size]; exact Nat.le_succ _, h.get⟩

theorem Defined.typeOf (h : a.Defined k d roles b) : b.typeOf ⟨k + 1⟩ = some d.type := by
  rw [Analysis.typeOf, attrs, h.decor]
  rfl

theorem define_of_complete (hΓ : Γ.Describes pending a.symbols) (hfield : roles.field = false)
    (hc : Γ.Complete d.base.base) (hvoid : roles.param = true → d.type.isVoid = false) (k : Nat) :
    ∃ b, a.Declared k d roles b ∧ a.define (d.declaration k) roles = b.bind d.name ⟨a.symbols.size⟩ roles := by
  have hcalm := calm_useTypeName hΓ hc ⟨k⟩ false
  rw [← useBase_declaration] at hcalm
  obtain ⟨hlog, hsymbols⟩ := hcalm
  have htype : (d.declaration k).type = d.type := rfl
  have hrefuse (c : Analysis) : c.refuseVoid (d.declaration k) roles = c := by
    rw [refuseVoid, htype, hfield, Bool.or_false]
    cases hp : roles.param with
    | false => rw [Bool.and_false]; rfl
    | true => rw [hvoid hp]; rfl
  unfold define
  simp only [hfield, hrefuse, Bool.false_eq_true, if_false]
  generalize a.useBase (d.declaration k) false = c at hlog hsymbols
  refine ⟨(c.declare ⟨k + 1⟩ d.name (.typed d.type roles)).2, ⟨hlog, ?_, ?_⟩, ?_⟩
  · rw [← hsymbols]
    rfl
  · rw [← hsymbols]
    exact (decoration_decorate _ _ _ _).trans (if_pos rfl)
  · rw [← hsymbols]
    rfl

theorem complete_of_define (hΓ : Γ.Describes pending a.symbols) (hfield : roles.field = false)
    (hrole : roles.isBindable = true) (hlog : (a.define (d.declaration k) roles).2.log = a.log) :
    Γ.Complete d.base.base ∧ (roles.param = true → d.type.isVoid = false) := by
  have hd : (d.declaration k).Within k (k + 2) :=
    ⟨⟨Nat.le_refl _, Nat.lt_add_of_pos_right (by decide)⟩, Nat.le_succ _, Nat.lt_succ_self _⟩
  have huse : Effect k (k + 2) a (a.useBase (d.declaration k) roles.field) := effect_useBase a roles.field hd
  let c := ((a.useBase (d.declaration k) roles.field).declare (d.declaration k).nameNode d.name (.typed d.type roles)).2
  have hdeclare : Effect k (k + 2) (a.useBase (d.declaration k) roles.field) c := effect_declare _ _ _ hd.2.1 hd.2.2
  have hvoid : Effect k (k + 2) c (c.refuseVoid (d.declaration k) roles) := effect_refuseVoid c _ roles
  have hbind : Effect k (k + 2) (c.refuseVoid (d.declaration k) roles) (a.define (d.declaration k) roles).2 := by
    unfold define
    dsimp only
    rw [if_neg (by rw [hfield]; decide)]
    refine effect_bind _ roles ?_
    rw [Declares, symbols_refuseVoid]
    exact declares_declare _ _ _ hrole
  obtain ⟨hquiet, hrest⟩ := huse.quiet (hdeclare.trans (hvoid.trans hbind)) hlog
  obtain ⟨-, hrest⟩ := hdeclare.quiet (hvoid.trans hbind) hrest
  obtain ⟨hrefuse, -⟩ := hvoid.quiet hbind hrest
  rw [useBase_declaration, hfield] at hquiet
  refine ⟨complete_of_useTypeName hΓ hquiet, fun hp => ?_⟩
  have htype : (d.declaration k).type = d.type := rfl
  cases hv : d.type.isVoid with
  | false => rfl
  | true =>
    rw [refuseVoid, htype, hv, hp] at hrefuse
    exact absurd (congrArg Array.size hrefuse) (by simp [report])

theorem bind_of_free (hfree : b.symbols.inner.find? x.text = none) (id : SymbolId) (roles : Roles) :
    ∃ s, b.symbols.insert x.text id = .ok s ∧ b.bind x id roles = (⟨id, none⟩, b.setSymbols (s.record s.depth id)) := by
  refine ⟨{ b.symbols with inner := b.symbols.inner.bind x.text id }, ?_, ?_⟩
  · rw [SymbolTable.insert, hfree]
  · rw [bind, SymbolTable.insert, hfree]

theorem bind_of_taken {id existing : SymbolId} (htaken : b.symbols.inner.find? x.text = some existing) :
    b.bind x id roles =
      if roles.function && !roles.prototype && (b.symbols.get existing).attrs.roles.prototype then
        (⟨id, some existing⟩, b.setSymbols (b.symbols.record b.symbols.depth id))
      else (⟨id, none⟩, b.report (SemanticCause.redeclared.about x)) := by
  rw [bind, SymbolTable.insert, htaken]

theorem free_of_bind {id : SymbolId} (hlog : (b.bind x id roles).2.log = b.log) :
    b.symbols.inner.find? x.text = none ∨ roles.function = true ∧ roles.prototype = false ∧
      ∃ existing, b.symbols.inner.find? x.text = some existing ∧
        (b.symbols.get existing).attrs.roles.prototype = true := by
  cases hx : b.symbols.inner.find? x.text with
  | none => exact .inl rfl
  | some existing =>
    rw [bind_of_taken hx] at hlog
    split at hlog
    · rename_i hcond
      simp only [Bool.and_eq_true, Bool.not_eq_true'] at hcond
      exact .inr ⟨hcond.1.1, hcond.1.2, existing, rfl, hcond.2⟩
    · exact absurd (congrArg Array.size hlog) (by simp [report])

theorem define_of_free (hΓ : Γ.Describes pending a.symbols) (hfield : roles.field = false) (hrole : roles.isBindable = true)
    (hc : Γ.Complete d.base.base) (hvoid : roles.param = true → d.type.isVoid = false)
    (hfree : Γ.inner.lookup d.name.text = none) {entry : Entry}
    (hstands : (a.symbols.push (d.symbol roles a.symbols.currentBlock)).2.Stands pending ⟨a.symbols.size⟩ entry)
    (k : Nat) :
    (a.define (d.declaration k) roles).1 = ⟨⟨a.symbols.size⟩, none⟩ ∧
      a.Defined k d roles (a.define (d.declaration k) roles).2 ∧
      (a.define (d.declaration k) roles).2.symbols.inner = a.symbols.inner.bind d.name.text ⟨a.symbols.size⟩ ∧
      (Γ.bind d.name.text entry).Describes pending (a.define (d.declaration k) roles).2.symbols ∧
      (a.define (d.declaration k) roles).2.Names ⟨k + 1⟩ d.name := by
  obtain ⟨b, hb, hdefine⟩ := define_of_complete hΓ hfield hc hvoid k
  have hfree' : b.symbols.inner.find? d.name.text = none := by
    rw [hb.symbols]
    exact (hΓ.lookup_inner_eq_none_iff _).mp hfree
  obtain ⟨s, hs, hbind⟩ := bind_of_free hfree' ⟨a.symbols.size⟩ roles
  have hΓb : Γ.Describes pending b.symbols := by rw [hb.symbols]; exact hΓ.push _
  have hnew : b.symbols.get ⟨a.symbols.size⟩ = d.symbol roles a.symbols.currentBlock := by
    rw [hb.symbols]
    exact SymbolTable.get_push_new _
  have hsize : b.symbols.size = a.symbols.size + 1 := by rw [hb.symbols, SymbolTable.size_push]
  have hsound : s.Sound := by
    refine (hΓb.sound.insert hs (by rw [hsize]; exact Nat.lt_succ_self _) (by rw [hnew]; rfl) ?_ ?_).sound
    · rw [hnew, hb.symbols]
      rfl
    · rw [hnew]
      exact hrole
  have hΓs := hΓb.insert hs hsound (by rw [hb.symbols]; exact hstands)
  rw [hdefine, hbind]
  have hs' : s = { b.symbols with inner := b.symbols.inner.bind d.name.text ⟨a.symbols.size⟩ } := by
    rw [SymbolTable.insert, hfree'] at hs
    cases hs
    rfl
  have hget (id : SymbolId) : (s.record s.depth ⟨a.symbols.size⟩).get id = b.symbols.get id := by rw [hs']; rfl
  refine ⟨rfl, ⟨hb.log, ?_, fun id hid => ?_, (hget _).trans hnew, ?_, hb.decor⟩, ?_, hΓs.record _ _, ?_⟩
  · show s.size = _
    rw [hs', ← hsize]
    rfl
  · show (s.record s.depth ⟨a.symbols.size⟩).get id = _
    rw [hget, hb.symbols, SymbolTable.get_push_old _ hid]
  · show s.outer = _
    rw [hs', hb.symbols]
    rfl
  · show s.inner = _
    rw [hs', hb.symbols]
    rfl
  · refine ⟨⟨a.symbols.size⟩, congrArg Decoration.symbol hb.decor, ?_, ?_⟩
    · refine ⟨s.inner, SymbolTable.mem_scopes_inner _, ?_⟩
      rw [hs']
      exact List.mem_append_right _ (List.mem_singleton_self _)
    · show ((s.record s.depth ⟨a.symbols.size⟩).get _).block = (b.decoration ⟨k + 1⟩).block
      rw [hget, hnew, hb.decor]
      rfl

theorem lookup_eq_none_iff_not_mem {β : Type} {l : List (String × β)} {x : String} :
    l.lookup x = none ↔ x ∉ l.map (·.1) := by
  rw [List.lookup_eq_none_iff, List.mem_map, not_exists]
  refine forall_congr' fun p => ?_
  rw [not_and]
  exact imp_congr_right fun _ => by rw [bne_iff_ne, ne_comm]

theorem realizes_push (s : SymbolTable) (d : Decl) (hroles : roles.IsVariable) :
    (s.push (d.symbol roles s.currentBlock)).2.Realizes ⟨s.size⟩ (.var d.type) := by
  refine ⟨by rw [SymbolTable.size_push]; exact Nat.lt_succ_self _, roles, ?_, hroles⟩
  rw [SymbolTable.get_push_new]
  rfl

theorem define_variable (hΓ : Γ.Describes pending a.symbols) (hpending : pending.map (·.1) ≠ some ⟨a.symbols.size⟩)
    (hroles : roles.IsVariable) (hc : Γ.Complete d.base.base) (hvoid : roles.param = true → d.type.isVoid = false) (hfree : Γ.inner.lookup d.name.text = none) (k : Nat) :
    (a.define (d.declaration k) roles).1 = ⟨⟨a.symbols.size⟩, none⟩ ∧
      a.Defined k d roles (a.define (d.declaration k) roles).2 ∧
      (a.define (d.declaration k) roles).2.symbols.inner = a.symbols.inner.bind d.name.text ⟨a.symbols.size⟩ ∧
      (Γ.bind d.name.text (.var d.type)).Describes pending (a.define (d.declaration k) roles).2.symbols ∧
      (a.define (d.declaration k) roles).2.Names ⟨k + 1⟩ d.name :=
  define_of_free hΓ hroles.field (by rw [Roles.isBindable, hroles.var]; rfl) hc hvoid hfree
    (by rw [SymbolTable.Stands, if_neg hpending]; exact realizes_push _ d hroles) k

theorem variable_of_define (hΓ : Γ.Describes pending a.symbols) (hroles : roles.IsVariable)
    (hlog : (a.define (d.declaration k) roles).2.log = a.log) :
    Γ.Complete d.base.base ∧ (roles.param = true → d.type.isVoid = false) ∧ Γ.inner.lookup d.name.text = none := by
  obtain ⟨hc, hvoid⟩ := complete_of_define hΓ hroles.field (by rw [Roles.isBindable, hroles.var]; rfl) hlog
  obtain ⟨b, hb, hdefine⟩ := define_of_complete hΓ hroles.field hc hvoid k
  rw [hdefine, ← hb.log] at hlog
  refine ⟨hc, hvoid, (hΓ.lookup_inner_eq_none_iff _).mpr ?_⟩
  rcases free_of_bind hlog with hfree | ⟨hfunction, -⟩
  · rw [hb.symbols] at hfree
    exact hfree
  · rw [hroles.function] at hfunction
    cases hfunction

end Analysis

end OcCompiler
