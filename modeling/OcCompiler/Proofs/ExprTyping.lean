import OcCompiler.Proofs.Findings
import OcCompiler.Proofs.Settled

/-! The analysis of an expression comes to what there is to say of it: it makes these complaints, and the expression's node
    gets this type. So it is silent exactly if the expression has a type. -/

namespace OcCompiler

open Analysis

/-- Nothing was complained about, and the symbols are the same. -/
structure Analysis.Calm (a b : Analysis) : Prop where
  log : b.log = a.log
  symbols : b.symbols = a.symbols

/-- The expression's own node has the type that was found, and an expression that has a type is settled. -/
structure Expr.Known (Γ : Env) (e : Expr) (k : Nat) (b : Analysis) : Prop where
  type : b.typeOf (e.topNode k) = (e.finding Γ).type
  place : (b.attrs (e.topNode k)).roles.lvalue = (e.finding Γ).isPlace
  settled : ∀ {τ l}, HasType Γ e τ l → e.Settled b k

/-- The environment describes the symbols, and the open scopes are the same. -/
structure Env.Stays (Γ : Env) (a b : Analysis) : Prop where
  describes : Γ.Describes none b.symbols
  scopes : b.symbols.openScopes = a.symbols.openScopes

/-- The analysis of the expression has led from one state to the other. -/
structure Expr.Found (Γ : Env) (e : Expr) (k : Nat) (a b : Analysis) : Prop extends e.Known Γ k b, Γ.Stays a b where
  log : b.log = a.log ++ (e.finding Γ).complaints.toArray

section Frame

variable {Γ : Env} {a b c : Analysis} {e : Expr} {k m : Nat} {n : NodeId} {v : Verdict}

namespace Analysis

theorem Calm.trans (h : a.Calm b) (h' : b.Calm c) : a.Calm c :=
  ⟨h'.log.trans h.log, h'.symbols.trans h.symbols⟩

theorem calm_decorate (a : Analysis) (n : NodeId) (d : Decoration) : a.Calm (a.decorate n d) := ⟨rfl, rfl⟩

theorem calm_setAttrs (a : Analysis) (n : NodeId) (attrs : Attributes) : a.Calm (a.setAttrs n attrs) :=
  calm_decorate a n _

theorem calm_place (a : Analysis) (n : NodeId) (tag : Tag) : a.Calm (a.place n tag) :=
  ⟨log_place a n tag, symbols_place a n tag⟩

theorem calm_apply (a : Analysis) (n : NodeId) (hv : v.reports = []) : a.Calm (a.apply n v) :=
  ⟨(log_apply_eq_iff a n v).mpr hv, symbols_apply a n v⟩

theorem FreshOn.place (h : a.FreshOn k m) (tag : Tag) (hn : n.index < k ∨ m ≤ n.index) :
    (a.place n tag).FreshOn k m :=
  h.effect (effect_place a tag (Nat.le_refl _) (Nat.lt_succ_self _)) (by omega)

theorem Effect.quiet_apply (h : Effect k m a b) (hlog : (b.apply n v).log = a.log) :
    b.log = a.log ∧ v.reports = [] := by
  have hq := h.quiet (effect_apply b v (Nat.le_refl _) (Nat.lt_succ_self _)) hlog
  exact ⟨hq.1, (log_apply_eq_iff b n v).mp hq.2⟩

end Analysis

theorem Expr.Known.effect {k' m' : Nat} (h : e.Known Γ k a) (hsound : a.symbols.Sound) (heff : Effect k' m' a b)
    (hdisj : k + e.size ≤ k' ∨ m' ≤ k) : e.Known Γ k b := by
  have hdecor (n : NodeId) (hn : k ≤ n.index) (hn' : n.index < k + e.size) : b.decoration n = a.decoration n :=
    heff.decor n (by omega)
  have hbounds := e.topNode_bounds k
  have htop : b.attrs (e.topNode k) = a.attrs (e.topNode k) := by
    rw [attrs, hdecor _ hbounds.1 hbounds.2]
    rfl
  exact ⟨by rw [typeOf, htop]; exact h.type, by rw [htop]; exact h.place,
    fun ht => (h.settled ht).mono hsound (heff.symbols hsound) e hdecor⟩

theorem Expr.Known.apply (h : e.Known Γ k b) (hsound : b.symbols.Sound)
    (hn : n.index < k ∨ k + e.size ≤ n.index) : e.Known Γ k (b.apply n v) :=
  h.effect hsound (effect_apply b v (Nat.le_refl _) (Nat.lt_succ_self _)) (by omega)

theorem Expr.Found.of_calm (h : e.Found Γ k b c) (hcalm : a.Calm b) : e.Found Γ k a c :=
  { h with log := by rw [h.log, hcalm.log], scopes := by rw [h.scopes, hcalm.symbols] }

theorem Expr.Found.quiet_iff (h : e.Found Γ k a b) : b.log = a.log ↔ (e.finding Γ).complaints = [] := by
  rw [h.log]
  simp

theorem Env.Stays.trans (h : Γ.Stays a b) (h' : Γ.Stays b c) : Γ.Stays a c := ⟨h'.describes, h'.scopes.trans h.scopes⟩

theorem Env.Stays.of_calm (h : Γ.Describes none a.symbols) (hcalm : a.Calm b) : Γ.Stays a b :=
  ⟨hcalm.symbols ▸ h, by rw [hcalm.symbols]⟩

end Frame

namespace Analysis

variable {Γ : Env} {pending : Option (SymbolId × Entry)} {a : Analysis} {x tag : Lexeme}
variable {n : NodeId} {name : TypeName}

theorem refer_of_lookup (hΓ : Γ.Describes none a.symbols) {entry : Entry} (hx : Γ.lookup x.text = some entry) (n : NodeId) :
    ∃ id, a.symbols.lookup x.text = some id ∧ a.symbols.Realizes id entry ∧ (a.refer n x).Names n x ∧
      (a.refer n x).decoration n =
        { attrs := (a.symbols.get id).attrs, block := (a.symbols.get id).block, symbol := some id } ∧
      a.Calm (a.refer n x) := by
  obtain ⟨id, hid, hreal⟩ := (hΓ.lookup x.text).1 entry hx
  rw [refer, hid]
  dsimp only
  generalize hd : Decoration.mk (a.symbols.get id).attrs (a.symbols.get id).block (some id) = d
  have hdecor : (a.decorate n d).decoration n = d := by rw [decoration_decorate, if_pos rfl]
  subst hd
  obtain ⟨c, hc, hfind⟩ := List.exists_of_findSome?_eq_some hid
  refine ⟨id, rfl, hreal, ⟨id, by rw [hdecor], ⟨c, ?_, SymbolTable.mem_of_lookup hfind⟩, by rw [hdecor]; rfl⟩, hdecor, rfl,
    rfl⟩
  exact List.mem_append_right _ (List.mem_reverse.mpr hc)

theorem refer_of_undeclared (hΓ : Γ.Describes none a.symbols) (hx : Γ.lookup x.text = none) (n : NodeId) :
    (a.refer n x).log = a.log.push (SemanticCause.undeclared.about x) ∧
      (a.refer n x).decoration n = { block := a.symbols.currentBlock } := by
  rw [refer, (hΓ.lookup x.text).2 hx]
  refine ⟨rfl, ?_⟩
  show (a.decorate n _).decoration n = _
  rw [decoration_decorate, if_pos rfl]

theorem log_refer (hΓ : Γ.Describes none a.symbols) (n : NodeId) (x : Lexeme) :
    (a.refer n x).log = a.log ++ (Γ.undeclared x).toArray := by
  rw [Env.undeclared]
  cases hx : Γ.lookup x.text with
  | none => simp [refer_of_undeclared hΓ hx]
  | some entry =>
    obtain ⟨id, -, -, -, -, hcalm⟩ := refer_of_lookup hΓ hx n
    simp [hcalm.log]

theorem useStruct_of_complete (hΓ : Γ.Describes pending a.symbols) (hc : Γ.Complete (.struct tag.text)) (n : NodeId)
    (mayLackFields : Bool) : ∃ d, a.useStruct n tag mayLackFields = a.decorate n d := by
  obtain ⟨id, hid, hcomplete⟩ := hΓ.structOrPlaceholder_of_complete hc
  refine ⟨{ attrs := .typed (.struct tag.text) {}, block := a.symbols.currentBlock, symbol := some id }, ?_⟩
  simp [useStruct, hid, hcomplete, setSymbols]

def useTypeName (n : NodeId) (name : TypeName) (mayLackFields : Bool) (a : Analysis) : Analysis :=
  match name with
  | .struct tag => a.useStruct n tag mayLackFields
  | .scalar _ _ => a

theorem effect_useTypeName (n : NodeId) (name : TypeName) (mayLackFields : Bool) (a : Analysis) :
    Effect n.index (n.index + 1) a (a.useTypeName n name mayLackFields) := by
  cases name with
  | scalar s lexeme => exact .refl ..
  | struct tag => exact effect_useStruct a tag _ (Nat.le_refl _) (Nat.lt_succ_self _)

theorem calm_useTypeName (hΓ : Γ.Describes pending a.symbols) (hc : Γ.Complete name.base) (n : NodeId)
    (mayLackFields : Bool) : a.Calm (a.useTypeName n name mayLackFields) := by
  cases name with
  | scalar s lexeme => exact ⟨rfl, rfl⟩
  | struct tag =>
    obtain ⟨d, hd⟩ := useStruct_of_complete hΓ hc n mayLackFields
    rw [useTypeName, hd]
    exact calm_decorate a n d

theorem useTypeName_spec (hΓ : Γ.Describes pending a.symbols) (n : NodeId) (name : TypeName) :
    (a.useTypeName n name false).log = a.log ++ (Γ.incomplete name).toArray ∧
      Γ.Describes pending (a.useTypeName n name false).symbols ∧
      (a.useTypeName n name false).symbols.openScopes = a.symbols.openScopes := by
  by_cases hc : Γ.Complete name.base
  · obtain ⟨hlog, hsymbols⟩ := calm_useTypeName hΓ hc n false
    rw [Env.incomplete_eq_nil_iff.mpr hc, hlog, hsymbols]
    exact ⟨by simp, hΓ, rfl⟩
  · cases name with
    | scalar s lexeme => exact absurd trivial hc
    | struct tag =>
      have hfields : Γ.fields? tag.text = none := Option.not_isSome_iff_eq_none.mp hc
      have hincomplete := hΓ.isComplete_structOrPlaceholder hfields
      have hΓ' := hΓ.structOrPlaceholder tag
      have hscopes : (a.symbols.structOrPlaceholder tag).2.openScopes = a.symbols.openScopes := by
        unfold SymbolTable.structOrPlaceholder
        split <;> rfl
      simp only [useTypeName, useStruct, hincomplete, Bool.or_self, Env.incomplete, hfields]
      exact ⟨by simp [report, decorate, setSymbols], hΓ', hscopes⟩

theorem complete_of_useTypeName (hΓ : Γ.Describes pending a.symbols)
    (hlog : (a.useTypeName n name false).log = a.log) : Γ.Complete name.base := by
  rw [(useTypeName_spec hΓ n name).1] at hlog
  exact Env.incomplete_eq_nil_iff.mp (by simpa using hlog)

end Analysis

namespace Expr

/-- Wherever the environment describes the symbols, the analysis comes to what there is to say. -/
def Finds (Γ : Env) (e : Expr) : Prop :=
  ∀ (k : Nat) (a : Analysis), Γ.Describes none a.symbols → a.FreshOn k (k + e.size) → e.Found Γ k a (e.analyze k a)

structure FoundAll (Γ : Env) (es : List Expr) (k : Nat) (a b : Analysis) : Prop extends Γ.Stays a b where
  log : b.log = a.log ++ ((findings Γ es).flatMap (·.complaints)).toArray
  types : (topNodes k es).map b.typeOf = (findings Γ es).map (·.type)
  settled : ∀ {τs}, HasTypes Γ es τs → SettledAll b k es

def FindsAll (Γ : Env) (es : List Expr) : Prop :=
  ∀ (k : Nat) (a : Analysis), Γ.Describes none a.symbols → a.FreshOn k (k + sizes es) →
    FoundAll Γ es k a (analyzeAll k es a)

section Operands

variable {Γ : Env} {e e' : Expr} {a b : Analysis} {k m : Nat} {n : NodeId} {v : Verdict} {us : List Diagnostic} (tag : Tag)

theorem Finds.operand (h : e.Finds Γ) (hΓ : Γ.Describes none a.symbols) (hfresh : a.FreshOn k (k + e.size))
    (hn : n.index < k ∨ k + e.size ≤ n.index) (hnode : a.decoration n = {}) :
    e.Found Γ k a (e.analyze k (a.place n tag)) ∧ (e.analyze k (a.place n tag)).attrs n = tag.initialAttributes := by
  refine ⟨(h k _ (by rw [symbols_place]; exact hΓ) (hfresh.place tag hn)).of_calm (calm_place a n tag), ?_⟩
  rw [attrs, (e.analyze_effect k _).decor n hn, ← attrs, attrs_place hnode]

theorem Finds.operands (h : e.Finds Γ) (h' : e'.Finds Γ) (hΓ : Γ.Describes none a.symbols)
    (hfresh : a.FreshOn k (k + (e.size + 1 + e'.size))) :
    let b := e'.analyze (k + e.size + 1) (e.analyze k (a.place ⟨k + e.size⟩ tag))
    b.log = a.log ++ ((e.finding Γ).complaints ++ (e'.finding Γ).complaints).toArray ∧ Γ.Stays a b ∧
      e.Known Γ k b ∧ e'.Known Γ (k + e.size + 1) b ∧ b.attrs ⟨k + e.size⟩ = tag.initialAttributes := by
  obtain ⟨hleft, hattrs⟩ := h.operand tag (n := ⟨k + e.size⟩) hΓ hfresh.sub (.inr (Nat.le_refl _))
    (hfresh _ (by dsimp only; omega) (by dsimp only; omega))
  have hpart : a.FreshOn (k + e.size + 1) (k + e.size + 1 + e'.size) := hfresh.sub
  have hrest := (hpart.place tag (n := ⟨k + e.size⟩) (.inl (Nat.lt_succ_self _))).effect (e.analyze_effect k _)
    (.inr (Nat.le_succ _))
  generalize e.analyze k (a.place ⟨k + e.size⟩ tag) = b at *
  have heff := e'.analyze_effect (k + e.size + 1) b
  have hright := h' (k + e.size + 1) b hleft.describes hrest
  refine ⟨?_, hleft.toStays.trans hright.toStays, ?_, hright.toKnown, ?_⟩
  · rw [hright.log, hleft.log]
    simp
  · exact hleft.toKnown.effect hleft.describes.sound heff (.inl (Nat.le_succ _))
  · rw [attrs, heff.decor _ (.inl (Nat.lt_succ_self _)), ← attrs, hattrs]

/-- Two nodes are placed in front of the operands, and the second is as it was placed when they are analyzed. -/
theorem place_pair (tag' : Tag) (hfresh : a.FreshOn k m) (hm : k + 2 ≤ m) :
    let b := (a.place ⟨k + 1⟩ tag).place ⟨k⟩ tag'
    a.Calm b ∧ b.FreshOn (k + 2) m ∧ b.attrs ⟨k + 1⟩ = tag.initialAttributes := by
  have hpart : a.FreshOn (k + 2) m := hfresh.sub
  have heff : Effect k (k + 1) (a.place ⟨k + 1⟩ tag) ((a.place ⟨k + 1⟩ tag).place ⟨k⟩ tag') := effect_place _ tag'
  refine ⟨(calm_place a _ tag).trans (calm_place _ _ tag'), ?_, ?_⟩
  · exact (hpart.place tag (n := ⟨k + 1⟩) (.inl (Nat.lt_succ_self _))).place tag' (n := ⟨k⟩) (.inl (by dsimp only; omega))
  · rw [attrs, heff.decor _ (.inr (Nat.le_refl _)), ← attrs]
    exact attrs_place (hfresh ⟨k + 1⟩ (Nat.le_succ _) (by dsimp only; omega)) _

/-- The verdict is all that is missing once the operands were analyzed. -/
theorem found_apply {tag : Tag} (hf : e.finding Γ = .judge tag us v) (hn : e.topNode k = n) (hlog : b.log = a.log ++ us.toArray)
    (hstays : Γ.Stays a b) (hattrs : b.attrs n = tag.initialAttributes)
    (hsettled : ∀ {τ l}, HasType Γ e τ l → (b.apply n v).typeOf n = some τ → e.Settled (b.apply n v) k) :
    e.Found Γ k a (b.apply n v) := by
  have htype : (b.apply n v).typeOf n = (e.finding Γ).type := by
    rw [typeOf_apply, typeOf, hattrs, hf]
    rfl
  refine ⟨⟨by rw [hn]; exact htype, ?_, fun ht => hsettled ht (by rw [htype, ht.finding_eq])⟩, ?_, ?_⟩
  · rw [hn, attrs_apply, hattrs, hf]
    rfl
  · exact ⟨by rw [symbols_apply]; exact hstays.describes, by rw [symbols_apply]; exact hstays.scopes⟩
  · rw [log_apply, hlog, hf]
    simp [Finding.judge]

end Operands

/-! ### One lemma for each construct -/

section Constructs

variable {Γ : Env} {e e' : Expr} {b : Analysis} {n : NodeId}

theorem finds_name (x : Lexeme) : (Expr.name x).Finds Γ := by
  intro k a hΓ hfresh
  rw [Expr.analyze]
  have hΓ' : Γ.Describes none (a.place ⟨k⟩ .name).symbols := by rw [symbols_place]; exact hΓ
  refine Found.of_calm ?_ (calm_place a ⟨k⟩ .name)
  generalize a.place ⟨k⟩ .name = a at hΓ'
  have hfinding := Expr.finding.eq_1 Γ x
  cases hx : Γ.lookup x.text with
  | none =>
    obtain ⟨hlog, hdecor⟩ := refer_of_undeclared hΓ' hx ⟨k⟩
    rw [hx] at hfinding
    refine ⟨⟨?_, ?_, fun ht => ?_⟩, ⟨by rw [symbols_refer]; exact hΓ', by rw [symbols_refer]⟩, by rw [hfinding, hlog]; simp⟩
    · rw [topNode_name, hfinding, typeOf, attrs, hdecor]
    · rw [topNode_name, hfinding, attrs, hdecor]
    · cases hfinding.symm.trans ht.finding_eq
  | some entry =>
    obtain ⟨id, -, hreal, hnames, hdecor, hcalm⟩ := refer_of_lookup hΓ' hx ⟨k⟩
    rw [hx] at hfinding
    have hattrs : (a.refer ⟨k⟩ x).attrs ⟨k⟩ = (a.symbols.get id).attrs := by rw [attrs, hdecor]
    have hknown : (a.refer ⟨k⟩ x).typeOf ⟨k⟩ = ((Expr.name x).finding Γ).type ∧
        ((a.refer ⟨k⟩ x).attrs ⟨k⟩).roles.lvalue = ((Expr.name x).finding Γ).isPlace ∧
        ((Expr.name x).finding Γ).complaints = [] := by
      rw [typeOf, hattrs, hfinding]
      cases entry with
      | var τ =>
        obtain ⟨-, roles, hroles, hvariable⟩ := hreal
        exact ⟨congrArg Attributes.type hroles, (congrArg (·.roles.lvalue) hroles).trans hvariable.lvalue, rfl⟩
      | function sig announced =>
        obtain ⟨-, hroles, -⟩ := hreal
        exact ⟨congrArg Attributes.type hroles, congrArg (·.roles.lvalue) hroles, rfl⟩
    refine ⟨⟨hknown.1, hknown.2.1, fun ht => ?_⟩, .of_calm hΓ' hcalm,
      by rw [hknown.2.2, hcalm.log]; simp⟩
    rw [Settled]
    exact ⟨hnames, _, hknown.1.trans (congrArg Finding.type ht.finding_eq)⟩

theorem finds_constant (c : Constant) (lexeme : Lexeme) : (Expr.constant c lexeme).Finds Γ := by
  intro k a hΓ hfresh
  rw [size_constant] at hfresh
  have hattrs := attrs_place (hfresh ⟨k⟩ (Nat.le_refl _) (Nat.lt_succ_self _)) (.constant c)
  -- A string constant goes into a queue besides.
  have hrun : ∃ q, (Expr.constant c lexeme).analyze k a = { a.place ⟨k⟩ (.constant c) with queues := q } := by
    rw [Expr.analyze]
    dsimp only
    split
    · exact ⟨_, rfl⟩
    · exact ⟨_, rfl⟩
  obtain ⟨q, hrun⟩ := hrun
  rw [hrun]
  have hconstant : ((a.place ⟨k⟩ (.constant c)).attrs ⟨k⟩).type = some c.type ∧
      ((a.place ⟨k⟩ (.constant c)).attrs ⟨k⟩).roles.lvalue = false := by
    rw [hattrs]
    rcases c with (_ | _ | _) | _ | _ <;> exact ⟨rfl, rfl⟩
  exact ⟨⟨hconstant.1, hconstant.2, fun _ => by rw [Settled]; exact hconstant.1⟩,
    .of_calm hΓ ⟨log_place a ⟨k⟩ _, symbols_place a ⟨k⟩ _⟩, (log_place a ⟨k⟩ _).trans (by simp [finding])⟩

theorem finds_unary (op : UnaryOp) (mark : Lexeme) (he : e.Finds Γ) : (Expr.unary op mark e).Finds Γ := by
  intro k a hΓ hfresh
  rw [size_unary] at hfresh
  obtain ⟨h, hattrs⟩ := he.operand (.unary op) (k := k + 1) (n := ⟨k⟩) hΓ hfresh.sub (.inl (Nat.lt_succ_self _))
    (hfresh _ (Nat.le_refl _) (by dsimp only; omega))
  rw [Expr.analyze]
  generalize e.analyze (k + 1) (a.place ⟨k⟩ (.unary op)) = b at *
  refine found_apply (by rw [finding, operandVerdict, h.type]) (topNode_unary ..) h.log h.toStays hattrs fun ht htop => ?_
  cases ht with
  | unary ht =>
    rw [Settled]
    exact ⟨(h.toKnown.apply h.describes.sound (.inl (Nat.lt_succ_self _))).settled ht, _, htop⟩

theorem finds_newString (mark : Lexeme) (he : e.Finds Γ) : (Expr.newString mark e).Finds Γ := by
  intro k a hΓ hfresh
  rw [size_newString] at hfresh
  obtain ⟨h, hattrs⟩ := he.operand .newString (k := k + 1) (n := ⟨k⟩) hΓ hfresh.sub (.inl (Nat.lt_succ_self _))
    (hfresh _ (Nat.le_refl _) (by dsimp only; omega))
  rw [Expr.analyze]
  generalize e.analyze (k + 1) (a.place ⟨k⟩ .newString) = b at *
  refine found_apply (by rw [finding, operandVerdict, h.type]) (topNode_newString ..) h.log h.toStays hattrs
    fun ht htop => ?_
  cases ht with
  | newString ht =>
    rw [Settled]
    exact ⟨(h.toKnown.apply h.describes.sound (.inl (Nat.lt_succ_self _))).settled ht, _, htop⟩

theorem finds_binary (op : BinaryOp) (mark : Lexeme) (he : e.Finds Γ) (he' : e'.Finds Γ) :
    (Expr.binary op e mark e').Finds Γ := by
  intro k a hΓ hfresh
  rw [size_binary] at hfresh
  obtain ⟨hlog, hstays, h, h', hattrs⟩ := he.operands (.binary op) he' hΓ hfresh
  rw [Expr.analyze]
  generalize e'.analyze (k + e.size + 1) (e.analyze k (a.place ⟨k + e.size⟩ (.binary op))) = b at *
  refine found_apply (by rw [finding, binaryVerdict, h.type, h.place, h'.type]) (topNode_binary ..) hlog hstays hattrs
    fun ht htop => ?_
  generalize b.binaryVerdict op (e.topNode k) (e'.topNode (k + e.size + 1)) mark = v at *
  have hleft := h.apply hstays.describes.sound (n := ⟨k + e.size⟩) (v := v) (.inr (Nat.le_refl _))
  have hright := h'.apply hstays.describes.sound (n := ⟨k + e.size⟩) (v := v) (.inl (Nat.lt_succ_self _))
  rw [Settled]
  cases ht with
  | assign ht ht' =>
    exact ⟨hleft.settled ht, hright.settled ht', ⟨_, htop⟩, fun _ => hleft.place.trans (by rw [ht.finding_eq])⟩
  | equality _ ht ht' | order _ ht ht' | arith ht ht' =>
    exact ⟨hleft.settled ht, hright.settled ht', ⟨_, htop⟩, nofun⟩

theorem finds_index (bracket : Lexeme) (he : e.Finds Γ) (he' : e'.Finds Γ) : (Expr.index e bracket e').Finds Γ := by
  intro k a hΓ hfresh
  rw [size_index] at hfresh
  obtain ⟨hlog, hstays, h, h', hattrs⟩ := he.operands .index he' hΓ hfresh
  rw [Expr.analyze]
  generalize e'.analyze (k + e.size + 1) (e.analyze k (a.place ⟨k + e.size⟩ .index)) = b at *
  refine found_apply (by rw [finding, indexVerdict, h.type, h'.type]) (topNode_index ..) hlog hstays hattrs fun ht htop => ?_
  have hleft := h.apply hstays.describes.sound (n := ⟨k + e.size⟩)
    (v := b.indexVerdict (e.topNode k) (e'.topNode (k + e.size + 1)) bracket) (.inr (Nat.le_refl _))
  have hright := h'.apply hstays.describes.sound (n := ⟨k + e.size⟩)
    (v := b.indexVerdict (e.topNode k) (e'.topNode (k + e.size + 1)) bracket) (.inl (Nat.lt_succ_self _))
  rw [Settled]
  cases ht with
  | element ht ht' | character ht ht' => exact ⟨hleft.settled ht, hright.settled ht', _, htop⟩

theorem selectVerdict_eq (hΓ : Γ.Describes none b.symbols) (n : NodeId) (dot field : Lexeme) :
    b.selectVerdict n dot field = Γ.selectVerdict (b.typeOf n) dot field := by
  unfold selectVerdict Env.selectVerdict
  cases hn : b.typeOf n with
  | none => rfl
  | some τ =>
    cases τ with
    | base base =>
      cases base with
      | scalar s => rfl
      | struct tag =>
        cases hfields : Γ.fields? tag with
        | none =>
          have hstructs := hΓ.structs tag
          rw [hfields, Option.map_none, SymbolTable.fieldTypes?, Option.bind_eq_none_iff] at hstructs
          cases hid : b.symbols.struct? tag with
          | none => simp only [hid, hfields, Option.map_none]
          | some id =>
            have hnone := Option.map_eq_none_iff.mp (hstructs id hid)
            simp only [hid, hfields, Option.map_some, Option.map_none]
            generalize b.symbols.get id = struct at hnone
            cases struct
            cases hnone
            rfl
        | some fields =>
          obtain ⟨id, fs, hid, hfs, hlookup⟩ := hΓ.field? hfields
          have hτ := hlookup field.text
          simp only [hid, hfields, Option.map_some]
          generalize b.symbols.get id = struct at hfs hτ
          cases struct
          cases hfs
          cases hfield : fields.lookup field.text with
          | none =>
            rw [hfield, Option.map_none, Option.map_eq_none_iff] at hτ
            simp only [hτ]
          | some τ =>
            rw [hfield, Option.map_some, Option.map_eq_some_iff] at hτ
            obtain ⟨f, hf, hτ⟩ := hτ
            simp only [hf, hτ]
    | _ => rfl

theorem finds_select (dot field : Lexeme) (he : e.Finds Γ) : (Expr.select e dot field).Finds Γ := by
  intro k a hΓ hfresh
  rw [size_select] at hfresh
  obtain ⟨h, hattrs⟩ := he.operand .select (n := ⟨k + e.size⟩) hΓ hfresh.sub (.inr (Nat.le_refl _))
    (hfresh _ (by dsimp only; omega) (by dsimp only; omega))
  have hbounds := e.topNode_bounds k
  rw [Expr.analyze]
  generalize e.analyze k (a.place ⟨k + e.size⟩ .select) = b at *
  -- The node of the field's name is marked as one, which changes nothing for the others.
  let f : NodeId := ⟨k + e.size + 1⟩
  have hplace : Effect f.index (f.index + 1) b (b.place f .field) := effect_place b .field (Nat.le_refl _) (Nat.lt_succ_self _)
  have hmark : Effect f.index (f.index + 1) b ((b.place f .field).markField f) :=
    hplace.trans (effect_decorate _ _ (Nat.le_refl _) (Nat.lt_succ_self _))
  have hcalm : b.Calm ((b.place f .field).markField f) := ⟨log_place b f .field, symbols_place b f .field⟩
  have hverdict : (b.place f .field).selectVerdict (e.topNode k) dot field =
      Γ.selectVerdict (e.finding Γ).type dot field := by
    rw [selectVerdict_eq (by rw [symbols_place]; exact h.describes),
      (h.toKnown.effect h.describes.sound hplace (.inl (Nat.le_succ _))).type]
  have hknown := h.toKnown.effect h.describes.sound hmark (.inl (Nat.le_succ _))
  show Found Γ _ k a (((b.place f .field).markField f).apply ⟨k + e.size⟩ ((b.place f .field).selectVerdict _ dot field))
  rw [hverdict]
  generalize (b.place f .field).markField f = c at *
  have hstays := Env.Stays.of_calm h.describes hcalm
  refine found_apply (by rw [finding]) (topNode_select ..) (by rw [hcalm.log, h.log]) (h.toStays.trans hstays)
    (by rw [attrs, hmark.decor _ (.inl (Nat.lt_succ_self _)), ← attrs, hattrs]) fun ht htop => ?_
  cases ht with
  | select ht hfields hfield =>
    have hobject := hknown.apply hstays.describes.sound (n := ⟨k + e.size⟩) (v := Γ.selectVerdict (e.finding Γ).type dot field)
      (.inr (Nat.le_refl _))
    rw [Settled]
    exact ⟨hobject.settled ht, ⟨_, hobject.type.trans (by rw [ht.finding_eq])⟩, _, htop⟩

theorem finds_newStruct (mark tag : Lexeme) : (Expr.newStruct mark tag).Finds Γ := by
  intro k a hΓ hfresh
  rw [Expr.analyze]
  have hcalm := (calm_place a ⟨k⟩ .newStruct).trans (calm_place _ ⟨k + 1⟩ .typeName)
  refine Found.of_calm ?_ hcalm
  generalize Analysis.place ⟨k + 1⟩ .typeName (a.place ⟨k⟩ .newStruct) = b at hcalm
  obtain ⟨hlog, hΓ', hscopes⟩ := useTypeName_spec (hcalm.symbols ▸ hΓ) ⟨k + 1⟩ (.struct tag)
  rw [useTypeName] at hlog hΓ' hscopes
  have hattrs : ((b.useStruct ⟨k + 1⟩ tag false).setAttrs ⟨k⟩ (.typed (.struct tag.text) { vreg := true })).attrs ⟨k⟩ =
      .typed (.struct tag.text) { vreg := true } := by
    rw [attrs, setAttrs, decoration_decorate, if_pos rfl]
  have hcalm' := calm_setAttrs (b.useStruct ⟨k + 1⟩ tag false) ⟨k⟩ (.typed (.struct tag.text) { vreg := true })
  generalize (b.useStruct ⟨k + 1⟩ tag false).setAttrs ⟨k⟩ (.typed (.struct tag.text) { vreg := true }) = c at hattrs hcalm'
  have htype : c.typeOf ⟨k⟩ = some (.struct tag.text) := by rw [typeOf, hattrs]; rfl
  refine ⟨⟨by rw [topNode_newStruct, htype, finding], by rw [topNode_newStruct, hattrs]; rfl, fun _ => ?_⟩,
    ⟨hcalm'.symbols ▸ hΓ', by rw [hcalm'.symbols, hscopes]⟩, by rw [hcalm'.log, hlog, finding]⟩
  rw [Settled]
  exact ⟨_, htype⟩

theorem analyze_newArray (element : TypeName) (mark : Lexeme) (k : Nat) (a : Analysis) :
    (Expr.newArray element mark e).analyze k a =
      let b := (e.analyze (k + 2) ((a.place ⟨k + 1⟩ .newArray).place ⟨k⟩ element.tag)).useTypeName ⟨k⟩ element false
      b.apply ⟨k + 1⟩ (b.newArrayVerdict element.base (e.topNode (k + 2)) mark) := by
  cases element <;> rw [Expr.analyze] <;> rfl

theorem finds_newArray (element : TypeName) (mark : Lexeme) (he : e.Finds Γ) :
    (Expr.newArray element mark e).Finds Γ := by
  intro k a hΓ hfresh
  rw [size_newArray] at hfresh
  rw [analyze_newArray]
  obtain ⟨hcalm, hfresh', hattrs⟩ := place_pair .newArray element.tag hfresh (by omega)
  generalize Analysis.place ⟨k⟩ element.tag (a.place ⟨k + 1⟩ .newArray) = a₁ at *
  have h := he (k + 2) a₁ (hcalm.symbols ▸ hΓ) hfresh'.sub
  have heff := e.analyze_effect (k + 2) a₁
  generalize e.analyze (k + 2) a₁ = b at *
  obtain ⟨hlog, hΓ', hscopes⟩ := useTypeName_spec h.describes ⟨k⟩ element
  have huse := effect_useTypeName ⟨k⟩ element false b
  dsimp only at huse ⊢
  have hknown := h.toKnown.effect h.describes.sound huse (.inr (Nat.le_succ _))
  generalize b.useTypeName ⟨k⟩ element false = c at *
  refine found_apply (by rw [finding, newArrayVerdict, hknown.type]) (topNode_newArray ..) ?_
    ⟨hΓ', by rw [hscopes, h.scopes, hcalm.symbols]⟩ ?_ fun ht htop => ?_
  · rw [hlog, h.log, hcalm.log]
    simp
  · rw [attrs, huse.decor _ (.inr (Nat.le_refl _)), heff.decor _ (.inl (Nat.lt_succ_self _)), ← attrs, hattrs]
  · cases ht with
    | newArray _ _ ht =>
      rw [Settled]
      exact ⟨(hknown.apply hΓ'.sound (.inl (Nat.lt_succ_self _))).settled ht, htop⟩

theorem findsAll_nil : FindsAll Γ [] := fun _ _ hΓ _ =>
  ⟨⟨hΓ, rfl⟩, by simp [analyzeAll, findings], rfl, fun _ => trivial⟩

theorem findsAll_cons {es : List Expr} (he : e.Finds Γ) (hes : FindsAll Γ es) : FindsAll Γ (e :: es) := by
  intro k a hΓ hfresh
  rw [sizes] at hfresh
  rw [analyzeAll]
  have h := he k a hΓ hfresh.sub
  have hpart : a.FreshOn (k + e.size) (k + e.size + sizes es) := hfresh.sub
  have hrest := hpart.effect (e.analyze_effect k a) (.inr (Nat.le_refl _))
  generalize e.analyze k a = b at *
  have hs := hes (k + e.size) b h.describes hrest
  have hknown := h.toKnown.effect h.describes.sound (analyzeAll_effect es (k + e.size) b) (.inl (Nat.le_refl _))
  refine ⟨h.toStays.trans hs.toStays, ?_, ?_, fun ht => ?_⟩
  · rw [hs.log, h.log, findings]
    simp
  · rw [topNodes, findings, List.map_cons, List.map_cons, hknown.type, hs.types]
  · cases ht with
    | cons ht hts =>
      rw [SettledAll]
      exact ⟨hknown.settled ht, hs.settled hts⟩

theorem map_type_params {s : SymbolTable} {params : List (String × ValueType)} {ids : List SymbolId}
    (h : s.ParamsAre params ids) : ids.map (fun p => (s.get p).attrs.type) = (params.map (·.2)).map some := by
  induction h with
  | nil => rfl
  | cons hp _ ih => rw [List.map_cons, List.map_cons, List.map_cons, ih, hp.2.2]; rfl

theorem finds_call (callee paren : Lexeme) {args : List Expr} (hargs : FindsAll Γ args) :
    (Expr.call callee paren args).Finds Γ := by
  intro k a hΓ hfresh
  rw [size_call] at hfresh
  rw [Expr.analyze]
  obtain ⟨hcalm, hfresh', hattrs⟩ := place_pair .call .name hfresh (by omega)
  generalize Analysis.place ⟨k⟩ .name (a.place ⟨k + 1⟩ .call) = a₁ at *
  have hΓ₁ : Γ.Describes none a₁.symbols := hcalm.symbols ▸ hΓ
  have hrefer : Effect k (k + 1) a₁ (a₁.refer ⟨k⟩ callee) := effect_refer a₁ callee
  have heff := analyzeAll_effect args (k + 2) (a₁.refer ⟨k⟩ callee)
  have h := hargs (k + 2) (a₁.refer ⟨k⟩ callee) (by rw [symbols_refer]; exact hΓ₁)
    (hfresh'.sub.effect hrefer (.inr (Nat.le_succ _)))
  generalize analyzeAll (k + 2) args (a₁.refer ⟨k⟩ callee) = b at *
  have hkept := heff.decor ⟨k⟩ (.inl (by dsimp only; omega))
  have hscopes : b.symbols.openScopes = a₁.symbols.openScopes := by rw [h.scopes, symbols_refer]
  have hv : b.callVerdict ⟨k⟩ (topNodes (k + 2) args) callee = Γ.callVerdict callee ((findings Γ args).map (·.type)) := by
    unfold Env.callVerdict
    cases hx : Γ.lookup callee.text with
    | none => rw [callVerdict, hkept, (refer_of_undeclared hΓ₁ hx _).2]
    | some entry =>
      -- The arguments do not change what the name stands for.
      obtain ⟨id, hid, hreal, -, hdecor, -⟩ := refer_of_lookup hΓ₁ hx ⟨k⟩
      obtain ⟨id', hid', hreal'⟩ := (h.describes.lookup callee.text).1 entry hx
      rw [SymbolTable.lookup, hscopes, ← SymbolTable.lookup, hid, Option.some.injEq] at hid'
      subst hid'
      cases entry with
      | var τ =>
        obtain ⟨-, roles, hroles, hvariable⟩ := hreal
        simp [callVerdict, hkept, hdecor, hroles, hvariable.function, Attributes.typed]
      | function sig announced =>
        obtain ⟨-, hroles, -⟩ := hreal
        obtain ⟨-, -, ids, hids, hparams, -⟩ := hreal'
        simp only [callVerdict, hkept, hdecor, hroles, hids, Option.getD_some, map_type_params hparams, h.types]
        rfl
  have hlog : b.log = a.log ++ (Γ.undeclared callee ++ (findings Γ args).flatMap (·.complaints)).toArray := by
    rw [h.log, log_refer hΓ₁, hcalm.log]
    simp
  rw [hv]
  refine found_apply (by rw [finding]) (topNode_call ..) hlog ⟨h.describes, by rw [hscopes, hcalm.symbols]⟩ ?_ fun ht htop => ?_
  · rw [attrs, heff.decor _ (.inl (Nat.lt_succ_self _)), hrefer.decor _ (.inr (Nat.le_refl _)), ← attrs, hattrs]
  · cases ht with
    | call hx hs hfits =>
      obtain ⟨id, -, hreal, hnames, hdecor, hcalm'⟩ := refer_of_lookup hΓ₁ hx ⟨k⟩
      have hsound : (a₁.refer ⟨k⟩ callee).symbols.Sound := by rw [symbols_refer]; exact hΓ₁.sound
      generalize Γ.callVerdict callee _ = v at *
      have hevolves : b.symbols.Evolves (b.apply ⟨k + 1⟩ v).symbols := by
        rw [symbols_apply]
        exact h.describes.sound.refl
      have hcallee : (b.apply ⟨k + 1⟩ v).decoration ⟨k⟩ = b.decoration ⟨k⟩ := decoration_apply _ _ _ _ (by simp)
      have hfunction : b.NamesFunction ⟨k⟩ _ := ⟨_, by rw [attrs, hkept, hdecor]; exact hreal.2.1⟩
      rw [Settled]
      refine ⟨(hnames.mono hsound (heff.symbols hsound) hkept).mono h.describes.sound hevolves hcallee, ?_, _, htop,
        hfunction.mono hcallee⟩
      exact (h.settled hs).mono h.describes.sound hevolves args fun n hn _ => decoration_apply _ _ _ _ fun h => by
        rw [h] at hn
        dsimp only at hn
        omega

end Constructs

mutual

theorem finds (Γ : Env) (e : Expr) : e.Finds Γ := by
  cases e with
  | name x => exact finds_name x
  | constant c lexeme => exact finds_constant c lexeme
  | unary op mark e => exact finds_unary op mark (finds Γ e)
  | binary op left mark right => exact finds_binary op mark (finds Γ left) (finds Γ right)
  | call callee paren args => exact finds_call callee paren (findsAll Γ args)
  | index base bracket subscript => exact finds_index bracket (finds Γ base) (finds Γ subscript)
  | select object dot field => exact finds_select dot field (finds Γ object)
  | newStruct mark tag => exact finds_newStruct mark tag
  | newString mark count => exact finds_newString mark (finds Γ count)
  | newArray element mark count => exact finds_newArray element mark (finds Γ count)

theorem findsAll (Γ : Env) (es : List Expr) : FindsAll Γ es := by
  match es with
  | [] => exact findsAll_nil
  | e :: es => exact findsAll_cons (finds Γ e) (findsAll Γ es)

end

end Expr

end OcCompiler
