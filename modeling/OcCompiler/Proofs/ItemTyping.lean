import OcCompiler.Proofs.FunctionTyping
import OcCompiler.Proofs.StructTyping
import OcCompiler.Proofs.WalkAgrees

/-! The analysis of a program agrees with the type system: nothing is complained about exactly if the program is well
    formed, and then all of its nodes are settled. -/

namespace OcCompiler

open Analysis

/-! ### Nodes that are tied to a symbol -/

section Tied

variable {a : Analysis} {m : NodeId}

theorem Analysis.decoration_place_of_symbol (h : (a.decoration m).symbol.isSome = true) (n : NodeId) (tag : Tag) :
    (a.place n tag).decoration m = a.decoration m := by
  unfold place
  dsimp only
  split
  · rfl
  · rename_i hcond
    rw [decoration_decorate, if_neg]
    rintro rfl
    rw [h] at hcond
    exact hcond rfl

theorem Decl.decoration_place_of_symbol (h : (a.decoration m).symbol.isSome = true) (k : Nat) (tag : Tag) (d : Decl) :
    (d.place k tag a).decoration m = a.decoration m := by
  have hplace {b : Analysis} (hb : b.decoration m = a.decoration m) (n : NodeId) (tag : Tag) :
      (b.place n tag).decoration m = a.decoration m :=
    (Analysis.decoration_place_of_symbol (by rw [hb]; exact h) n tag).trans hb
  unfold Decl.place
  split
  · exact hplace (hplace (hplace rfl _ _) _ _) _ _
  · exact hplace (hplace rfl _ _) _ _

theorem Decl.decoration_placeAll_of_symbol (h : (a.decoration m).symbol.isSome = true) (k : Nat) (tag : Tag)
    (ds : List Decl) : (placeAll k tag ds a).decoration m = a.decoration m := by
  induction ds generalizing a k with
  | nil => rfl
  | cons d ds ih =>
    have hd := Decl.decoration_place_of_symbol h k tag d
    rw [placeAll, ih (by rw [hd]; exact h), hd]

theorem Item.decoration_placeHead_of_symbol (h : (a.decoration m).symbol.isSome = true) (k : Nat) (d : Decl)
    (params : List Decl) : (placeHead k d params a).decoration m = a.decoration m := by
  have hd := Decl.decoration_place_of_symbol h k .declName d
  have hlist := Analysis.decoration_place_of_symbol (by rw [hd]; exact h) ⟨k + d.size⟩ .paramList
  rw [placeHead, Decl.decoration_placeAll_of_symbol (by rw [hlist, hd]; exact h), hlist, hd]

theorem Decl.calm_placeAll (k : Nat) (tag : Tag) (ds : List Decl) (a : Analysis) : a.Calm (placeAll k tag ds a) := by
  induction ds generalizing a k with
  | nil => exact ⟨rfl, rfl⟩
  | cons d ds ih => exact (d.calm_place k tag a).trans (ih _ _)

theorem Item.calm_placeHead (k : Nat) (d : Decl) (params : List Decl) (a : Analysis) : a.Calm (placeHead k d params a) :=
  (d.calm_place k .declName a).trans ((Analysis.calm_place ..).trans (Decl.calm_placeAll ..))

end Tied

namespace Item

def Settled (a : Analysis) (k : Nat) : Item → Prop
  | .struct _ _ fields => Decl.FieldsSettled a (k + 2) fields
  | .function d _ params _ body =>
    a.typeOf ⟨k + 1⟩ = some d.type ∧ Decl.SettledAll a (k + d.size + 1) params ∧
      Stmt.SettledAll a (k + d.size + 1 + Decl.sizes params + 1) body
  | .prototype .. => True
  | .stmt s => s.Settled a k

def Agrees (i : Item) : Prop :=
  ∀ (Γ : Env) (k : Nat) (a : Analysis), Γ.outer = [] → Γ.Describes none a.symbols → a.FreshOn k (k + i.size) →
    (∀ Γ', ItemOk Γ i Γ' → (i.analyze k a).log = a.log ∧ Γ'.Describes none (i.analyze k a).symbols ∧
      i.Settled (i.analyze k a) k) ∧
      ((i.analyze k a).log = a.log → ∃ Γ', ItemOk Γ i Γ')

/-- From a global environment that describes the symbols, the item leads to the next with these complaints. -/
def Leads (us : List Diagnostic) (Γ : Env) (i : Item) (Γ' : Env) : Prop :=
  ∀ (k : Nat) (a : Analysis), Γ.outer = [] → Γ.Describes none a.symbols → a.FreshOn k (k + i.size) →
    (i.analyze k a).log = a.log ++ us.toArray ∧ Γ'.Describes none (i.analyze k a).symbols ∧
      (us = [] → i.Settled (i.analyze k a) k)

theorem leads_stmt {us : List Diagnostic} {Γ Γ' : Env} {s : Stmt} (h : s.Leads none us Γ Γ') : (Item.stmt s).Leads us Γ Γ' := by
  intro k a _ hΓ hfresh
  rw [size_stmt] at hfresh
  have hpassed := h k a hΓ hfresh
  exact ⟨hpassed.log, hpassed.describes, hpassed.settled⟩

theorem Leads.quiet {Γ Γ' : Env} {i : Item} {k : Nat} {a : Analysis} (h : i.Leads [] Γ Γ') (hglobal : Γ.outer = [])
    (hΓ : Γ.Describes none a.symbols) (hfresh : a.FreshOn k (k + i.size)) :
    (i.analyze k a).log = a.log ∧ Γ'.Describes none (i.analyze k a).symbols ∧ i.Settled (i.analyze k a) k := by
  obtain ⟨hlog, hΓ', hsettled⟩ := h k a hglobal hΓ hfresh
  exact ⟨hlog.trans (by simp), hΓ', hsettled rfl⟩

theorem agrees_stmt (s : Stmt) : (Item.stmt s).Agrees := by
  intro Γ k a hglobal hΓ hfresh
  refine ⟨fun Γ' h => ?_, fun hlog => ?_⟩
  · cases h with
    | stmt h => exact (leads_stmt (s.leads h)).quiet hglobal hΓ hfresh
  · rw [size_stmt] at hfresh
    obtain ⟨Γ', h⟩ := s.judged none Γ k a hΓ hfresh hlog fun τ hτ => by cases hτ
    exact ⟨Γ', .stmt h⟩

section Structs

variable {Γ : Env} {a : Analysis} {tag : Lexeme}

theorem openStruct_of_new (hΓ : Γ.Describes none a.symbols) (hnew : Γ.fields? tag.text = none) (n : NodeId) :
    ∃ id b, a.openStruct n tag = (some id, b) ∧ b.log = a.log ∧ (Γ.addStruct tag.text []).Describes none b.symbols ∧
      b.symbols.struct? tag.text = some id := by
  have hincomplete := hΓ.isComplete_structOrPlaceholder hnew
  have hΓ' := hΓ.structOrPlaceholder tag
  have hid := a.symbols.struct?_structOrPlaceholder tag
  unfold openStruct
  simp only [hincomplete, Bool.false_eq_true, if_false]
  refine ⟨_, _, rfl, rfl, ?_, hid⟩
  have hbody := hΓ'.modifyStruct hid
    (fun s => { s with loc := tag.loc, block := (a.symbols.structOrPlaceholder tag).2.currentBlock, fields := some [] })
    rfl rfl rfl (fun q hq => by cases hq) [] rfl (Γ.addStruct tag.text []) rfl rfl (Env.fields?_addStruct hnew [])
  exact hbody.record _ _

theorem new_of_openStruct (hΓ : Γ.Describes none a.symbols) {n : NodeId} (hlog : (a.openStruct n tag).2.log = a.log) :
    Γ.fields? tag.text = none := by
  cases hfields : Γ.fields? tag.text with
  | none => rfl
  | some fields =>
    obtain ⟨id, hid, hcomplete⟩ := hΓ.structOrPlaceholder_of_complete (show Γ.Complete (.struct tag.text) by
      rw [Env.Complete, hfields]; rfl)
    unfold openStruct at hlog
    simp only [hid, hcomplete, if_true] at hlog
    exact absurd (congrArg Array.size hlog) (by simp [report, setSymbols])

theorem agrees_struct (mark tag : Lexeme) (fields : List Decl) : (Item.struct mark tag fields).Agrees := by
  intro Γ k a _ hΓ hfresh
  rw [analyze]
  have hcalm := calm_place a ⟨k⟩ .struct
  generalize a.place ⟨k⟩ .struct = a₁ at hcalm
  have hΓ₁ : Γ.Describes none a₁.symbols := by rw [hcalm.symbols]; exact hΓ
  -- What follows the definition only places nodes.
  have hcalmPlace (b : Analysis) : b.Calm (Decl.placeAll (k + 2) .field fields (b.place ⟨k + 1⟩ .typeName)) :=
    (calm_place b _ _).trans (Decl.calm_placeAll ..)
  have hdecor (b : Analysis) (n : NodeId) (hn : (b.decoration n).symbol.isSome = true) :
      (Decl.placeAll (k + 2) .field fields (b.place ⟨k + 1⟩ .typeName)).decoration n = b.decoration n := by
    have hfirst := decoration_place_of_symbol hn ⟨k + 1⟩ .typeName
    rw [Decl.decoration_placeAll_of_symbol (by rw [hfirst]; exact hn), hfirst]
  refine ⟨fun Γ' h => ?_, fun hlog => ?_⟩
  · cases h with
    | struct hnew hdistinct hvoid =>
      obtain ⟨id, b, hopen, hlogOpen, hΓb, hid⟩ := openStruct_of_new hΓ₁ hnew ⟨k + 1⟩
      obtain ⟨hlog, hdescribes, hsettled⟩ :=
        defineFields_of_ok hnew hΓb hid hvoid (by simpa using hdistinct) (b.symbols.depth + 1) (k + 2)
      have hrun : a₁.defineStructAs ⟨k⟩ ⟨k + 1⟩ tag (Decl.declarations (k + 2) fields) =
          let c := defineFields id (b.symbols.depth + 1) (Decl.declarations (k + 2) fields) b
          { c with queues.structs := c.queues.structs.push ⟨k⟩ } := by
        rw [defineStructAs, hopen]
      dsimp only at hrun ⊢
      rw [hrun]
      generalize defineFields id (b.symbols.depth + 1) (Decl.declarations (k + 2) fields) b = c at hlog hdescribes hsettled
      refine ⟨?_, ?_, ?_⟩
      · rw [(hcalmPlace _).log]
        exact hlog.trans (hlogOpen.trans hcalm.log)
      · rw [(hcalmPlace _).symbols]
        exact hdescribes
      · rw [Settled]
        exact hsettled.mono fun n _ _ hn => hdecor _ n hn
  · rw [(hcalmPlace _).log, ← hcalm.log] at hlog
    have hopenEff : Effect k (k + 2) a₁ (a₁.openStruct ⟨k + 1⟩ tag).2 :=
      effect_openStruct a₁ tag (by dsimp only; omega) (by dsimp only; omega)
    have hnew : Γ.fields? tag.text = none := by
      refine new_of_openStruct hΓ₁ (n := ⟨k + 1⟩) ?_
      unfold defineStructAs at hlog
      split at hlog
      · rename_i b hopen
        rw [hopen]
        exact hlog
      · rename_i id b hopen
        rw [hopen] at hopenEff ⊢
        exact (hopenEff.quiet (effect_defineFields b id (b.symbols.depth + 1)
          (Decl.declarations_within fields (Nat.le_refl _) (Nat.le_refl _))) hlog).1
    obtain ⟨id, b, hopen, hlogOpen, hΓb, hid⟩ := openStruct_of_new hΓ₁ hnew ⟨k + 1⟩
    rw [defineStructAs, hopen] at hlog
    obtain ⟨hvoid, hdistinct⟩ := ok_of_defineFields hnew hΓb hid (by simp) (hlog.trans hlogOpen.symm)
    exact ⟨_, .struct hnew (by simpa using hdistinct) hvoid⟩

end Structs

section Functions

variable {Γ : Env} {a b : Analysis} {d : Decl} {params : List Decl} {body : List Stmt} {k : Nat} {n : NodeId}

theorem agrees_prototype (d : Decl) (paren : Lexeme) (params : List Decl) (semicolon : Lexeme) :
    (Item.prototype d paren params semicolon).Agrees := by
  intro Γ k a hglobal hΓ _
  rw [analyze]
  have hcalm := calm_place a ⟨k + d.size + 1 + Decl.sizes params + 1⟩ .prototype
  generalize a.place ⟨k + d.size + 1 + Decl.sizes params + 1⟩ .prototype = a₁ at hcalm
  have hΓ₁ : Γ.Describes none a₁.symbols := by rw [hcalm.symbols]; exact hΓ
  show (∀ Γ' : Env, _ → (placeHead k d params (a₁.openHead k d params true)).exitBlock.log = a.log ∧
    Γ'.Describes none (placeHead k d params (a₁.openHead k d params true)).exitBlock.symbols ∧ _) ∧
    ((placeHead k d params (a₁.openHead k d params true)).exitBlock.log = a.log → _)
  have hplace := calm_placeHead k d params (a₁.openHead k d params true)
  refine ⟨fun Γ' h => ?_, fun hlog => ?_⟩
  · cases h with
    | prototype hc hfree hparams =>
      obtain ⟨hhead, hdescribes⟩ := openHead_prototype hΓ₁ hc hfree hparams k
      refine ⟨hplace.log.trans (hhead.log.trans hcalm.log), ?_, trivial⟩
      show Env.Describes _ none (placeHead k d params _).symbols.exitBlock.2
      rw [hplace.symbols]
      exact hdescribes
  · obtain ⟨hc, hparams, hfree | ⟨hann, -⟩⟩ := ok_of_openHead hglobal hΓ₁ (hplace.log.symm.trans (hlog.trans hcalm.log.symm))
    · exact ⟨_, .prototype hc hfree hparams⟩
    · cases hann

def enterBody (k : Nat) (n : NodeId) (d : Decl) (params : List Decl) (body : List Stmt) (a : Analysis) : Analysis :=
  let a := if body.any Stmt.isVarDecl then a.setSymbols a.symbols.recordBlank else a
  let a := placeHead k d params { a with queues.functions := a.queues.functions.push n }
  a.setBlock ⟨k + d.size + 1 + Decl.sizes params⟩ a.symbols.currentBlock

def leaveBody (k : Nat) (n : NodeId) (d : Decl) (sites : List ReturnSite) (a : Analysis) : Analysis :=
  a.exitBlock.apply n (a.exitBlock.functionVerdict ⟨k + 1⟩ d.name sites)

theorem analyze_function (d : Decl) (paren brace : Lexeme) (params : List Decl) (body : List Stmt) (k : Nat)
    (a : Analysis) :
    (Item.function d paren params brace body).analyze k a =
      let m := k + d.size + 1 + Decl.sizes params + 1
      let n : NodeId := ⟨m + Stmt.sizes body⟩
      leaveBody k n d (Stmt.returnsAll m body)
        (Stmt.analyzeAll m body (enterBody k n d params body ((a.place n .function).openHead k d params false))) := by
  rw [analyze]
  rfl

theorem log_enterBody (k : Nat) (n : NodeId) (d : Decl) (params : List Decl) (body : List Stmt) (a : Analysis) :
    (enterBody k n d params body a).log = a.log := by
  unfold enterBody
  dsimp only
  refine (calm_placeHead k d params _).log.trans ?_
  split <;> rfl

theorem describes_enterBody (hΓ : Γ.Describes none a.symbols) (k : Nat) (n : NodeId) (d : Decl) (params : List Decl)
    (body : List Stmt) : Γ.Describes none (enterBody k n d params body a).symbols := by
  unfold enterBody
  dsimp only
  show Γ.Describes none (placeHead k d params _).symbols
  rw [(calm_placeHead k d params _).symbols]
  split
  · exact hΓ.recordBlank
  · exact hΓ

theorem chain_enterBody {R : Nat → Nat → Analysis → Analysis → Prop} (hR : ChainsItem R) (k : Nat) (n : NodeId)
    (d : Decl) (params : List Decl) (body : List Stmt) (a : Analysis) :
    R k (k + d.size + 1 + Decl.sizes params + 1) a (enterBody k n d params body a) := by
  have hblank : R k (k + d.size + 1 + Decl.sizes params + 1) a
      (if body.any Stmt.isVarDecl then a.setSymbols a.symbols.recordBlank else a) := by
    split
    · exact hR.recordBlank a
    · exact hR.refl _ _ _
  refine hR.trans (hR.trans ?_ (hR.mono (chain_placeHead hR.toChainsExpr d params k _))) (hR.setBlock _ _)
  exact hR.trans hblank (hR.queueFunction _ _)

theorem enterBody_effect (k : Nat) (n : NodeId) (d : Decl) (params : List Decl) (body : List Stmt) (a : Analysis) :
    Effect k (k + d.size + 1 + Decl.sizes params + 1) a (enterBody k n d params body a) :=
  chain_enterBody effect_chains k n d params body a

theorem decoration_enterBody {m : NodeId} (hsymbol : (a.decoration m).symbol.isSome = true) (n : NodeId) (body : List Stmt)
    (hm : m.index < k + d.size + 1 + Decl.sizes params) :
    (enterBody k n d params body a).decoration m = a.decoration m := by
  unfold enterBody
  dsimp only
  rw [setBlock, decoration_decorate, if_neg (by rintro rfl; exact absurd hm (by simp))]
  have hblank : (if body.any Stmt.isVarDecl then a.setSymbols a.symbols.recordBlank else a).decoration m =
      a.decoration m := by split <;> rfl
  refine (decoration_placeHead_of_symbol ?_ k d params).trans hblank
  exact (congrArg (fun x => x.symbol.isSome) hblank).trans hsymbol

theorem functionVerdict_eq_nil_iff {name : NodeId} (hname : a.typeOf name = some d.type) (sites : List ReturnSite) :
    (a.functionVerdict name d.name sites).reports = [] ↔
      (d.type.isVoid = true ∨ sites ≠ []) ∧ a.ReturnsFit (some d.type) sites := by
  have hfit : a.ReturnsFit (some d.type) sites ↔ ∀ site ∈ sites, a.returnCause d.type site = none :=
    ⟨fun h => h _ rfl, fun h τ hτ => by cases hτ; exact h⟩
  rw [functionVerdict, hname, hfit]
  simp only [functionReports, List.append_eq_nil_iff, List.flatMap_eq_nil_iff, complaint_eq_nil_iff]
  refine and_congr_left fun _ => ?_
  cases d.type.isVoid <;> cases sites <;> simp

theorem agrees_body (hname : b.typeOf ⟨k + 1⟩ = some d.type) (hsymbol : (b.decoration ⟨k + 1⟩).symbol.isSome = true)
    (hparams : Decl.SettledAll b (k + d.size + 1) params) (hΓ : (Γ.enter (Decl.frame params)).Describes none b.symbols)
    {m : Nat} (hm : m = k + d.size + 1 + Decl.sizes params + 1) (hfresh : b.FreshOn m (m + Stmt.sizes body))
    (hn : m + Stmt.sizes body ≤ n.index) :
    let c := leaveBody k n d (Stmt.returnsAll m body) (Stmt.analyzeAll m body (enterBody k n d params body b))
    (∀ {us Γ'}, Stmt.LeadsAll (some d.type) us (Γ.enter (Decl.frame params)) body Γ' →
      Γ'.outer = Γ.inner :: Γ.outer ∧ Γ'.structs = Γ.structs → (d.type.isVoid = true ∨ Stmt.anyReturn body = true) →
      c.log = b.log ++ us.toArray ∧ Γ.Describes none c.symbols ∧ (us = [] → c.typeOf ⟨k + 1⟩ = some d.type ∧
        Decl.SettledAll c (k + d.size + 1) params ∧ Stmt.SettledAll c m body)) ∧
      (c.log = b.log → BodyOk Γ d params body) := by
  have hd := d.two_le_size
  have henter := enterBody_effect k n d params body b
  rw [← hm] at henter
  have hlog₁ := log_enterBody k n d params body b
  have hΓ₁ := describes_enterBody hΓ k n d params body
  have hname₁ := decoration_enterBody hsymbol n body
    (by omega : k + 1 < k + d.size + 1 + Decl.sizes params)
  have hparams₁ : Decl.SettledAll (enterBody k n d params body b) (k + d.size + 1) params :=
    hparams.mono hΓ.sound (henter.symbols hΓ.sound) fun i _ hi' hi => decoration_enterBody hi n body (by omega)
  have hfresh₁ := hfresh.effect henter (.inr (Nat.le_refl _))
  generalize enterBody k n d params body b = b₁ at *
  have hbody := Stmt.analyzeAll_effect body m b₁
  have hfwd {us : List Diagnostic} {Γ' : Env}
      (h : Stmt.LeadsAll (some d.type) us (Γ.enter (Decl.frame params)) body Γ') := h m b₁ hΓ₁ hfresh₁
  have hback := Stmt.judgedAll (some d.type) body _ m b₁ hΓ₁ hfresh₁
  rw [hlog₁] at hback
  have hleave : Effect n.index (n.index + 1) (Stmt.analyzeAll m body b₁)
      (leaveBody k n d (Stmt.returnsAll m body) (Stmt.analyzeAll m body b₁)) :=
    (effect_exitBlock _).trans (effect_apply _ _ (Nat.le_refl _) (Nat.lt_succ_self _))
  generalize Stmt.analyzeAll m body b₁ = b₂ at *
  have hname₂ : b₂.exitBlock.typeOf ⟨k + 1⟩ = some d.type := by
    show (b₂.decoration ⟨k + 1⟩).attrs.type = _
    rw [hbody.decor _ (.inl (by dsimp only; omega)), hname₁]
    exact hname
  have hverdict := functionVerdict_eq_nil_iff hname₂ (Stmt.returnsAll m body)
  have hexit : Effect 0 0 b₂ b₂.exitBlock := effect_exitBlock b₂
  rw [returnsFit_effect (Stmt.returnsAll_within body m) hexit (.inr (Nat.zero_le _)), Ne, Stmt.returnsAll_eq_nil_iff,
    Bool.not_eq_false] at hverdict
  refine ⟨fun h hkept hreturns => ?_, fun hlog => ?_⟩
  · have hpassed := hfwd h
    have hsound := hpassed.describes.sound
    refine ⟨?_, ?_, fun hus => ⟨?_, ?_, ?_⟩⟩
    · refine ((log_apply_eq_iff _ _ _).mpr (hverdict.mpr ⟨hreturns, hpassed.returns⟩)).trans ?_
      rw [← hlog₁]
      exact hpassed.log
    · have hclosed := hpassed.describes.exitBlock hkept.1
      rw [hkept.2] at hclosed
      rw [leaveBody, symbols_apply]
      exact hclosed
    · rw [typeOf, attrs, hleave.decor _ (.inl (by dsimp only; omega))]
      exact hname₂
    · refine hparams₁.mono hΓ₁.sound ((hbody.symbols hΓ₁.sound).trans (hleave.symbols hsound)) fun i _ hi' _ => ?_
      rw [hleave.decor i (.inl (by omega)), hbody.decor i (.inl (by omega))]
    · exact (hpassed.settled hus).effect hsound hleave (.inl hn)
  · have hquiet : b₂.log = b.log ∧ (leaveBody k n d (Stmt.returnsAll m body) b₂).log = b₂.log :=
      (henter.mono (Nat.le_refl _) (by omega) |>.trans (hbody.mono (by omega) (Nat.le_refl _))).quiet hleave hlog
    obtain ⟨hreturns, hfit⟩ := hverdict.mp ((log_apply_eq_iff _ _ _).mp hquiet.2)
    exact ⟨hback hquiet.1 hfit, hreturns⟩

/-- Before the head of a function is opened, its own node is placed. -/
theorem function_start (body : List Stmt) (hΓ : Γ.Describes none a.symbols) {m : Nat} (hm : m = k + d.size + 1 + Decl.sizes params + 1)
    (hfresh : a.FreshOn m (m + Stmt.sizes body)) :
    let a₁ := a.place ⟨m + Stmt.sizes body⟩ .function
    a.Calm a₁ ∧ Γ.Describes none a₁.symbols ∧ Effect k m a₁ (a₁.openHead k d params false) ∧
      (a₁.openHead k d params false).FreshOn m (m + Stmt.sizes body) := by
  intro a₁
  have hcalm := calm_place a ⟨m + Stmt.sizes body⟩ .function
  have hopen : Effect k m a₁ (a₁.openHead k d params false) :=
    (openFunction_effect d params (functionRoles false) rfl k a₁).mono (Nat.le_refl k) (by omega)
  exact ⟨hcalm, hcalm.symbols ▸ hΓ, hopen,
    (hfresh.place .function (n := ⟨m + Stmt.sizes body⟩) (.inr (Nat.le_refl _))).effect hopen (.inr (Nat.le_refl _))⟩

/-- The body of a well-formed function may be replaced by another one, which is analyzed in the same environment. -/
theorem leads_function {us : List Diagnostic} {Γ' Γ'' : Env} {paren brace : Lexeme} {body' : List Stmt}
    (h : ItemOk Γ (.function d paren params brace body) Γ')
    (hbody : Stmt.LeadsAll (some d.type) us (Γ'.enter (Decl.frame params)) body' Γ'')
    (hkept : Γ''.outer = Γ'.inner :: Γ'.outer ∧ Γ''.structs = Γ'.structs)
    (hreturns : d.type.isVoid = true ∨ Stmt.anyReturn body' = true) :
    (Item.function d paren params brace body').Leads us Γ Γ' := by
  intro k a hglobal hΓ hfresh
  rw [size_function] at hfresh
  rw [analyze_function]
  dsimp only
  simp only [Settled]
  generalize hm : k + d.size + 1 + Decl.sizes params + 1 = m
  obtain ⟨hcalm, hΓ₁, -, hfresh₂⟩ := function_start body' hΓ hm.symm hfresh.sub
  generalize a.place ⟨m + Stmt.sizes body'⟩ .function = a₁ at *
  have hhead : HeadOpened k d params a₁ (a₁.openHead k d params false) ∧
      (Γ'.enter (Decl.frame params)).Describes none (a₁.openHead k d params false).symbols := by
    cases h with
    | function hc hfree hparams _ => exact openHead_function hΓ₁ hc hfree hparams k
    | announced hc hmatch hparams _ => exact openHead_announced hglobal hΓ₁ hc hmatch hparams k
  obtain ⟨hhead, hΓ'⟩ := hhead
  obtain ⟨hlog, hdescribes, hsettled⟩ := (agrees_body (n := ⟨m + Stmt.sizes body'⟩) hhead.type hhead.symbol hhead.settled
    hΓ' hm.symm hfresh₂ (Nat.le_refl _)).1 hbody hkept hreturns
  exact ⟨by rw [hlog, hhead.log, hcalm.log], hdescribes, hsettled⟩

theorem bodyOk_of_function {Γ' : Env} {paren brace : Lexeme} (h : ItemOk Γ (.function d paren params brace body) Γ') :
    BodyOk Γ' d params body := by
  cases h with
  | function _ _ _ hbody => exact hbody
  | announced _ _ _ hbody => exact hbody

theorem agrees_function (d : Decl) (paren brace : Lexeme) (params : List Decl) (body : List Stmt) :
    (Item.function d paren params brace body).Agrees := by
  intro Γ k a hglobal hΓ hfresh
  refine ⟨fun Γ' h => ?_, fun hlog => ?_⟩
  · obtain ⟨⟨Γ'', hstmts⟩, hreturns⟩ := bodyOk_of_function h
    exact (leads_function h (Stmt.leadsAll body hstmts) hstmts.kept hreturns).quiet hglobal hΓ hfresh
  · rw [size_function] at hfresh
    rw [analyze_function] at hlog
    dsimp only at hlog
    generalize hm : k + d.size + 1 + Decl.sizes params + 1 = m at *
    obtain ⟨hcalm, hΓ₁, hopen, hfresh₂⟩ := function_start body hΓ hm.symm hfresh.sub
    generalize a.place ⟨m + Stmt.sizes body⟩ .function = a₁ at *
    have hafter : Effect k (m + Stmt.sizes body + 1) (a₁.openHead k d params false)
        (leaveBody k ⟨m + Stmt.sizes body⟩ d (Stmt.returnsAll m body) (Stmt.analyzeAll m body
          (enterBody k ⟨m + Stmt.sizes body⟩ d params body (a₁.openHead k d params false)))) := by
      have henter := enterBody_effect k ⟨m + Stmt.sizes body⟩ d params body (a₁.openHead k d params false)
      refine ((henter.mono).trans ((Stmt.analyzeAll_effect body m _).mono)).trans
        ((effect_exitBlock _).trans (effect_apply _ _))
    obtain ⟨hquiet, hquiet'⟩ := hopen.quiet hafter (hlog.trans hcalm.log.symm)
    -- Whichever environment the head leads to, the body goes on from there.
    have hrest {Γ' : Env} (hhead : HeadOpened k d params a₁ (a₁.openHead k d params false))
        (hΓ' : (Γ'.enter (Decl.frame params)).Describes none (a₁.openHead k d params false).symbols) :=
      (agrees_body (n := ⟨m + Stmt.sizes body⟩) hhead.type hhead.symbol hhead.settled hΓ' hm.symm hfresh₂
        (Nat.le_refl _)).2 hquiet'
    obtain ⟨hc, hparams, hfree | ⟨-, hmatch⟩⟩ := ok_of_openHead hglobal hΓ₁ hquiet
    · obtain ⟨hhead, hΓ'⟩ := openHead_function hΓ₁ hc hfree hparams k
      exact ⟨_, .function hc hfree hparams (hrest hhead hΓ')⟩
    · obtain ⟨hhead, hΓ'⟩ := openHead_announced hglobal hΓ₁ hc hmatch hparams k
      exact ⟨_, .announced hc hmatch hparams (hrest hhead hΓ')⟩

end Functions

theorem agrees (i : Item) : i.Agrees := by
  cases i with
  | struct mark tag fields => exact agrees_struct mark tag fields
  | function d paren params brace body => exact agrees_function d paren brace params body
  | prototype d paren params semicolon => exact agrees_prototype d paren params semicolon
  | stmt s => exact agrees_stmt s

def SettledAll (a : Analysis) (k : Nat) : List Item → Prop
  | [] => True
  | i :: is => i.Settled a k ∧ SettledAll a (k + i.size) is

theorem Settled.effect {a b : Analysis} {i : Item} {k j l : Nat} (h : i.Settled a k) (hsound : a.symbols.Sound)
    (heff : Effect j l a b) (hdisj : k + i.size ≤ j) : i.Settled b k := by
  cases i with
  | struct mark tag fields =>
    rw [size_struct] at hdisj
    rw [Settled] at h ⊢
    exact h.mono fun n _ hn _ => heff.decor n (.inl (by omega))
  | function d paren params brace body =>
    have hd := d.two_le_size
    rw [size_function] at hdisj
    rw [Settled] at h ⊢
    obtain ⟨htype, hparams, hbody⟩ := h
    refine ⟨?_, ?_, ?_⟩
    · rw [typeOf, attrs, heff.decor _ (.inl (by dsimp only; omega))]
      exact htype
    · exact hparams.mono hsound (heff.symbols hsound) fun n _ hn _ => heff.decor n (.inl (by omega))
    · exact hbody.effect hsound heff (.inl (by omega))
  | prototype d paren params semicolon => rw [Settled]; trivial
  | stmt s =>
    rw [size_stmt] at hdisj
    rw [Settled] at h ⊢
    exact Stmt.Settled.effect h hsound heff (.inl hdisj)

theorem outer_of_ok {Γ Γ' : Env} {i : Item} (h : ItemOk Γ i Γ') : Γ'.outer = Γ.outer := by
  cases h with
  | struct | prototype | function | announced => rfl
  | stmt h => exact h.kept.1

theorem agreesAll (is : List Item) {Γ : Env} {k : Nat} {a : Analysis} (hglobal : Γ.outer = [])
    (hΓ : Γ.Describes none a.symbols) (hfresh : a.FreshOn k (k + sizes is)) :
    (∀ Γ', ItemsOk Γ is Γ' → (analyzeAll k is a).log = a.log ∧ Γ'.Describes none (analyzeAll k is a).symbols ∧
      SettledAll (analyzeAll k is a) k is) ∧
      ((analyzeAll k is a).log = a.log → ∃ Γ', ItemsOk Γ is Γ') := by
  induction is generalizing Γ k a with
  | nil =>
    refine ⟨fun Γ' h => ?_, fun _ => ⟨_, .nil⟩⟩
    cases h
    exact ⟨rfl, hΓ, trivial⟩
  | cons i is ih =>
    rw [sizes] at hfresh
    rw [analyzeAll]
    obtain ⟨hfwd, hback⟩ := i.agrees Γ k a hglobal hΓ (hfresh.sub)
    have heff := i.analyze_effect k a
    have hpart : a.FreshOn (k + i.size) (k + i.size + sizes is) := hfresh.sub
    have hrest := hpart.effect heff (.inr (Nat.le_refl _))
    have heffAll := analyzeAll_effect is (k + i.size) (i.analyze k a)
    refine ⟨fun Γ'' h => ?_, fun hlog => ?_⟩
    · cases h with
      | cons h hs =>
        obtain ⟨hlog, hΓ', hsettled⟩ := hfwd _ h
        obtain ⟨hlog', hΓ'', hsettled'⟩ := (ih ((outer_of_ok h).trans hglobal) hΓ' hrest).1 _ hs
        exact ⟨hlog'.trans hlog, hΓ'', hsettled.effect hΓ'.sound heffAll (Nat.le_refl _), hsettled'⟩
    · obtain ⟨hquiet, hquiet'⟩ := heff.quiet heffAll hlog
      obtain ⟨Γ', h⟩ := hback hquiet
      obtain ⟨Γ'', hs⟩ := (ih ((outer_of_ok h).trans hglobal) (hfwd _ h).2.1 hrest).2 hquiet'
      exact ⟨Γ'', .cons h hs⟩

end Item

namespace Program

theorem describes_start (log : Log) : Env.Describes {} none (place .root .root { log }).symbols := by
  rw [symbols_place]
  exact .empty

theorem fresh_start (log : Log) (m : Nat) : (place .root .root { log }).FreshOn 1 m := fun n hn _ =>
  (effect_place (k := 0) (m := 1) { log } .root (Nat.zero_le _) Nat.zero_lt_one).decor n (.inr hn)

theorem log_analyze_eq_iff (items : List Item) (log : Log) :
    (Program.analyze items log).log = log ↔ WellFormed items := by
  obtain ⟨hfwd, hback⟩ := Item.agreesAll items rfl (describes_start log) (fresh_start log _)
  rw [log_place] at hfwd hback
  exact ⟨hback, fun ⟨_, h⟩ => (hfwd _ h).1⟩

theorem settled_of_quiet {items : List Item} {log : Log} (h : (Program.analyze items log).log = log) :
    Item.SettledAll (Program.analyze items log) 1 items ∧ (Program.analyze items log).symbols.Sound := by
  obtain ⟨hfwd, hback⟩ := Item.agreesAll items rfl (describes_start log) (fresh_start log _)
  rw [log_place] at hfwd hback
  obtain ⟨Γ, hok⟩ := hback h
  obtain ⟨-, hdescribes, hsettled⟩ := hfwd _ hok
  exact ⟨hsettled, hdescribes.sound⟩

end Program

/-- The analysis of a tree that was read adds no complaint exactly if the program that the tree shows is well formed. -/
theorem Analysis.quiet_iff_wellFormed {tokens : List Token} {n : NodeId} {t : Tree}
    (h : Tree.empty.parse tokens = (.ok n, t)) (log : Log) :
    t.Shows none 0 (Program.sapling (Program.ofTokens tokens).items) ∧
      ∃ a, ofTree t log = .ok a ∧ (a.log = log ↔ WellFormed (Program.ofTokens tokens).items) :=
  ⟨(Tree.parse_shows h).2.1, _, ofTree_parse h log, Program.log_analyze_eq_iff _ log⟩

/-- The program `int f(){return f();}` is well formed. -/
theorem Analysis.quiet_iff_wellFormed_recursion :
    let token (kind : TokenKind) (text : String) (column : Nat) : Token := ⟨kind, text, 0, 1, column⟩
    let tokens : List Token := [token (.scalar .int) "int" 0, token .name "f" 4, token (.punct '(') "(" 5,
      token (.punct ')') ")" 6, token (.punct '\x7b') "\x7b" 7, token (.keyword .returnWord) "return" 8,
      token .name "f" 15, token (.punct '(') "(" 16, token (.punct ')') ")" 17, token (.punct ';') ";" 18,
      token (.punct '\x7d') "\x7d" 19, .atEnd ⟨0, 1, 20⟩]
    ∃ t, Tree.empty.parse tokens = (.ok .root, t) ∧ ∃ a, ofTree t #[] = .ok a ∧ a.log = #[] ∧
      WellFormed (Program.ofTokens tokens).items := by
  intro token tokens
  have hread : Tree.empty.parse tokens = (.ok .root, (Tree.empty.parse tokens).2) := Prod.ext (by decide +kernel) rfl
  have hquiet : (ofTree (Tree.empty.parse tokens).2 #[]).toOption.map (·.log) = some #[] := by decide +kernel
  obtain ⟨-, a, ha, hiff⟩ := Analysis.quiet_iff_wellFormed hread #[]
  rw [ha] at hquiet
  have hlog : a.log = #[] := by simpa [Except.toOption] using hquiet
  exact ⟨_, hread, a, ha, hlog, hiff.mp hlog⟩

end OcCompiler
