import OcCompiler.Proofs.Definitions

/-! The analysis of a statement agrees with the judgement. The judgement also looks at return statements, which the
    analysis comes to only when the function around is complete. What a statement makes of its parts is said of parts that
    were complained about as well: it has no complaint of its own. -/

namespace OcCompiler

open Analysis

/-! ### What statements leave alone -/

mutual

theorem StmtOk.kept {ρ : Option ValueType} {Γ Γ' : Env} (s : Stmt) (h : StmtOk ρ Γ s Γ') :
    Γ'.outer = Γ.outer ∧ Γ'.structs = Γ.structs := by
  cases h with
  | block | empty | varDecl | returnValue | returnVoid | expr => exact ⟨rfl, rfl⟩
  | whileLoop _ hbody => exact StmtOk.kept _ hbody
  | ifThen _ hyes => exact StmtOk.kept _ hyes
  | ifElse _ hyes hno =>
    obtain ⟨hyes, hyes'⟩ := StmtOk.kept _ hyes
    obtain ⟨hno, hno'⟩ := StmtOk.kept _ hno
    exact ⟨hno.trans hyes, hno'.trans hyes'⟩

theorem StmtsOk.kept {ρ : Option ValueType} {Γ Γ' : Env} (ss : List Stmt) (h : StmtsOk ρ Γ ss Γ') :
    Γ'.outer = Γ.outer ∧ Γ'.structs = Γ.structs := by
  match ss, h with
  | [], .nil => exact ⟨rfl, rfl⟩
  | s :: ss, .cons h hs =>
    obtain ⟨h, h'⟩ := StmtOk.kept s h
    obtain ⟨hs, hs'⟩ := StmtsOk.kept ss hs
    exact ⟨hs.trans h, hs'.trans h'⟩

end

namespace Analysis

def ReturnsFit (ρ : Option ValueType) (a : Analysis) (sites : List ReturnSite) : Prop :=
  ∀ τ, ρ = some τ → ∀ site ∈ sites, a.returnCause τ site = none

def SitesWithin (k m : Nat) (sites : List ReturnSite) : Prop :=
  ∀ site ∈ sites, ∀ v, site.value = some v → k ≤ v.index ∧ v.index < m

variable {ρ : Option ValueType} {a b : Analysis} {k m : Nat} {sites sites' : List ReturnSite}

@[simp] theorem returnsFit_nil : ReturnsFit ρ a [] := fun _ _ _ h => by cases h

theorem returnsFit_append : ReturnsFit ρ a (sites ++ sites') ↔ ReturnsFit ρ a sites ∧ ReturnsFit ρ a sites' := by
  simp only [ReturnsFit, List.mem_append, or_imp, forall_and]

theorem returnsFit_effect {i j : Nat} (hsites : SitesWithin k m sites) (heff : Effect i j a b)
    (hdisj : m ≤ i ∨ j ≤ k) : ReturnsFit ρ b sites ↔ ReturnsFit ρ a sites := by
  refine forall_congr' fun τ => imp_congr_right fun _ => forall_congr' fun site => imp_congr_right fun hsite => ?_
  have hcause : b.returnCause τ site = a.returnCause τ site := by
    unfold returnCause
    split
    · rfl
    · rename_i v hv
      obtain ⟨hk, hm⟩ := hsites site hsite v hv
      rw [typeOf, attrs, heff.decor v (by omega)]
      rfl
  rw [hcause]

theorem SitesWithin.mono {k' m' : Nat} (h : SitesWithin k m sites) (hk : k' ≤ k := by omega) (hm : m ≤ m' := by omega) :
    SitesWithin k' m' sites := fun site hsite v hv =>
  ⟨Nat.le_trans hk (h site hsite v hv).1, Nat.lt_of_lt_of_le (h site hsite v hv).2 hm⟩

theorem sitesWithin_append (h : SitesWithin k m sites) (h' : SitesWithin k m sites') :
    SitesWithin k m (sites ++ sites') := fun site hsite =>
  (List.mem_append.mp hsite).elim (h site) (h' site)

end Analysis

theorem Decl.calm_place (d : Decl) (k : Nat) (tag : Tag) (a : Analysis) : a.Calm (d.place k tag a) := by
  unfold Decl.place
  split
  · exact (Analysis.calm_place ..).trans ((Analysis.calm_place ..).trans (Analysis.calm_place ..))
  · exact (Analysis.calm_place ..).trans (Analysis.calm_place ..)

namespace Stmt

mutual

theorem returns_within (s : Stmt) (k : Nat) : SitesWithin k (k + s.size) (s.returns k) := by
  cases s with
  | block brace body =>
    rw [returns, size_block]
    exact (returnsAll_within body (k + 1)).mono
  | whileLoop mark cond body =>
    rw [returns, size_whileLoop]
    exact (returns_within body (k + 1 + cond.size)).mono
  | ifThen mark cond yes =>
    rw [returns, size_ifThen]
    exact (returns_within yes (k + 1 + cond.size)).mono
  | ifElse mark cond yes no =>
    rw [returns, size_ifElse]
    exact sitesWithin_append ((returns_within yes (k + 1 + cond.size)).mono)
      ((returns_within no (k + 1 + cond.size + yes.size)).mono)
  | returnValue mark value =>
    rw [returns, size_returnValue]
    intro site hsite v hv
    rw [List.mem_singleton] at hsite
    subst hsite
    cases hv
    have hbounds := value.topNode_bounds (k + 1)
    omega
  | returnVoid mark =>
    rw [returns]
    intro site hsite v hv
    rw [List.mem_singleton] at hsite
    subst hsite
    cases hv
  | empty | varDecl | expr =>
    rw [returns]
    intro site hsite
    cases hsite

theorem returnsAll_within (ss : List Stmt) (k : Nat) : SitesWithin k (k + sizes ss) (returnsAll k ss) := by
  match ss with
  | [] =>
    rw [returnsAll]
    intro site hsite
    cases hsite
  | s :: ss =>
    rw [returnsAll, sizes]
    exact sitesWithin_append ((returns_within s k).mono)
      ((returnsAll_within ss (k + s.size)).mono)

end

mutual

theorem returns_eq_nil_iff (s : Stmt) (k : Nat) : s.returns k = [] ↔ s.hasReturn = false := by
  cases s with
  | block brace body =>
    rw [returns, hasReturn]
    exact returnsAll_eq_nil_iff body (k + 1)
  | whileLoop mark cond body | ifThen mark cond body =>
    rw [returns, hasReturn]
    exact returns_eq_nil_iff body _
  | ifElse mark cond yes no =>
    rw [returns, hasReturn, List.append_eq_nil_iff, Bool.or_eq_false_iff]
    exact and_congr (returns_eq_nil_iff yes _) (returns_eq_nil_iff no _)
  | returnValue | returnVoid => simp [returns, hasReturn]
  | empty | varDecl | expr => simp [returns, hasReturn]

theorem returnsAll_eq_nil_iff (ss : List Stmt) (k : Nat) : returnsAll k ss = [] ↔ anyReturn ss = false := by
  match ss with
  | [] => simp [returnsAll, anyReturn]
  | s :: ss =>
    rw [returnsAll, anyReturn, List.append_eq_nil_iff, Bool.or_eq_false_iff]
    exact and_congr (returns_eq_nil_iff s k) (returnsAll_eq_nil_iff ss _)

end

/-- What a construct comes to with these complaints: the table describes the next environment, the nodes are settled if
    there is no complaint, and the return statements are in order. -/
structure Passed (ρ : Option ValueType) (us : List Diagnostic) (a b : Analysis) (Γ' : Env) (settled : Prop)
    (sites : List ReturnSite) : Prop where
  log : b.log = a.log ++ us.toArray
  describes : Γ'.Describes none b.symbols
  settled : us = [] → settled
  returns : b.ReturnsFit ρ sites

def Leads (ρ : Option ValueType) (us : List Diagnostic) (Γ : Env) (s : Stmt) (Γ' : Env) : Prop :=
  ∀ (k : Nat) (a : Analysis), Γ.Describes none a.symbols → a.FreshOn k (k + s.size) →
    Passed ρ us a (s.analyze k a) Γ' (s.Settled (s.analyze k a) k) (s.returns k)

def LeadsAll (ρ : Option ValueType) (us : List Diagnostic) (Γ : Env) (ss : List Stmt) (Γ' : Env) : Prop :=
  ∀ (k : Nat) (a : Analysis), Γ.Describes none a.symbols → a.FreshOn k (k + sizes ss) →
    Passed ρ us a (analyzeAll k ss a) Γ' (SettledAll (analyzeAll k ss a) k ss) (returnsAll k ss)

section Frame

variable {s : Stmt} {ss : List Stmt} {a b : Analysis} {k : Nat}

theorem Settled.effect {i j : Nat} (h : s.Settled a k) (hsound : a.symbols.Sound) (heff : Effect i j a b)
    (hdisj : k + s.size ≤ i ∨ j ≤ k) : s.Settled b k :=
  h.mono hsound (heff.symbols hsound) s fun n hn hn' => heff.decor n (by omega)

theorem SettledAll.effect {i j : Nat} (h : SettledAll a k ss) (hsound : a.symbols.Sound) (heff : Effect i j a b)
    (hdisj : k + sizes ss ≤ i ∨ j ≤ k) : SettledAll b k ss :=
  h.mono hsound (heff.symbols hsound) ss fun n hn hn' => heff.decor n (by omega)

end Frame

/-! ### Loops and conditionals -/

/-- A statement that consists of a condition and further statements. -/
structure Guarded (s : Stmt) (tag : Tag) (cond : Expr) (mark : Lexeme) (ss : List Stmt) : Prop where
  size : s.size = 1 + cond.size + sizes ss
  run : ∀ k a, s.analyze k a =
    let c := analyzeAll (k + 1 + cond.size) ss (cond.analyze (k + 1) (a.place ⟨k⟩ tag))
    c.apply ⟨k⟩ (c.operandVerdict .bool (cond.topNode (k + 1)) mark)
  settled : ∀ a k, s.Settled a k ↔ cond.Settled a (k + 1) ∧ SettledAll a (k + 1 + cond.size) ss
  returns : ∀ k, s.returns k = returnsAll (k + 1 + cond.size) ss

section Guarded

variable {ρ : Option ValueType} {us vs : List Diagnostic} {Γ Γ' : Env} {s : Stmt} {tag : Tag} {cond : Expr} {mark : Lexeme}
variable {ss : List Stmt} {a : Analysis} {k : Nat}

theorem guarded_whileLoop (mark : Lexeme) (cond : Expr) (body : Stmt) :
    Guarded (.whileLoop mark cond body) .whileLoop cond mark [body] where
  size := by simp [sizes]
  run k a := by simp only [analyze, analyzeAll]
  settled a k := by simp [Settled, SettledAll]
  returns k := by simp [Stmt.returns, returnsAll]

theorem guarded_ifThen (mark : Lexeme) (cond : Expr) (yes : Stmt) :
    Guarded (.ifThen mark cond yes) .ifThen cond mark [yes] where
  size := by simp [sizes]
  run k a := by simp only [analyze, analyzeAll]
  settled a k := by simp [Settled, SettledAll]
  returns k := by simp [Stmt.returns, returnsAll]

theorem guarded_ifElse (mark : Lexeme) (cond : Expr) (yes no : Stmt) :
    Guarded (.ifElse mark cond yes no) .ifElse cond mark [yes, no] where
  size := by simp [sizes]; omega
  run k a := by simp only [analyze, analyzeAll]
  settled a k := by simp [Settled, SettledAll]
  returns k := by simp [Stmt.returns, returnsAll]

/-- The statement is judged by the type of its condition, which the statements in it do not change. -/
theorem Guarded.run_eq (hg : Guarded s tag cond mark ss) (hΓ : Γ.Describes none a.symbols)
    (hfresh : a.FreshOn k (k + s.size)) :
    ∃ b, cond.Found Γ (k + 1) a b ∧ Effect k (k + 1 + cond.size) a b ∧
      b.FreshOn (k + 1 + cond.size) (k + 1 + cond.size + sizes ss) ∧
      cond.Known Γ (k + 1) (analyzeAll (k + 1 + cond.size) ss b) ∧
      s.analyze k a =
        (analyzeAll (k + 1 + cond.size) ss b).apply ⟨k⟩ (.operand .bool (cond.finding Γ).type mark) := by
  rw [hg.size] at hfresh
  have hcalm := calm_place a ⟨k⟩ tag
  have hplace : Effect k (k + 1 + cond.size) a (a.place ⟨k⟩ tag) := effect_place a tag
  have hcond : a.FreshOn (k + 1) (k + 1 + cond.size) := hfresh.sub
  have hrest : a.FreshOn (k + 1 + cond.size) (k + 1 + cond.size + sizes ss) := hfresh.sub
  have hfound := (cond.finds Γ (k + 1) _ (hcalm.symbols ▸ hΓ)
    (hcond.place tag (n := ⟨k⟩) (.inl (Nat.lt_succ_self _)))).of_calm hcalm
  have heff := hplace.trans (cond.analyze_effect (k + 1) _).mono
  rw [hg.run]
  generalize cond.analyze (k + 1) (a.place ⟨k⟩ tag) = b at *
  have hknown := hfound.toKnown.effect hfound.describes.sound (analyzeAll_effect ss (k + 1 + cond.size) b)
    (.inl (Nat.le_refl _))
  refine ⟨b, hfound, heff, hrest.effect heff (.inr (Nat.le_refl _)), hknown, ?_⟩
  dsimp only
  rw [operandVerdict, hknown.type]

theorem Guarded.leads (hg : Guarded s tag cond mark ss) (hcond : cond.Yields Γ us .bool) (hss : LeadsAll ρ vs Γ ss Γ') :
    Leads ρ (us ++ vs) Γ s Γ' := by
  intro k a hΓ hfresh
  obtain ⟨b, hb, -, hfresh', hknown, hrun⟩ := hg.run_eq hΓ hfresh
  have hp := hss _ b hb.describes hfresh'
  rw [hrun, hg.settled, hg.returns]
  generalize analyzeAll (k + 1 + cond.size) ss b = c at *
  have hcalm := calm_apply c ⟨k⟩ (hcond.operand mark)
  have happly : Effect k (k + 1) c (c.apply ⟨k⟩ (.operand .bool (cond.finding Γ).type mark)) := effect_apply c _
  refine ⟨?_, hcalm.symbols ▸ hp.describes, fun hnone => ⟨?_, ?_⟩, ?_⟩
  · rw [hcalm.log, hp.log, hb.log, hcond.1]
    simp
  · obtain ⟨τ, l, ht⟩ := cond.exists_hasType (hcond.1.trans (List.append_eq_nil_iff.mp hnone).1)
    exact (hknown.apply hp.describes.sound (.inl (Nat.lt_succ_self _))).settled ht
  · exact (hp.settled (List.append_eq_nil_iff.mp hnone).2).effect hp.describes.sound happly (.inr (by omega))
  · exact (returnsFit_effect (returnsAll_within ss _) happly (.inr (by omega))).mpr hp.returns

end Guarded

/-! ### From well-formed statements to silence -/

section Forward

variable {ρ : Option ValueType} {us vs : List Diagnostic} {Γ Γ' Γ'' : Env} {s : Stmt} {ss : List Stmt} {e : Expr}
  {τ : ValueType}

theorem leadsAll_nil : LeadsAll ρ [] Γ [] Γ := fun _ _ hΓ _ => ⟨by simp [analyzeAll], hΓ, fun _ => trivial, returnsFit_nil⟩

theorem leadsAll_cons (h : Leads ρ us Γ s Γ') (hs : LeadsAll ρ vs Γ' ss Γ'') : LeadsAll ρ (us ++ vs) Γ (s :: ss) Γ'' := by
  intro k a hΓ hfresh
  rw [sizes] at hfresh
  rw [analyzeAll, returnsAll, SettledAll]
  have hp := h k a hΓ hfresh.sub
  have hpart : a.FreshOn (k + s.size) (k + s.size + sizes ss) := hfresh.sub
  have hrest := hpart.effect (s.analyze_effect k a) (.inr (Nat.le_refl _))
  generalize s.analyze k a = b at *
  have hps := hs _ b hp.describes hrest
  have heff := analyzeAll_effect ss (k + s.size) b
  refine ⟨?_, hps.describes, fun hnone => ?_, returnsFit_append.mpr ⟨?_, hps.returns⟩⟩
  · rw [hps.log, hp.log]
    simp
  · obtain ⟨hus, hvs⟩ := List.append_eq_nil_iff.mp hnone
    exact ⟨(hp.settled hus).effect hp.describes.sound heff (.inl (Nat.le_refl _)), hps.settled hvs⟩
  · exact (returnsFit_effect (s.returns_within k) heff (.inl (Nat.le_refl _))).mpr hp.returns

theorem leads_block (brace : Lexeme) (h : LeadsAll ρ us (Γ.enter []) ss Γ') (houter : Γ'.outer = Γ.inner :: Γ.outer)
    (hstructs : Γ'.structs = Γ.structs) : Leads ρ us Γ (.block brace ss) Γ := by
  intro k a hΓ hfresh
  rw [size_block] at hfresh
  rw [returns, Settled]
  let a₁ : Analysis := a.enterBlock.2.setBlock ⟨k⟩ a.enterBlock.1
  have hopen : Effect k (k + 1) a a₁ :=
    (effect_enterBlock a).trans (effect_setBlock _ _ (Nat.le_refl _) (Nat.lt_succ_self _))
  have hpart : a.FreshOn (k + 1) (k + 1 + sizes ss) := hfresh.sub
  have hΓ₁ : (Γ.enter []).Describes none a₁.symbols := hΓ.enterBlock
  have hp := h (k + 1) a₁ hΓ₁ (hpart.effect hopen (.inr (Nat.le_refl _)))
  have hrun : (Stmt.block brace ss).analyze k a = (analyzeAll (k + 1) ss a₁).exitBlock := by
    rw [analyze]
  rw [hrun]
  generalize analyzeAll (k + 1) ss a₁ = b at *
  have hexit : Effect 0 0 b b.exitBlock := effect_exitBlock b
  refine ⟨hp.log, ?_, fun hus => (hp.settled hus).effect hp.describes.sound hexit (.inr (Nat.zero_le _)), ?_⟩
  · have hclosed := hp.describes.exitBlock houter
    rw [hstructs] at hclosed
    exact hclosed
  · exact (returnsFit_effect (returnsAll_within ss _) hexit (.inr (Nat.zero_le _))).mpr hp.returns

theorem leads_empty (semicolon : Lexeme) : Leads ρ [] Γ (.empty semicolon) Γ := by
  intro k a hΓ hfresh
  rw [analyze, returns]
  exact ⟨by simp, by rw [symbols_place]; exact hΓ, fun _ => by rw [Settled]; trivial, returnsFit_nil⟩

theorem leads_returnVoid (mark : Lexeme) (hvoid : ∀ τ, ρ = some τ → τ.isVoid = true) :
    Leads ρ [] Γ (.returnVoid mark) Γ := by
  intro k a hΓ hfresh
  rw [analyze, returns]
  refine ⟨by simp, by rw [symbols_place]; exact hΓ, fun _ => by rw [Settled]; trivial, ?_⟩
  simpa only [ReturnsFit, List.mem_singleton, forall_eq, returnCause, Typing.returnedNothing_eq_none_iff] using hvoid

theorem leads_returnValue (mark : Lexeme) (h : e.Yields Γ us τ)
    (hfits : ∀ σ, ρ = some σ → σ.isVoid = false ∧ σ.accepts τ = true) : Leads ρ us Γ (.returnValue mark e) Γ := by
  intro k a hΓ hfresh
  rw [size_returnValue] at hfresh
  rw [analyze, returns, Settled]
  have hcalm := calm_place a ⟨k⟩ .returnValue
  have hpart : a.FreshOn (k + 1) (k + 1 + e.size) := hfresh.sub
  have hfound := (e.finds Γ (k + 1) _ (hcalm.symbols ▸ hΓ)
    (hpart.place .returnValue (n := ⟨k⟩) (.inl (Nat.lt_succ_self _)))).of_calm hcalm
  generalize e.analyze (k + 1) (a.place ⟨k⟩ .returnValue) = b at *
  refine ⟨by rw [hfound.log, h.1], hfound.describes, fun hus => ?_, fun σ hσ site hsite => ?_⟩
  · obtain ⟨τ, l, ht⟩ := e.exists_hasType (h.1.trans hus)
    exact hfound.settled ht
  · rw [List.mem_singleton.mp hsite]
    show Typing.returned σ (b.typeOf (e.topNode (k + 1))) = none
    rw [hfound.type]
    exact h.silent (Typing.returned σ) (Typing.returned_eq_none_iff.mpr (hfits σ hσ))
      (by rw [Typing.returned, (hfits σ hσ).1]; rfl)

theorem leads_expr (h : e.Yields Γ us τ) : Leads ρ us Γ (.expr e) Γ := by
  intro k a hΓ hfresh
  rw [analyze, returns, Settled]
  have hfound := e.finds Γ k a hΓ hfresh
  refine ⟨by rw [hfound.log, h.1], hfound.describes, fun hus => ?_, returnsFit_nil⟩
  obtain ⟨τ, l, ht⟩ := e.exists_hasType (h.1.trans hus)
  exact hfound.settled ht

/-- Where the nodes of a variable's declaration are placed, the first value is analyzed before the name is known. -/
theorem varDecl_init {a : Analysis} {k : Nat} {d : Decl} {init : Expr} (hΓ : Γ.Describes none a.symbols)
    (hfresh : a.FreshOn k (k + (d.size + 1 + init.size))) :
    let b := init.analyze (k + d.size + 1) (d.place k .declName (a.place ⟨k + d.size⟩ .varDecl))
    init.Found Γ (k + d.size + 1) a b ∧ Effect k (k + d.size + 1 + init.size) a b := by
  have hcalm := (calm_place a ⟨k + d.size⟩ .varDecl).trans (d.calm_place k .declName _)
  have hpart : a.FreshOn (k + d.size + 1) (k + d.size + 1 + init.size) := hfresh.sub
  have hplace : Effect k (k + d.size + 1) a (d.place k .declName (a.place ⟨k + d.size⟩ .varDecl)) :=
    (effect_place a .varDecl).trans ((d.place_effect k .declName _).mono)
  exact ⟨(init.finds Γ (k + d.size + 1) _ (hcalm.symbols ▸ hΓ) (hpart.effect hplace (.inr (Nat.le_refl _)))).of_calm hcalm,
    hplace.mono.trans (init.analyze_effect _ _).mono⟩

/-- The variable is defined after its first value, which keeps its type. -/
theorem varDecl_define {b : Analysis} {k : Nat} {d : Decl} {init : Expr} (hΓ : Γ.Describes none b.symbols)
    (hinit : init.Known Γ (k + d.size + 1) b) (hc : Γ.Complete d.base.base) (hfree : Γ.inner.lookup d.name.text = none) :
    let c := (b.define (d.declaration k) { var := true, lvalue := true }).2.queueGlobal ⟨k + d.size⟩
    c.log = b.log ∧ (Γ.bind d.name.text (.var d.type)).Describes none c.symbols ∧ d.Settled c k ∧
      init.Known Γ (k + d.size + 1) c := by
  have hvariable : Roles.IsVariable { var := true, lvalue := true } := ⟨rfl, rfl, rfl, rfl, rfl⟩
  have hdefine : Effect k (k + d.size) b (b.define (d.declaration k) { var := true, lvalue := true }).2 :=
    effect_define b (.inr rfl) (d.declaration_within)
  obtain ⟨-, hdefined, -, hΓ', hnames⟩ := define_variable hΓ (by simp) hvariable hc (fun h => by cases h) hfree k
  have hknown := hinit.effect hΓ.sound hdefine (.inr (by omega))
  generalize (b.define (d.declaration k) { var := true, lvalue := true }).2 = c at *
  have hcalm : c.Calm (c.queueGlobal ⟨k + d.size⟩) ∧ ∀ m, (c.queueGlobal ⟨k + d.size⟩).decoration m = c.decoration m := by
    unfold queueGlobal
    split <;> exact ⟨⟨rfl, rfl⟩, fun _ => rfl⟩
  have hsettled : d.Settled c k := ⟨hnames, hdefined.typeOf⟩
  refine ⟨by rw [hcalm.1.log, hdefined.log], by rw [hcalm.1.symbols]; exact hΓ', ?_, ?_⟩
  · exact hsettled.mono hΓ'.sound (by rw [hcalm.1.symbols]; exact hΓ'.sound.refl) (hcalm.2 _)
  · exact hknown.effect hΓ'.sound (effect_queueGlobal (k := 0) (m := 0) _ c) (.inr (Nat.zero_le _))

theorem leads_varDecl {d : Decl} (equals : Lexeme) (h : e.Yields Γ us τ) (hc : Γ.Complete d.base.base)
    (hfree : Γ.inner.lookup d.name.text = none) (hvoid : d.type.isVoid = false) (hfits : d.type.accepts τ = true) :
    Leads ρ us Γ (.varDecl d equals e) (Γ.bind d.name.text (.var d.type)) := by
  intro k a hΓ hfresh
  rw [size_varDecl] at hfresh
  rw [analyze, returns, Settled]
  obtain ⟨hfound, -⟩ := varDecl_init hΓ hfresh
  obtain ⟨hlog, hΓ', hsettled, hknown⟩ := varDecl_define hfound.describes hfound.toKnown hc hfree
  generalize Analysis.queueGlobal ⟨k + d.size⟩ _ = c at *
  have hv : (c.variableVerdict ⟨k + 1⟩ (e.topNode (k + d.size + 1)) d.name equals).reports = [] := by
    rw [variableVerdict, hsettled.2, hknown.type]
    exact complaint_eq_nil_iff.mpr (h.silent (Typing.variableInit d.type)
      (Typing.variableInit_eq_none_iff.mpr ⟨hvoid, hfits⟩) (by rw [Typing.variableInit, hvoid]; rfl))
  have hcalm := calm_apply c ⟨k + d.size⟩ hv
  refine ⟨by rw [hcalm.log, hlog, hfound.log, h.1], hcalm.symbols ▸ hΓ', fun hus => ⟨?_, ?_⟩, returnsFit_nil⟩
  · refine hsettled.mono hΓ'.sound (by rw [hcalm.symbols]; exact hΓ'.sound.refl) (decoration_apply c _ _ _ ?_)
    have hd := d.two_le_size
    simp only [ne_eq, NodeId.mk.injEq]
    omega
  · obtain ⟨τ, l, ht⟩ := e.exists_hasType (h.1.trans hus)
    exact (hknown.apply hΓ'.sound (.inl (Nat.lt_succ_self _))).settled ht

end Forward

mutual

theorem leads {ρ : Option ValueType} {Γ Γ' : Env} (s : Stmt) (h : StmtOk ρ Γ s Γ') : Leads ρ [] Γ s Γ' := by
  cases s with
  | block brace body =>
    cases h with
    | block h => exact leads_block brace (leadsAll body h) h.kept.1 h.kept.2
  | empty semicolon =>
    cases h
    exact leads_empty semicolon
  | varDecl d equals init =>
    cases h with
    | varDecl hinit hc hfree hvoid hfits => exact leads_varDecl equals (.of_hasType hinit) hc hfree hvoid hfits
  | whileLoop mark cond body =>
    cases h with
    | whileLoop hcond hbody =>
      exact (guarded_whileLoop mark cond body).leads (.of_hasType hcond) (leadsAll_cons (leads body hbody) leadsAll_nil)
  | ifThen mark cond yes =>
    cases h with
    | ifThen hcond hyes =>
      exact (guarded_ifThen mark cond yes).leads (.of_hasType hcond) (leadsAll_cons (leads yes hyes) leadsAll_nil)
  | ifElse mark cond yes no =>
    cases h with
    | ifElse hcond hyes hno =>
      exact (guarded_ifElse mark cond yes no).leads (.of_hasType hcond)
        (leadsAll_cons (leads yes hyes) (leadsAll_cons (leads no hno) leadsAll_nil))
  | returnValue mark value =>
    cases h with
    | returnValue hvalue hfits => exact leads_returnValue mark (.of_hasType hvalue) hfits
  | returnVoid mark =>
    cases h with
    | returnVoid hvoid => exact leads_returnVoid mark hvoid
  | expr e =>
    cases h with
    | expr h => exact leads_expr (.of_hasType h)

theorem leadsAll {ρ : Option ValueType} {Γ Γ' : Env} (ss : List Stmt) (h : StmtsOk ρ Γ ss Γ') : LeadsAll ρ [] Γ ss Γ' := by
  match ss, h with
  | [], .nil => exact leadsAll_nil
  | s :: ss, .cons h hs => exact leadsAll_cons (leads s h) (leadsAll ss hs)

end

/-! ### From silence to well-formed statements -/

def Judged (ρ : Option ValueType) (s : Stmt) : Prop :=
  ∀ (Γ : Env) (k : Nat) (a : Analysis), Γ.Describes none a.symbols → a.FreshOn k (k + s.size) →
    (s.analyze k a).log = a.log → (s.analyze k a).ReturnsFit ρ (s.returns k) → ∃ Γ', StmtOk ρ Γ s Γ'

def JudgedAll (ρ : Option ValueType) (ss : List Stmt) : Prop :=
  ∀ (Γ : Env) (k : Nat) (a : Analysis), Γ.Describes none a.symbols → a.FreshOn k (k + sizes ss) →
    (analyzeAll k ss a).log = a.log → (analyzeAll k ss a).ReturnsFit ρ (returnsAll k ss) → ∃ Γ', StmtsOk ρ Γ ss Γ'

section Backward

variable {ρ : Option ValueType} {s : Stmt} {ss : List Stmt}

theorem judgedAll_nil : JudgedAll ρ [] := fun Γ _ _ _ _ _ _ => ⟨Γ, .nil⟩

theorem judgedAll_cons (hs : s.Judged ρ) (hss : JudgedAll ρ ss) : JudgedAll ρ (s :: ss) := by
  intro Γ k a hΓ hfresh hlog hreturns
  rw [sizes] at hfresh
  rw [analyzeAll] at hlog hreturns
  rw [returnsAll, returnsFit_append] at hreturns
  have heff := s.analyze_effect k a
  have heffAll := analyzeAll_effect ss (k + s.size) (s.analyze k a)
  obtain ⟨hquiet, hquiet'⟩ := heff.quiet heffAll hlog
  -- What is said of the first statement's returns does not change later.
  obtain ⟨Γ', h⟩ := hs Γ k a hΓ hfresh.sub hquiet
    ((returnsFit_effect (s.returns_within k) heffAll (.inl (Nat.le_refl _))).mp hreturns.1)
  have hpart : a.FreshOn (k + s.size) (k + s.size + sizes ss) := hfresh.sub
  obtain ⟨Γ'', hs⟩ := hss _ _ _ (leads s h k a hΓ hfresh.sub).describes (hpart.effect heff (.inr (Nat.le_refl _))) hquiet'
    hreturns.2
  exact ⟨Γ'', .cons h hs⟩

theorem Guarded.judged {tag : Tag} {cond : Expr} {mark : Lexeme} (hg : Guarded s tag cond mark ss) (hss : JudgedAll ρ ss)
    (hok : ∀ {Γ Γ' l}, HasType Γ cond .bool l → StmtsOk ρ Γ ss Γ' → StmtOk ρ Γ s Γ') : s.Judged ρ := by
  intro Γ k a hΓ hfresh hlog hreturns
  obtain ⟨b, hb, heff, hfresh', -, hrun⟩ := hg.run_eq hΓ hfresh
  rw [hrun] at hlog hreturns
  rw [hg.returns] at hreturns
  have heffAll := analyzeAll_effect ss (k + 1 + cond.size) b
  have hboth : Effect k (k + 1 + cond.size + sizes ss) a _ := heff.mono.trans heffAll.mono
  obtain ⟨hquiet, hv⟩ := hboth.quiet_apply hlog
  obtain ⟨hquiet, hquiet'⟩ := heff.quiet heffAll hquiet
  obtain ⟨τ, l, ht⟩ := cond.exists_hasType (hb.quiet_iff.mp hquiet)
  rw [ht.finding_eq, Verdict.operand, complaint_eq_nil_iff, Typing.exactly_eq_none_iff] at hv
  obtain rfl : τ = .bool := by simpa using hv
  obtain ⟨Γ', hs⟩ := hss Γ _ b hb.describes hfresh' hquiet' ((returnsFit_effect (k := k + 1 + cond.size)
    (returnsAll_within ss _) (effect_apply (k := k) (m := k + 1) _ _) (.inr (by omega))).mp hreturns)
  exact ⟨Γ', hok ht hs⟩

theorem judged_block (brace : Lexeme) (hbody : JudgedAll ρ ss) : (Stmt.block brace ss).Judged ρ := by
  intro Γ k a hΓ hfresh hlog hreturns
  rw [size_block] at hfresh
  rw [returns] at hreturns
  let a₁ : Analysis := a.enterBlock.2.setBlock ⟨k⟩ a.enterBlock.1
  have hopen : Effect k (k + 1) a a₁ :=
    (effect_enterBlock a).trans (effect_setBlock _ _ (Nat.le_refl _) (Nat.lt_succ_self _))
  have hpart : a.FreshOn (k + 1) (k + 1 + sizes ss) := hfresh.sub
  have hΓ₁ : (Γ.enter []).Describes none a₁.symbols := hΓ.enterBlock
  have hrun : (Stmt.block brace ss).analyze k a = (analyzeAll (k + 1) ss a₁).exitBlock := by
    rw [analyze]
  rw [hrun] at hlog hreturns
  have hfit := (returnsFit_effect (returnsAll_within ss _) (effect_exitBlock (k := 0) (m := 0) _) (.inr (Nat.zero_le _))).mp hreturns
  obtain ⟨Γ', h⟩ := hbody (Γ.enter []) (k + 1) a₁ hΓ₁ (hpart.effect hopen (.inr (Nat.le_refl _))) hlog hfit
  exact ⟨Γ, .block h⟩

theorem judged_returnVoid (mark : Lexeme) : (Stmt.returnVoid mark).Judged ρ := by
  intro Γ k a hΓ hfresh hlog hreturns
  rw [returns] at hreturns
  simp only [ReturnsFit, List.mem_singleton, forall_eq, returnCause, Typing.returnedNothing_eq_none_iff] at hreturns
  exact ⟨Γ, .returnVoid hreturns⟩

theorem judged_returnValue (mark : Lexeme) (value : Expr) : (Stmt.returnValue mark value).Judged ρ := by
  intro Γ k a hΓ hfresh hlog hreturns
  rw [size_returnValue] at hfresh
  rw [analyze] at hlog hreturns
  rw [returns] at hreturns
  have hcalm := calm_place a ⟨k⟩ .returnValue
  have hpart : a.FreshOn (k + 1) (k + 1 + value.size) := hfresh.sub
  have hfound := (value.finds Γ (k + 1) _ (hcalm.symbols ▸ hΓ)
    (hpart.place .returnValue (n := ⟨k⟩) (.inl (Nat.lt_succ_self _)))).of_calm hcalm
  obtain ⟨σ, l, ht⟩ := value.exists_hasType (hfound.quiet_iff.mp hlog)
  simp only [ReturnsFit, List.mem_singleton, forall_eq, returnCause, hfound.type, ht.finding_eq,
    Typing.returned_eq_none_iff] at hreturns
  exact ⟨Γ, .returnValue ht hreturns⟩

theorem judged_expr (e : Expr) : (Stmt.expr e).Judged ρ := by
  intro Γ k a hΓ hfresh hlog _
  rw [analyze] at hlog
  obtain ⟨τ, l, ht⟩ := e.exists_hasType ((e.finds Γ k a hΓ hfresh).quiet_iff.mp hlog)
  exact ⟨Γ, .expr ht⟩

theorem judged_varDecl (d : Decl) (equals : Lexeme) (init : Expr) : (Stmt.varDecl d equals init).Judged ρ := by
  intro Γ k a hΓ hfresh hlog _
  rw [size_varDecl] at hfresh
  rw [analyze] at hlog
  obtain ⟨hfound, heff⟩ := varDecl_init hΓ hfresh
  generalize init.analyze (k + d.size + 1) (d.place k .declName (a.place ⟨k + d.size⟩ .varDecl)) = b at *
  have hdefine : Effect k (k + d.size) b (b.define (d.declaration k) { var := true, lvalue := true }).2 :=
    effect_define b (.inr rfl) (d.declaration_within)
  have hqueue := effect_queueGlobal (k := k) (m := k + d.size) ⟨k + d.size⟩
    (b.define (d.declaration k) { var := true, lvalue := true }).2
  have hboth := heff.trans ((hdefine.trans hqueue).mono)
  obtain ⟨hquiet, hv⟩ := hboth.quiet_apply hlog
  obtain ⟨hquiet, hquietDefine⟩ := heff.quiet (hdefine.trans hqueue) hquiet
  obtain ⟨σ, l, ht⟩ := init.exists_hasType (hfound.quiet_iff.mp hquiet)
  obtain ⟨hc, -, hfree⟩ := variable_of_define hfound.describes ⟨rfl, rfl, rfl, rfl, rfl⟩ (hdefine.quiet hqueue hquietDefine).1
  obtain ⟨-, -, hsettled, hknown⟩ := varDecl_define hfound.describes hfound.toKnown hc hfree
  rw [variableVerdict, hsettled.2, hknown.type, ht.finding_eq] at hv
  obtain ⟨hvoid, hfits⟩ := Typing.variableInit_eq_none_iff.mp (complaint_eq_nil_iff.mp hv)
  exact ⟨_, .varDecl ht hc hfree hvoid hfits⟩

end Backward

mutual

theorem judged (ρ : Option ValueType) (s : Stmt) : s.Judged ρ := by
  cases s with
  | block brace body => exact judged_block brace (judgedAll ρ body)
  | empty semicolon => exact fun Γ _ _ _ _ _ _ => ⟨Γ, .empty⟩
  | varDecl d equals init => exact judged_varDecl d equals init
  | whileLoop mark cond body =>
    refine (guarded_whileLoop mark cond body).judged (judgedAll_cons (judged ρ body) judgedAll_nil) fun hcond hs => ?_
    match hs with
    | .cons hbody .nil => exact .whileLoop hcond hbody
  | ifThen mark cond yes =>
    refine (guarded_ifThen mark cond yes).judged (judgedAll_cons (judged ρ yes) judgedAll_nil) fun hcond hs => ?_
    match hs with
    | .cons hyes .nil => exact .ifThen hcond hyes
  | ifElse mark cond yes no =>
    refine (guarded_ifElse mark cond yes no).judged
      (judgedAll_cons (judged ρ yes) (judgedAll_cons (judged ρ no) judgedAll_nil)) fun hcond hs => ?_
    match hs with
    | .cons hyes (.cons hno .nil) => exact .ifElse hcond hyes hno
  | returnValue mark value => exact judged_returnValue mark value
  | returnVoid mark => exact judged_returnVoid mark
  | expr e => exact judged_expr e

theorem judgedAll (ρ : Option ValueType) (ss : List Stmt) : JudgedAll ρ ss := by
  match ss with
  | [] => exact judgedAll_nil
  | s :: ss => exact judgedAll_cons (judged ρ s) (judgedAll ρ ss)

end

end Stmt

end OcCompiler
