import OcCompiler.Proofs.ItemTyping

/-! Mistakes do not cascade. If there is nothing to complain about a program and one of its names is then written in a way
    that is declared nowhere, the complaint is that it is undeclared, and there is no other. -/

namespace OcCompiler

open Analysis

/-! ### Another name at one node -/

def Lexeme.retext (y : Option String) (x : Lexeme) : Lexeme := ⟨y.getD x.text, x.loc⟩

def Tree.retext (t : Tree) (n : NodeId) (y : String) : Tree :=
  t.modify n fun node => { node with lexeme := node.lexeme.retext (some y) }

namespace Sapling

mutual

/-- The saplings differ in one name in use, which the second writes as `z`. -/
inductive Respelled (z : Lexeme) : Sapling → Sapling → Prop where
  | here {x before after} : Respelled z (.node .name x before after) (.node .name z before after)
  | before {tag x before before' after} (h : RespelledOne z before before') :
      Respelled z (.node tag x before after) (.node tag x before' after)
  | after {tag x before after after'} (h : RespelledOne z after after') :
      Respelled z (.node tag x before after) (.node tag x before after')

/-- In one of the saplings. -/
inductive RespelledOne (z : Lexeme) : List Sapling → List Sapling → Prop where
  | head {s s' ss} (h : Respelled z s s') : RespelledOne z (s :: ss) (s' :: ss)
  | tail {s ss ss'} (h : RespelledOne z ss ss') : RespelledOne z (s :: ss) (s :: ss')

end

variable {z : Lexeme}

theorem Respelled.of_leaf {tag : Tag} {x : Lexeme} {s' : Sapling} (h : (leaf tag x).Respelled z s') :
    tag = .name ∧ s' = leaf .name z := by
  rcases h with _ | ⟨⟨⟩⟩ | ⟨⟨⟩⟩
  exact ⟨rfl, rfl⟩

mutual

theorem Respelled.layout {s s' : Sapling} (h : s.Respelled z s') : s'.size = s.size ∧ ∀ k, s'.top k = s.top k := by
  cases h with
  | here => exact ⟨rfl, fun _ => rfl⟩
  | before h => simp [size, top, (RespelledOne.layout h).1]
  | after h => simp [size, top, (RespelledOne.layout h).1]

theorem RespelledOne.layout {ss ss' : List Sapling} (h : RespelledOne z ss ss') :
    sizes ss' = sizes ss ∧ ∀ k, tops k ss' = tops k ss := by
  cases h with
  | head h => simp [sizes, tops, (Respelled.layout h).1, (Respelled.layout h).2]
  | tail h => simp [sizes, tops, (RespelledOne.layout h).1, (RespelledOne.layout h).2]

end

mutual

/-- No name that is declared in the sapling is written as `y`. -/
def Lacks (y : String) : Sapling → Prop
  | .node tag x before after => (tag = .declName → x.text ≠ y) ∧ LacksAll y before ∧ LacksAll y after
  | .spent _ => True

def LacksAll (y : String) : List Sapling → Prop
  | [] => True
  | s :: ss => s.Lacks y ∧ LacksAll y ss

end

end Sapling

namespace Tree

variable {t : Tree} {n : NodeId} {y : String}

theorem node_retext (hn : n.index < t.size) (m : NodeId) :
    (t.retext n y).node m = if m = n then { t.node m with lexeme := ⟨y, t.loc m⟩ } else t.node m := by
  rw [retext, node_modify hn]
  split
  · subst m
    rfl
  · rfl

mutual

theorem Shows.lacks {p : Option NodeId} {k : Nat} {s : Sapling} (h : t.Shows p k s)
    (hy : ∀ m, t.tag m = .declName → t.text m ≠ y) : s.Lacks y := by
  match s, h with
  | .spent _, _ => trivial
  | .node tag x before after, ⟨htop, hbefore, hafter⟩ =>
    refine ⟨fun htag => ?_, ShowsAll.lacks hbefore hy, ShowsAll.lacks hafter hy⟩
    have hm := hy ⟨k + Sapling.sizes before⟩
    rw [Tree.tag, Tree.text, Tree.lexeme, htop] at hm
    exact hm htag

theorem ShowsAll.lacks {p : Option NodeId} {k : Nat} {ss : List Sapling} (h : t.ShowsAll p k ss)
    (hy : ∀ m, t.tag m = .declName → t.text m ≠ y) : Sapling.LacksAll y ss := by
  match ss, h with
  | [], _ => trivial
  | s :: ss, ⟨hs, hss⟩ => exact ⟨Shows.lacks hs hy, ShowsAll.lacks hss hy⟩

end

mutual

theorem Shows.retext {p : Option NodeId} {k : Nat} {s : Sapling} (h : t.Shows p k s) (htag : t.tag n = .name)
    (hk : k ≤ n.index) (hm : n.index < k + s.size) :
    ∃ s', s.Respelled ⟨y, t.loc n⟩ s' ∧ (t.retext n y).Shows p k s' := by
  have hnode := node_retext (y := y) (index_lt_of_tag (t := t) (n := n) (by rw [htag]; decide))
  have hrest (m : NodeId) (hne : m ≠ n) : (t.retext n y).node m = t.node m := by rw [hnode, if_neg hne]
  match s, h with
  | .spent lexeme, h =>
    rw [Sapling.size] at hm
    obtain rfl : n = ⟨k⟩ := congrArg NodeId.mk (by omega : n.index = k)
    rw [Shows] at h
    rw [Tree.tag, h] at htag
    cases htag
  | .node tag x before after, ⟨htop, hbefore, hafter⟩ =>
    rw [Sapling.size] at hm
    rcases Nat.lt_trichotomy n.index (k + Sapling.sizes before) with hlt | heq | hgt
    · obtain ⟨before', hrespelled, hshows⟩ := ShowsAll.retext hbefore htag hk hlt
      refine ⟨.node tag x before' after, .before hrespelled, ?_⟩
      rw [Shows, hrespelled.layout.1, hrespelled.layout.2]
      refine ⟨?_, hshows, hafter.congr fun m hm _ => hrest m ?_⟩
      · rw [hrest _ (by rintro rfl; exact Nat.lt_irrefl _ hlt), htop]
      · rintro rfl
        omega
    · obtain rfl : n = ⟨k + Sapling.sizes before⟩ := congrArg NodeId.mk heq
      rw [Tree.tag, htop] at htag
      obtain rfl : tag = .name := htag
      refine ⟨.node .name ⟨y, t.loc _⟩ before after, .here, ?_⟩
      rw [Shows]
      refine ⟨?_, hbefore.congr fun m _ hm => hrest m ?_, hafter.congr fun m hm _ => hrest m ?_⟩
      · rw [hnode, if_pos rfl, htop]
      · rintro rfl
        exact Nat.lt_irrefl _ hm
      · rintro rfl
        exact Nat.not_succ_le_self _ hm
    · obtain ⟨after', hrespelled, hshows⟩ := ShowsAll.retext hafter htag hgt (by omega)
      refine ⟨.node tag x before after', .after hrespelled, ?_⟩
      rw [Shows, hrespelled.layout.2]
      refine ⟨?_, hbefore.congr fun m _ hm => hrest m ?_, hshows⟩
      · rw [hrest _ (by rintro rfl; exact Nat.lt_irrefl _ hgt), htop]
      · rintro rfl
        omega

theorem ShowsAll.retext {p : Option NodeId} {k : Nat} {ss : List Sapling} (h : t.ShowsAll p k ss) (htag : t.tag n = .name)
    (hk : k ≤ n.index) (hm : n.index < k + Sapling.sizes ss) :
    ∃ ss', Sapling.RespelledOne ⟨y, t.loc n⟩ ss ss' ∧ (t.retext n y).ShowsAll p k ss' := by
  match ss, h with
  | [], _ => exact absurd hm (by simpa [Sapling.sizes] using hk)
  | s :: ss, ⟨hs, hss⟩ =>
    rw [Sapling.sizes] at hm
    have hrest (m : NodeId) (hne : m ≠ n) : (t.retext n y).node m = t.node m := by
      rw [node_retext (index_lt_of_tag (by rw [htag]; decide)), if_neg hne]
    by_cases hlt : n.index < k + s.size
    · obtain ⟨s', hrespelled, hshows⟩ := Shows.retext hs htag hk hlt
      refine ⟨s' :: ss, .head hrespelled, hshows, ?_⟩
      rw [hrespelled.layout.1]
      exact hss.congr fun m hm _ => hrest m (by rintro rfl; omega)
    · obtain ⟨ss', hrespelled, hshows⟩ := ShowsAll.retext hss htag (by omega) (by omega)
      exact ⟨s :: ss', .tail hrespelled, hs.congr fun m _ hm => hrest m (by rintro rfl; omega), hshows⟩

end

end Tree

/-! ### What is found out about an expression with an undeclared name -/

/-- The complaint is the only one, and what else is found is found of an expression of the type too, or nothing is. -/
def Expr.Blurs (e : Expr) (Γ : Env) (u : Diagnostic) (τ : ValueType) (isPlace : Bool) : Prop :=
  (e.finding Γ).complaints = [u] ∧
    ((e.finding Γ).type = some τ ∧ (e.finding Γ).isPlace = isPlace ∨ (e.finding Γ).type = none)

section Respelled

variable {Γ : Env} {z : Lexeme}

theorem Decl.not_respelled (d : Decl) {nameTag : Tag} (hname : nameTag ≠ .name) {s' : Sapling} :
    ¬(d.sapling nameTag).Respelled z s' := by
  obtain ⟨base, _ | mark, name⟩ := d
  · intro h
    cases base <;> rcases h with _ | ⟨⟨⟩⟩ | ⟨h | ⟨⟨⟩⟩⟩ <;> exact hname h.of_leaf.1
  · rintro (_ | ⟨h | ⟨h | ⟨⟨⟩⟩⟩⟩ | ⟨⟨⟩⟩)
    · cases base <;> cases h.of_leaf.1
    · exact hname h.of_leaf.1

theorem Decl.not_respelledOne (ds : List Decl) {nameTag : Tag} (hname : nameTag ≠ .name) {ss' : List Sapling} :
    ¬Sapling.RespelledOne z (ds.map (·.sapling nameTag)) ss' := by
  intro h
  induction ds generalizing ss' with
  | nil => cases h
  | cons d ds ih =>
    cases h with
    | head h => exact d.not_respelled hname h
    | tail h => exact ih h

section Rules

variable {e e' : Expr} {op : BinaryOp} {mark : Lexeme} {ρ : ValueType} {isPlace : Bool}

/-- Only the types of the operands matter for what is found at an operator, and one that is not known does no harm. -/
theorem HasType.binary_parts (h : HasType Γ (.binary op e mark e') ρ isPlace) :
    ∃ τ l σ r, HasType Γ e τ l ∧ HasType Γ e' σ r ∧ ∀ {left right : Option ValueType} {l' : Bool} {us : List Diagnostic},
      (left = some τ ∧ l' = l ∨ left = none) → (right = some σ ∨ right = none) →
      let f := Finding.judge (.binary op) us (.binary op left l' right mark)
      f.complaints = us ∧ (f.type = some ρ ∧ f.isPlace = isPlace ∨ f.type = none) := by
  cases h with
  | assign h h' hfits =>
    refine ⟨_, _, _, _, h, h', ?_⟩
    rintro _ _ _ us (⟨rfl, rfl⟩ | rfl) (rfl | rfl) <;>
      simp [Finding.judge, Verdict.binary, complaint, Typing.assignment, Typing.fits, hfits, Tag.initialAttributes]
  | equality hc h h' hvoid hfits =>
    refine ⟨_, _, _, _, h, h', ?_⟩
    rintro _ _ _ us (⟨rfl, rfl⟩ | rfl) (rfl | rfl) <;>
      simp [Finding.judge, Verdict.binary, complaint, Typing.comparison, hc, Typing.equality, Typing.fits, hvoid, hfits,
        Tag.initialAttributes, Attributes.typed]
  | order hc h h' hordered =>
    refine ⟨_, _, _, _, h, h', ?_⟩
    rintro _ _ _ us (⟨rfl, rfl⟩ | rfl) (rfl | rfl) <;>
      simp [Finding.judge, Verdict.binary, complaint, Typing.comparison, hc, Typing.relation, Typing.exactly, hordered,
        Tag.initialAttributes, Attributes.typed]
  | arith h h' =>
    refine ⟨_, _, _, _, h, h', ?_⟩
    rintro _ _ _ us (⟨rfl, rfl⟩ | rfl) (rfl | rfl) <;>
      simp [Finding.judge, Verdict.binary, complaint, Typing.arithmetic, Typing.exactly, Tag.initialAttributes,
        Attributes.typed]

theorem HasType.index_parts (h : HasType Γ (.index e mark e') ρ isPlace) :
    ∃ τ l r, HasType Γ e τ l ∧ HasType Γ e' .int r ∧ ∀ {base subscript : Option ValueType} {us : List Diagnostic},
      (base = some τ ∨ base = none) → (subscript = some .int ∨ subscript = none) →
      let f := Finding.judge .index us (.index base subscript mark)
      f.complaints = us ∧ (f.type = some ρ ∧ f.isPlace = isPlace ∨ f.type = none) := by
  cases h with
  | element h h' | character h h' =>
    refine ⟨_, _, _, h, h', ?_⟩
    rintro _ _ us (rfl | rfl) (rfl | rfl) <;>
      simp [Finding.judge, Verdict.index, complaint, Typing.exactly, Typing.element, Tag.initialAttributes]

theorem arguments_eq_nil {params : List (String × ValueType)} {σs : List ValueType} {types : List (Option ValueType)}
    (hfits : List.Forall₂ (fun p σ => p.2.accepts σ = true) params σs)
    (htypes : List.Forall₂ (fun type σ => type = some σ ∨ type = none) types σs) :
    Typing.arguments false ((params.map (·.2)).map some) types = [] := by
  induction hfits generalizing types with
  | nil =>
    cases htypes
    rfl
  | cons hp _ ih =>
    cases htypes with
    | cons htype htypes => rcases htype with rfl | rfl <;> simpa [Typing.arguments, Typing.fits, hp] using ih htypes

end Rules

mutual

theorem Expr.blurs (hz : Γ.lookup z.text = none) (e : Expr) {s' : Sapling} (h : e.sapling.Respelled z s') {τ : ValueType}
    {l : Bool} (ht : HasType Γ e τ l) : ∃ e' : Expr, e'.sapling = s' ∧ e'.Blurs Γ (SemanticCause.undeclared.about z) τ l := by
  cases e with
  | name x =>
    obtain ⟨-, rfl⟩ := h.of_leaf
    exact ⟨.name z, rfl, by simp [Blurs, finding, hz]⟩
  | constant c lexeme => cases h.of_leaf.1
  | newStruct mark tag =>
    rcases h with _ | ⟨⟨⟩⟩ | ⟨h | ⟨⟨⟩⟩⟩
    cases h.of_leaf.1
  | unary op mark e =>
    rcases h with _ | ⟨⟨⟩⟩ | ⟨h | ⟨⟨⟩⟩⟩
    cases ht with
    | unary ht =>
      obtain ⟨e', rfl, hc, ht'⟩ := Expr.blurs hz e h ht
      refine ⟨.unary op mark e', rfl, ?_⟩
      rcases ht' with ⟨ht', -⟩ | ht' <;> cases op <;>
        simp [Blurs, finding, hc, ht', Finding.judge, Verdict.operand, complaint, Typing.exactly, Tag.initialAttributes,
          Attributes.typed, UnaryOp.result]
  | newString mark count =>
    rcases h with _ | ⟨⟨⟩⟩ | ⟨h | ⟨⟨⟩⟩⟩
    cases ht with
    | newString ht =>
      obtain ⟨e', rfl, hc, ht'⟩ := Expr.blurs hz count h ht
      refine ⟨.newString mark e', rfl, ?_⟩
      rcases ht' with ⟨ht', -⟩ | ht' <;>
        simp [Blurs, finding, hc, ht', Finding.judge, Verdict.operand, complaint, Typing.exactly, Tag.initialAttributes,
          Attributes.typed]
  | newArray element mark count =>
    cases ht with
    | newArray hc hvoid ht =>
      rcases h with _ | ⟨h | ⟨⟨⟩⟩⟩ | ⟨h | ⟨⟨⟩⟩⟩
      · cases element <;> cases h.of_leaf.1
      · obtain ⟨e', rfl, hc', ht'⟩ := Expr.blurs hz count h ht
        refine ⟨.newArray element mark e', rfl, ?_⟩
        rcases ht' with ⟨ht', -⟩ | ht' <;>
          simp [Blurs, finding, hc', ht', Env.incomplete_eq_nil_iff.mpr hc, Finding.judge, Verdict.newArray, complaint,
            Typing.arrayLength, hvoid, Typing.exactly, Tag.initialAttributes]
  | select object dot field =>
    cases ht with
    | select ht hfields hfield =>
      rcases h with _ | ⟨h | ⟨⟨⟩⟩⟩ | ⟨h | ⟨⟨⟩⟩⟩
      on_goal 2 => cases h.of_leaf.1
      obtain ⟨e', rfl, hc, ht'⟩ := Expr.blurs hz object h ht
      refine ⟨.select e' dot field, rfl, ?_⟩
      rcases ht' with ⟨ht', -⟩ | ht' <;>
        simp [Blurs, finding, hc, ht', Finding.judge, Env.selectVerdict, hfields, hfield, Tag.initialAttributes]
  | binary op left mark right =>
    obtain ⟨τ', l', σ, r, hleft, hright, hmake⟩ := ht.binary_parts
    rcases h with _ | ⟨h | ⟨⟨⟩⟩⟩ | ⟨h | ⟨⟨⟩⟩⟩
    · obtain ⟨e', rfl, hc, ht'⟩ := Expr.blurs hz left h hleft
      refine ⟨.binary op e' mark right, rfl, ?_⟩
      rw [Blurs, finding, hright.finding_eq, hc]
      exact hmake ht' (.inl rfl)
    · obtain ⟨e', rfl, hc, ht'⟩ := Expr.blurs hz right h hright
      refine ⟨.binary op left mark e', rfl, ?_⟩
      rw [Blurs, finding, hleft.finding_eq, hc]
      exact hmake (.inl ⟨rfl, rfl⟩) (ht'.imp_left (·.1))
  | index base bracket subscript =>
    obtain ⟨τ', l', r, hbase, hsubscript, hmake⟩ := ht.index_parts
    rcases h with _ | ⟨h | ⟨⟨⟩⟩⟩ | ⟨h | ⟨⟨⟩⟩⟩
    · obtain ⟨e', rfl, hc, ht'⟩ := Expr.blurs hz base h hbase
      refine ⟨.index e' bracket subscript, rfl, ?_⟩
      rw [Blurs, finding, hsubscript.finding_eq, hc]
      exact hmake (ht'.imp_left (·.1)) (.inl rfl)
    · obtain ⟨e', rfl, hc, ht'⟩ := Expr.blurs hz subscript h hsubscript
      refine ⟨.index base bracket e', rfl, ?_⟩
      rw [Blurs, finding, hbase.finding_eq, hc]
      exact hmake (.inl rfl) (ht'.imp_left (·.1))
  | call callee paren args =>
    cases ht with
    | call hx hs hfits =>
      rcases h with _ | ⟨h | ⟨⟨⟩⟩⟩ | h
      · obtain ⟨-, rfl⟩ := h.of_leaf
        refine ⟨.call z paren args, rfl, ?_⟩
        simp [Blurs, finding, (HasTypes.findings_eq args hs).1, Env.undeclared, Env.callVerdict, hz, Finding.judge,
          Tag.initialAttributes]
      · obtain ⟨args', rfl, hc, htypes⟩ := Expr.blursOne hz args h hs
        refine ⟨.call callee paren args', rfl, ?_⟩
        have hnone := arguments_eq_nil hfits htypes
        simp only [Blurs, finding, hc, Env.undeclared, Env.callVerdict, hx, hnone]
        exact ⟨rfl, .inl ⟨rfl, rfl⟩⟩

theorem Expr.blursOne (hz : Γ.lookup z.text = none) (es : List Expr) {ss' : List Sapling}
    (h : Sapling.RespelledOne z (saplings es) ss') {τs : List ValueType} (ht : HasTypes Γ es τs) :
    ∃ es' : List Expr, saplings es' = ss' ∧ (findings Γ es').flatMap (·.complaints) = [SemanticCause.undeclared.about z] ∧
      List.Forall₂ (fun type τ => type = some τ ∨ type = none) ((findings Γ es').map (·.type)) τs := by
  match es, ht with
  | [], _ => cases h
  | e :: es, .cons ht hts =>
    obtain ⟨hnone, htypes⟩ := HasTypes.findings_eq es hts
    rcases h with h | h
    · obtain ⟨e', rfl, hc, ht'⟩ := Expr.blurs hz e h ht
      refine ⟨e' :: es, rfl, by simp [findings, hc, hnone], .cons (ht'.imp_left (·.1)) ?_⟩
      rw [htypes, List.forall₂_map_left_iff]
      exact List.forall₂_same.mpr fun _ _ => .inl rfl
    · obtain ⟨es', rfl, hc, ht'⟩ := Expr.blursOne hz es h hts
      refine ⟨e :: es', rfl, ?_, .cons (.inl (by rw [ht.finding_eq])) ht'⟩
      simp [findings, ht.finding_eq, hc]

end

theorem Expr.Blurs.yields {e : Expr} {u : Diagnostic} {τ : ValueType} {l : Bool} (h : e.Blurs Γ u τ l) : e.Yields Γ [u] τ :=
  ⟨h.1, h.2.imp_left (·.1)⟩

/-! ### Statements and items with an undeclared name -/

namespace Env

variable {x y : String} {entry : Entry} {frame : Frame}

/-- Some block has the name. -/
def Declares (Γ : Env) (x : String) : Prop := ∃ frame ∈ Γ.inner :: Γ.outer, x ∈ frame.map Prod.fst

theorem lookup_eq_none (h : ¬Γ.Declares x) : Γ.lookup x = none := by
  rw [lookup, List.findSome?_eq_none_iff]
  intro frame hframe
  rw [List.lookup_eq_none_iff]
  intro p hp
  exact bne_iff_ne.mpr fun heq => h ⟨frame, hframe, heq ▸ List.mem_map_of_mem hp⟩

theorem declares_bind : (Γ.bind y entry).Declares x ↔ x = y ∨ Γ.Declares x := by
  simp only [Declares, bind, List.mem_cons, exists_eq_or_imp, List.map_append, List.mem_append, List.map_singleton]
  tauto

theorem declares_enter : (Γ.enter frame).Declares x ↔ x ∈ frame.map Prod.fst ∨ Γ.Declares x := by
  simp only [Declares, enter, List.mem_cons, exists_eq_or_imp]

theorem declares_define : (Γ.define y).Declares x ↔ Γ.Declares x := by
  have hnames : (Γ.define y).inner.map Prod.fst = Γ.inner.map Prod.fst := by
    rw [define, List.map_map]
    refine List.map_congr_left fun p _ => ?_
    obtain ⟨x, _ | _⟩ := p <;> rfl
  simp only [Declares, List.mem_cons, exists_eq_or_imp, hnames]
  rfl

end Env

theorem Decl.text_ne_of_lacks {d : Decl} {y : String} (h : (d.sapling .declName).Lacks y) : d.name.text ≠ y := by
  obtain ⟨base, _ | mark, name⟩ := d
  · exact h.2.2.1.1 rfl
  · exact h.2.1.2.1.1 rfl

theorem Decl.not_mem_frame {params : List Decl} {y : String}
    (h : Sapling.LacksAll y (params.map (·.sapling .declName))) : y ∉ (frame params).map Prod.fst := by
  induction params with
  | nil => exact List.not_mem_nil
  | cons d ds ih =>
    rintro (_ | ⟨_, hmem⟩)
    · exact text_ne_of_lacks h.1 rfl
    · exact ih h.2 hmem

variable {ρ : Option ValueType}

theorem StmtOk.not_declares (s : Stmt) {Γ Γ' : Env} {y : String} (h : StmtOk ρ Γ s Γ') (hd : s.sapling.Lacks y) (hy : ¬Γ.Declares y) :
    ¬Γ'.Declares y := by
  cases h with
  | block | empty | returnValue | returnVoid | expr => exact hy
  | varDecl =>
    rw [Env.declares_bind, not_or]
    exact ⟨fun heq => Decl.text_ne_of_lacks hd.2.1.1 heq.symm, hy⟩
  | whileLoop _ hbody => exact StmtOk.not_declares _ hbody hd.2.2.2.1 hy
  | ifThen _ hyes => exact StmtOk.not_declares _ hyes hd.2.2.2.1 hy
  | ifElse _ hyes hno =>
    exact StmtOk.not_declares _ hno hd.2.2.2.2.1 (StmtOk.not_declares _ hyes hd.2.2.2.1 hy)

mutual

theorem Stmt.respelled (s : Stmt) {Γ Γ' : Env} {s' : Sapling} (h : s.sapling.Respelled z s')
    (hd : s.sapling.Lacks z.text) (hz : ¬Γ.Declares z.text) (hok : StmtOk ρ Γ s Γ') :
    ∃ s₁ : Stmt, s₁.sapling = s' ∧ s₁.hasReturn = s.hasReturn ∧ s₁.Leads ρ [SemanticCause.undeclared.about z] Γ Γ' := by
  have hnone := Env.lookup_eq_none hz
  cases s with
  | block brace body =>
    rcases h with _ | ⟨⟨⟩⟩ | h
    cases hok with
    | block hbody =>
      obtain ⟨body', rfl, hreturn, hleads⟩ :=
        Stmt.respelledOne body h hd.2.2 (by rw [Env.declares_enter]; simpa using hz) hbody
      exact ⟨.block brace body', rfl, by rw [hasReturn, hasReturn, hreturn],
        leads_block brace hleads hbody.kept.1 hbody.kept.2⟩
  | empty semicolon => cases h.of_leaf.1
  | returnVoid mark => cases h.of_leaf.1
  | varDecl d equals init =>
    cases hok with
    | varDecl hinit hc hfree hvoid hfits =>
      rcases h with _ | ⟨h | ⟨⟨⟩⟩⟩ | ⟨h | ⟨⟨⟩⟩⟩
      · exact absurd h (d.not_respelled (by decide))
      · obtain ⟨init', rfl, hblurs⟩ := init.blurs hnone h hinit
        exact ⟨.varDecl d equals init', rfl, rfl, leads_varDecl equals hblurs.yields hc hfree hvoid hfits⟩
  | whileLoop mark cond body =>
    cases hok with
    | whileLoop hcond hbody =>
      rcases h with _ | ⟨⟨⟩⟩ | ⟨h | ⟨h | ⟨⟨⟩⟩⟩⟩
      · obtain ⟨cond', rfl, hblurs⟩ := cond.blurs hnone h hcond
        exact ⟨.whileLoop mark cond' body, rfl, rfl,
          (guarded_whileLoop mark cond' body).leads hblurs.yields (leadsAll_cons (body.leads hbody) leadsAll_nil)⟩
      · obtain ⟨body', rfl, hreturn, hleads⟩ := Stmt.respelled body h hd.2.2.2.1 hz hbody
        exact ⟨.whileLoop mark cond body', rfl, by rw [hasReturn, hasReturn, hreturn],
          (guarded_whileLoop mark cond body').leads (.of_hasType hcond) (leadsAll_cons hleads leadsAll_nil)⟩
  | ifThen mark cond yes =>
    cases hok with
    | ifThen hcond hyes =>
      rcases h with _ | ⟨⟨⟩⟩ | ⟨h | ⟨h | ⟨⟨⟩⟩⟩⟩
      · obtain ⟨cond', rfl, hblurs⟩ := cond.blurs hnone h hcond
        exact ⟨.ifThen mark cond' yes, rfl, rfl,
          (guarded_ifThen mark cond' yes).leads hblurs.yields (leadsAll_cons (yes.leads hyes) leadsAll_nil)⟩
      · obtain ⟨yes', rfl, hreturn, hleads⟩ := Stmt.respelled yes h hd.2.2.2.1 hz hyes
        exact ⟨.ifThen mark cond yes', rfl, by rw [hasReturn, hasReturn, hreturn],
          (guarded_ifThen mark cond yes').leads (.of_hasType hcond) (leadsAll_cons hleads leadsAll_nil)⟩
  | ifElse mark cond yes no =>
    cases hok with
    | ifElse hcond hyes hno =>
      rcases h with _ | ⟨⟨⟩⟩ | ⟨h | ⟨h | ⟨h | ⟨⟨⟩⟩⟩⟩⟩
      · obtain ⟨cond', rfl, hblurs⟩ := cond.blurs hnone h hcond
        exact ⟨.ifElse mark cond' yes no, rfl, rfl, (guarded_ifElse mark cond' yes no).leads hblurs.yields
          (leadsAll_cons (yes.leads hyes) (leadsAll_cons (no.leads hno) leadsAll_nil))⟩
      · obtain ⟨yes', rfl, hreturn, hleads⟩ := Stmt.respelled yes h hd.2.2.2.1 hz hyes
        exact ⟨.ifElse mark cond yes' no, rfl, by rw [hasReturn, hasReturn, hreturn],
          (guarded_ifElse mark cond yes' no).leads (.of_hasType hcond)
            (leadsAll_cons hleads (leadsAll_cons (no.leads hno) leadsAll_nil))⟩
      · obtain ⟨no', rfl, hreturn, hleads⟩ :=
          Stmt.respelled no h hd.2.2.2.2.1 (hyes.not_declares yes hd.2.2.2.1 hz) hno
        exact ⟨.ifElse mark cond yes no', rfl, by rw [hasReturn, hasReturn, hreturn],
          (guarded_ifElse mark cond yes no').leads (.of_hasType hcond)
            (leadsAll_cons (yes.leads hyes) (leadsAll_cons hleads leadsAll_nil))⟩
  | returnValue mark value =>
    rcases h with _ | ⟨⟨⟩⟩ | ⟨h | ⟨⟨⟩⟩⟩
    cases hok with
    | returnValue hvalue hfits =>
      obtain ⟨value', rfl, hblurs⟩ := value.blurs hnone h hvalue
      exact ⟨.returnValue mark value', rfl, rfl, leads_returnValue mark hblurs.yields hfits⟩
  | expr e =>
    cases hok with
    | expr ht =>
      obtain ⟨e', rfl, hblurs⟩ := e.blurs hnone h ht
      exact ⟨.expr e', rfl, rfl, leads_expr hblurs.yields⟩

theorem Stmt.respelledOne (ss : List Stmt) {Γ Γ' : Env} {ss' : List Sapling}
    (h : Sapling.RespelledOne z (saplings ss) ss') (hd : Sapling.LacksAll z.text (saplings ss)) (hz : ¬Γ.Declares z.text) (hok : StmtsOk ρ Γ ss Γ') :
    ∃ ss₁ : List Stmt, saplings ss₁ = ss' ∧ anyReturn ss₁ = anyReturn ss ∧
      LeadsAll ρ [SemanticCause.undeclared.about z] Γ ss₁ Γ' := by
  match ss, hok with
  | [], _ => cases h
  | s :: ss, .cons hs hss =>
    rcases h with h | h
    · obtain ⟨s', rfl, hreturn, hleads⟩ := Stmt.respelled s h hd.1 hz hs
      exact ⟨s' :: ss, rfl, by rw [anyReturn, anyReturn, hreturn], leadsAll_cons hleads (leadsAll ss hss)⟩
    · obtain ⟨ss', rfl, hreturn, hleads⟩ := Stmt.respelledOne ss h hd.2 (hs.not_declares s hd.1 hz) hss
      exact ⟨s :: ss', rfl, by rw [anyReturn, anyReturn, hreturn], leadsAll_cons (s.leads hs) hleads⟩

end

theorem ItemOk.not_declares {i : Item} {Γ' : Env} {y : String} (h : ItemOk Γ i Γ') (hd : i.sapling.Lacks y)
    (hy : ¬Γ.Declares y) : ¬Γ'.Declares y := by
  cases h with
  | struct => exact hy
  | prototype | function =>
    rw [Env.declares_bind, not_or]
    exact ⟨fun heq => Decl.text_ne_of_lacks hd.2.1.1 heq.symm, hy⟩
  | announced =>
    rw [Env.declares_define]
    exact hy
  | stmt h => exact h.not_declares _ hd hy

theorem Item.respelled (i : Item) {Γ' : Env} {s' : Sapling} (h : i.sapling.Respelled z s') (hd : i.sapling.Lacks z.text)
    (hz : ¬Γ.Declares z.text) (hok : ItemOk Γ i Γ') :
    ∃ i₁ : Item, i₁.sapling = s' ∧ i₁.Leads [SemanticCause.undeclared.about z] Γ Γ' := by
  cases i with
  | struct mark tag fields =>
    rcases h with _ | ⟨⟨⟩⟩ | ⟨h | h⟩
    · cases h.of_leaf.1
    · exact absurd h (Decl.not_respelledOne fields (by decide))
  | prototype d paren params semicolon =>
    rcases h with _ | ⟨h | ⟨(_ | ⟨⟨⟩⟩ | h) | ⟨h | ⟨⟨⟩⟩⟩⟩⟩ | ⟨⟨⟩⟩
    · exact absurd h (d.not_respelled (by decide))
    · exact absurd h (Decl.not_respelledOne params (by decide))
    · cases h
  | function d paren params brace body =>
    rcases h with _ | ⟨h | ⟨(_ | ⟨⟨⟩⟩ | h) | ⟨(_ | ⟨⟨⟩⟩ | h) | ⟨⟨⟩⟩⟩⟩⟩ | ⟨⟨⟩⟩
    · exact absurd h (d.not_respelled (by decide))
    · exact absurd h (Decl.not_respelledOne params (by decide))
    · obtain ⟨⟨Γ'', hbody⟩, hreturns⟩ := bodyOk_of_function hok
      have hz' : ¬(Γ'.enter (Decl.frame params)).Declares z.text := by
        rw [Env.declares_enter, not_or]
        exact ⟨Decl.not_mem_frame hd.2.1.2.1.2.2, hok.not_declares hd hz⟩
      obtain ⟨body', rfl, hreturn, hleads⟩ := Stmt.respelledOne body h hd.2.1.2.2.1.2.2 hz' hbody
      exact ⟨.function d paren params brace body', rfl, leads_function hok hleads hbody.kept (by rwa [hreturn])⟩
  | stmt s =>
    cases hok with
    | stmt hok =>
      obtain ⟨s₁, rfl, -, hleads⟩ := s.respelled h hd hz hok
      exact ⟨.stmt s₁, rfl, leads_stmt hleads⟩

theorem Item.respelledOne (is : List Item) {Γ Γ' : Env} {ss' : List Sapling} {k : Nat} {a : Analysis}
    (h : Sapling.RespelledOne z (is.map Item.sapling) ss') (hd : Sapling.LacksAll z.text (is.map Item.sapling))
    (hz : ¬Γ.Declares z.text) (hok : ItemsOk Γ is Γ') (hglobal : Γ.outer = []) (hΓ : Γ.Describes none a.symbols)
    (hfresh : a.FreshOn k (k + sizes is)) :
    ∃ is₁ : List Item, is₁.map Item.sapling = ss' ∧
      (analyzeAll k is₁ a).log = a.log.push (SemanticCause.undeclared.about z) := by
  induction hok generalizing ss' k a with
  | nil => cases h
  | @cons Γ _ _ i is hi his ih =>
    rw [sizes] at hfresh
    have hpart : a.FreshOn (k + i.size) (k + i.size + sizes is) := hfresh.sub
    have houter := (outer_of_ok hi).trans hglobal
    rcases h with h | h
    · obtain ⟨i₁, rfl, hleads⟩ := i.respelled h hd.1 hz hi
      have hsize : i₁.size = i.size := h.layout.1
      obtain ⟨hlog, hΓ', -⟩ := hleads k a hglobal hΓ (by rw [hsize]; exact hfresh.sub)
      have hrest := hpart.effect (i₁.analyze_effect k a) (.inr (by omega))
      refine ⟨i₁ :: is, rfl, ?_⟩
      rw [analyzeAll, hsize, ((agreesAll is houter hΓ' hrest).1 _ his).1, hlog]
      rfl
    · obtain ⟨hlog, hΓ', -⟩ := (i.agrees Γ k a hglobal hΓ hfresh.sub).1 _ hi
      obtain ⟨is₁, rfl, hlog'⟩ := ih h hd.2 (hi.not_declares hd.1 hz) houter hΓ'
        (hpart.effect (i.analyze_effect k a) (.inr (Nat.le_refl _)))
      exact ⟨i :: is₁, rfl, by rw [analyzeAll, hlog', hlog]⟩

end Respelled

namespace Analysis

variable {tokens : List Token} {root n : NodeId} {t : Tree} {log : Log}

/-- One mistake, one complaint. If there is nothing to complain about a program and the text of one of its names in use is
    replaced by one that is declared nowhere, the only complaint is that this name is undeclared. -/
theorem log_retext_undeclared (h : Tree.empty.parse tokens = (.ok root, t)) {a : Analysis} (ha : ofTree t log = .ok a)
    (hquiet : a.log = log) (hn : t.tag n = .name) {y : String} (hy : ∀ m, t.tag m = .declName → t.text m ≠ y) :
    ∃ a', ofTree (t.retext n y) log = .ok a' ∧ a'.log = log.push (SemanticCause.undeclared.about ⟨y, t.loc n⟩) := by
  obtain ⟨-, hshows, hsize⟩ := Tree.parse_shows h
  obtain rfl := Except.ok.inj ((ofTree_parse h log).symm.trans ha)
  obtain ⟨Γ, hok⟩ := (Program.log_analyze_eq_iff _ log).mp hquiet
  have hn' : n.index < t.size := Tree.index_lt_of_tag (by rw [hn]; decide)
  obtain ⟨s', hrespelled, hshows'⟩ := hshows.retext (y := y) hn (Nat.zero_le _) (by rw [Nat.zero_add, ← hsize]; exact hn')
  have hsize' := hrespelled.layout.1
  have hlacks := hshows.lacks hy
  generalize (Program.ofTokens tokens).items = items at *
  rcases hrespelled with _ | ⟨⟨⟩⟩ | hrespelled
  obtain ⟨items', rfl, hlog⟩ := Item.respelledOne items hrespelled hlacks.2.2 (by simp [Env.Declares]) hok rfl
    (Program.describes_start log) (Program.fresh_start log _)
  exact ⟨Program.analyze items' log, ofTree_shows hshows' (Array.size_modify.trans (hsize.trans hsize'.symm)) log, hlog⟩

def misspellable : String :=
  "struct p \x7bint x;\x7d\nint f(int a) \x7b return a + 1; \x7d\n" ++
    "int[] v = new int[3];\np q = new p();\nint i = f(2);\nwhile (i == 3) \x7b v[f(i)] = q.x; i = v[i]; \x7d\n"

/-- A name that is returned, one that is called, and names in a condition, in subscripts, in an argument, in front of
    subscripts and of a field, and as targets: whichever is misspelled, there is one complaint. -/
theorem log_retext_undeclared_everywhere :
    ∃ s root t a, TokenStream.ofText "t" misspellable = .ok s ∧
      Tree.empty.parse s.tokens = (.ok root, t) ∧ ofTree t #[] = .ok a ∧ a.log = #[] ∧
      (t.nodes.toList.filter (·.tag = .name)).map (·.lexeme.text) = ["a", "f", "i", "v", "f", "i", "q", "i", "v", "i"] ∧
      ∀ n, t.tag n = .name → ∃ a', ofTree (t.retext n "y") #[] = .ok a' ∧
        a'.log = #[SemanticCause.undeclared.about ⟨"y", t.loc n⟩] := by
  have hread : passes misspellable (fun t a => a.log = #[] ∧ (t.nodes.toList.filter (·.tag = .name)).map (·.lexeme.text) =
          ["a", "f", "i", "v", "f", "i", "q", "i", "v", "i"] ∧
        ∀ i < t.size, t.tag ⟨i⟩ = .declName → t.text ⟨i⟩ ≠ "y") = true := by
    decide +kernel
  obtain ⟨s, root, t, a, hs, hparse, ha, hread⟩ := exists_of_passes hread
  obtain ⟨hlog, hnames, hdeclared⟩ := of_decide_eq_true hread
  refine ⟨s, root, t, a, hs, hparse, ha, hlog, hnames, fun n hn => log_retext_undeclared hparse ha hlog hn fun m hm => ?_⟩
  exact hdeclared m.index (Tree.index_lt_of_tag (by rw [hm]; decide)) hm

end Analysis

end OcCompiler
