import OcCompiler.Proofs.ScopeFrame
import OcCompiler.Proofs.Settled

/-! Visits of subtrees. The nodes of a subtree have consecutive numbers; what holds of every single node is carried over
    to whole visits by one induction. -/

namespace OcCompiler

open Analysis

namespace Tree

def Spans (t : Tree) (n : NodeId) (k m : Nat) : Prop := ∃ p s, t.Shows p k s ∧ s.top k = some n ∧ k + s.size = m

def Barren (t : Tree) (k m : Nat) : Prop := ∀ x : NodeId, k ≤ x.index → x.index < m → t.tag x = .released

/-- Subtrees that follow each other between two numbers, with released nodes between them at most. -/
inductive Lines (t : Tree) : List NodeId → Nat → Nat → Prop
  | nil {k m : Nat} (hk : k ≤ m) (hgap : t.Barren k m) : Lines t [] k m
  | cons {k i j m : Nat} {c : NodeId} {cs : List NodeId} (hk : k ≤ i) (hgap : t.Barren k i) (hc : t.Spans c i j)
      (hcs : Lines t cs j m) : Lines t (c :: cs) k m

variable {t : Tree} {n c : NodeId} {k m : Nat} {cs : List NodeId} {nameTag : Tag}

theorem Spans.bounds (h : t.Spans n k m) : k ≤ n.index ∧ n.index < m := by
  obtain ⟨p, s, -, htop, rfl⟩ := h
  exact Sapling.top_bounds htop

theorem Lines.le (h : t.Lines cs k m) : k ≤ m := by
  induction h with
  | nil hk => exact hk
  | cons hk _ hc _ ih =>
    have := hc.bounds
    omega

theorem Lines.spans_of_mem (h : t.Lines cs k m) (hc : c ∈ cs) : ∃ i j, t.Spans c i j ∧ k ≤ i ∧ j ≤ m := by
  induction h with
  | nil => cases hc
  | cons hk _ hspan hcs ih =>
    rcases List.mem_cons.mp hc with rfl | hc
    · exact ⟨_, _, hspan, hk, hcs.le⟩
    · obtain ⟨i, j, hspan', hi, hj⟩ := ih hc
      have := hspan.bounds
      exact ⟨i, j, hspan', by omega, hj⟩

theorem Lines.widen (h : t.Lines cs (k + 1) m) (hk : t.tag ⟨k⟩ = .released) : t.Lines cs k m := by
  have hwider {i : Nat} (hgap : t.Barren (k + 1) i) : t.Barren k i := by
    intro x hx hi
    rcases Nat.eq_or_lt_of_le hx with heq | hlt
    · rwa [show x = ⟨k⟩ from congrArg NodeId.mk heq.symm]
    · exact hgap x hlt hi
  cases h with
  | nil hle hgap => exact .nil (Nat.le_of_succ_le hle) (hwider hgap)
  | cons hle hgap hc hcs => exact .cons (Nat.le_of_succ_le hle) (hwider hgap) hc hcs

theorem ShowsAll.lines {p : Option NodeId} {ss : List Sapling} (h : t.ShowsAll p k ss) :
    t.Lines (Sapling.tops k ss) k (k + Sapling.sizes ss) := by
  have hnone : t.Barren k k := fun _ hk hm => absurd hm (Nat.not_lt.mpr hk)
  induction ss generalizing k with
  | nil => exact .nil (Nat.le_refl k) hnone
  | cons s ss ih =>
    obtain ⟨hs, hss⟩ := h
    have hrest := ih hss fun _ hk hm => absurd hm (Nat.not_lt.mpr hk)
    rw [Sapling.tops, Sapling.sizes, ← Nat.add_assoc]
    cases s with
    | node tag x before after => exact .cons (Nat.le_refl k) hnone ⟨p, _, hs, rfl, rfl⟩ hrest
    | spent x => exact hrest.widen (congrArg Node.tag hs)

theorem Spans.children (h : t.Spans n k m) :
    ∃ cs cs', t.children n = cs ++ cs' ∧ t.Lines cs k n.index ∧ t.Lines cs' (n.index + 1) m := by
  obtain ⟨p, s, hs, htop, rfl⟩ := h
  cases s with
  | spent x => cases htop
  | node tag x before after =>
    obtain rfl := Option.some.inj htop
    obtain ⟨hnode, hbefore, hafter⟩ := hs
    refine ⟨_, _, congrArg Node.children hnode, hbefore.lines, ?_⟩
    rw [Sapling.size, ← Nat.add_assoc, ← Nat.add_assoc]
    exact hafter.lines

theorem Spans.child (h : t.Spans n k m) (hc : c ∈ t.children n) :
    ∃ i j, t.Spans c i j ∧ k ≤ i ∧ j ≤ m ∧ (j ≤ n.index ∨ n.index < i) := by
  obtain ⟨cs, cs', hchildren, hbefore, hafter⟩ := h.children
  have hbounds := h.bounds
  rw [hchildren] at hc
  rcases List.mem_append.mp hc with hc | hc
  · obtain ⟨i, j, hspan, hi, hj⟩ := hbefore.spans_of_mem hc
    exact ⟨i, j, hspan, hi, by omega, .inl hj⟩
  · obtain ⟨i, j, hspan, hi, hj⟩ := hafter.spans_of_mem hc
    exact ⟨i, j, hspan, by omega, hj, .inr hi⟩

theorem Spans.walkWithin (h : t.Spans n k m) {depth : Nat} (hdepth : m ≤ k + depth) (hroom : m ≤ t.size) :
    t.walkWithin depth n = t.walk n := by
  obtain ⟨p, s, hs, htop, rfl⟩ := h
  have hle := s.depth_le_size
  have hwalk (depth : Nat) (hdepth : s.depth ≤ depth) : t.walkWithin depth n = s.walk k := by
    have hwalk := hs.walkWithin s hdepth
    rwa [htop, Option.toList_some, List.flatMap_singleton] at hwalk
  rw [Tree.walk, hwalk depth (by omega), hwalk t.size (by omega)]

theorem Spans.walk_subset (h : t.Spans n k m) (hroom : m ≤ t.size) (hc : c ∈ t.children n) : t.walk c ⊆ t.walk n := by
  obtain ⟨i, j, hspan, hi, hj, hdisj⟩ := h.child hc
  have hbounds := h.bounds
  obtain ⟨size, hsize⟩ : ∃ size, t.size = size + 1 := ⟨t.size - 1, by omega⟩
  intro x hx
  rw [← hspan.walkWithin (show j ≤ i + size by omega) (by omega)] at hx
  rw [Tree.walk, hsize, Tree.walkWithin]
  exact List.mem_cons_of_mem _ (List.mem_flatMap.mpr ⟨c, hc, hx⟩)

theorem mem_walk_self (h : n.index < t.size) : n ∈ t.walk n := by
  obtain ⟨size, hsize⟩ : ∃ size, t.size = size + 1 := ⟨t.size - 1, by omega⟩
  rw [walk, hsize, walkWithin]
  exact List.mem_cons_self

theorem Spans.mem_walk (h : t.Spans n k m) (hroom : m ≤ t.size) (hc : c ∈ t.children n) : c ∈ t.walk n := by
  obtain ⟨i, j, hspan, -, hj, -⟩ := h.child hc
  have := hspan.bounds
  exact h.walk_subset hroom hc (mem_walk_self (by omega))

theorem mem_children_of_child {i : Nat} (h : t.child n i = .ok c) : c ∈ t.children n := by
  unfold Tree.child at h
  split at h
  · rename_i hget
    cases h
    exact List.mem_of_getElem? hget
  · cases h

theorem Fits.isExpr_first (h : t.Fits n) (htag : t.tag n = .call ∨ t.tag n = .index ∨ t.tag n = .select ∨ ∃ op, t.tag n = .binary op)
    (hc : t.child n 0 = .ok c) : (t.tag c).isExpr = true ∧ (t.tag n = .call → t.tag c = .name) := by
  unfold Fits Suits at h
  split at h <;> simp_all [Tree.child, IsLeaf, Tag.isExpr]

theorem IsDecl.parts_not_isExpr (h : t.IsDecl nameTag n) (hname : nameTag.isExpr = false) {parts : DeclParts}
    (hparts : t.declParts n = .ok parts) : (t.tag parts.base).isExpr = false ∧ (t.tag parts.name).isExpr = false := by
  obtain ⟨parts', hparts', hbase, hnameTag⟩ := h.declParts
  cases hparts.symm.trans hparts'
  refine ⟨?_, by rw [hnameTag, hname]⟩
  cases htag : t.tag parts.base <;> rw [htag] at hbase <;> first | rfl | cases hbase

theorem IsDecl.not_isExpr (h : t.IsDecl nameTag n) (hname : nameTag.isExpr = false) {d : Declaration}
    (hd : t.declaration n = .ok d) : (t.tag d.typeNode).isExpr = false ∧ (t.tag d.nameNode).isExpr = false := by
  obtain ⟨parts, hparts, hd⟩ := bind_eq_ok_iff.mp hd
  split at hd
  · cases hd
  · cases hd
    exact h.parts_not_isExpr hname hparts

end Tree

namespace Analysis

/-- What work on some nodes may do. Of the expressions, it decorates none but those. -/
structure Works (t : Tree) (S : NodeId → Prop) (a b : Analysis) : Prop where
  decor : ∀ x, (t.tag x).isExpr = true → ¬S x → b.decoration x = a.decoration x
  log : a.log.toList <+: b.log.toList
  symbols : a.symbols.Sound → a.symbols.Evolves b.symbols

variable {t : Tree} {S : NodeId → Prop} {n : NodeId} {a b c : Analysis}
variable {roles : Roles} {opened : Bool} {d : Declaration} {depth : Nat}

theorem Works.refl (a : Analysis) : Works t S a a := ⟨fun _ _ _ => rfl, List.prefix_rfl, fun h => h.refl⟩

theorem Works.trans (h : Works t S a b) (h' : Works t S b c) : Works t S a c where
  decor x hx hS := (h'.decor x hx hS).trans (h.decor x hx hS)
  log := h.log.trans h'.log
  symbols hs := (h.symbols hs).trans (h'.symbols (h.symbols hs).sound)

theorem Works.mono {S' : NodeId → Prop} (h : Works t S a b) (hS : ∀ x, S x → S' x) : Works t S' a b :=
  { h with decor := fun x hx hx' => h.decor x hx fun hin => hx' (hS x hin) }

theorem Effect.works (h : Effect n.index (n.index + 1) a b) (hn : (t.tag n).isExpr = true → S n) : Works t S a b where
  decor x hx hS := by
    refine h.decor x ?_
    by_contra hin
    obtain rfl : x = n := congrArg NodeId.mk (by omega)
    exact hS (hn hx)
  log := h.log
  symbols := h.symbols

theorem Effect.worksNowhere (h : Effect 0 0 a b) : Works t S a b :=
  ⟨fun x _ _ => h.decor x (.inr (Nat.zero_le _)), h.log, h.symbols⟩

theorem works_place (a : Analysis) (n : NodeId) (tag : Tag) (hn : S n) : Works t S a (a.place n tag) :=
  (effect_place a tag (Nat.le_refl _) (Nat.lt_succ_self _)).works fun _ => hn

theorem works_useStruct (a : Analysis) (n : NodeId) (tag : Lexeme) (mayLackFields : Bool) (hn : (t.tag n).isExpr = false) :
    Works t S a (a.useStruct n tag mayLackFields) :=
  (effect_useStruct a tag mayLackFields (Nat.le_refl _) (Nat.lt_succ_self _)).works fun h => by simp [hn] at h

theorem works_define (hrole : roles.field = true ∨ roles.isBindable = true)
    (hd : (t.tag d.typeNode).isExpr = false ∧ (t.tag d.nameNode).isExpr = false) (a : Analysis) :
    Works t S a (a.define d roles).2 := by
  have huse : Works t S a (a.useBase d roles.field) := by
    unfold useBase
    split
    · exact works_useStruct a _ _ _ hd.1
    · exact .refl a
  have hdeclare := huse.trans ((effect_declare (a.useBase d roles.field) d.name (.typed d.type roles)
    (Nat.le_refl d.nameNode.index) (Nat.lt_succ_self _)).works fun h => by simp [hd.2] at h)
  have hvoid := hdeclare.trans (effect_refuseVoid _ d roles).worksNowhere
  unfold define
  dsimp only
  split
  · exact hvoid
  · rename_i hfield
    refine hvoid.trans (effect_bind _ roles ?_).worksNowhere
    rw [Declares, symbols_refuseVoid]
    exact declares_declare _ d.nameNode d.name (hrole.resolve_left hfield)

theorem works_defineParams {ds : List Declaration}
    (hds : ∀ d ∈ ds, (t.tag d.typeNode).isExpr = false ∧ (t.tag d.nameNode).isExpr = false) (a : Analysis) :
    Works t S a (defineParams ds a).2 := by
  induction ds generalizing a with
  | nil => exact .refl a
  | cons d ds ih =>
    obtain ⟨hd, hds⟩ := List.forall_mem_cons.mp hds
    have hdefine : Works t S a (a.define d { var := true, param := true, lvalue := true }).2 := works_define (.inr rfl) hd a
    exact hdefine.trans (ih hds _)

theorem works_openFunction {paramList : NodeId} {params : List Declaration}
    (hrole : roles.isBindable = true) (hd : (t.tag d.typeNode).isExpr = false ∧ (t.tag d.nameNode).isExpr = false)
    (hlist : (t.tag paramList).isExpr = false)
    (hparams : ∀ d ∈ params, (t.tag d.typeNode).isExpr = false ∧ (t.tag d.nameNode).isExpr = false) (a : Analysis) :
    Works t S a (a.openFunction d paramList params roles) := by
  let a₁ : Analysis := (a.define d roles).2
  have h₁ : Works t S a a₁ := works_define (.inr hrole) hd a
  let a₂ : Analysis := a₁.enterBlock.2.setBlock paramList a₁.enterBlock.1
  have h₂ : Works t S a₁ a₂ := (effect_enterBlock a₁).worksNowhere.trans
    ((effect_setBlock _ _ (Nat.le_refl paramList.index) (Nat.lt_succ_self _)).works fun h => by simp [hlist] at h)
  let a₃ : Analysis := (defineParams params a₂).2
  have h₃ : Works t S a₂ a₃ := works_defineParams hparams a₂
  have h₄ : Works t S a₃ (a₃.setSymbols
      (a₃.symbols.modify (a.define d roles).1.symbol fun s => { s with params := some (defineParams params a₂).1 })) :=
    (effect_setSymbols a₃ fun h => h.modify _ _ ⟨rfl, .inl rfl, fun _ => rfl, fun _ => rfl⟩).worksNowhere
  have h := h₁.trans (h₂.trans (h₃.trans h₄))
  unfold openFunction
  dsimp only
  split
  · exact h.trans (effect_matchPrototype _ _ _ _).worksNowhere
  · exact h

theorem works_defineFunction (hshape : t.Shaped) (htag : t.tag n = .function ∨ t.tag n = .prototype)
    (hrole : roles.isBindable = true) (h : a.defineFunction t n roles = .ok b) : Works t S a b := by
  obtain ⟨decl, hdecl, h⟩ := bind_eq_ok_iff.mp h
  obtain ⟨paramList, hlist, h⟩ := bind_eq_ok_iff.mp h
  obtain ⟨d, hd, h⟩ := bind_eq_ok_iff.mp h
  obtain ⟨params, hparams, h⟩ := bind_eq_ok_iff.mp h
  have hfits : t.Fits n := hshape.fits (by rcases htag with htag | htag <;> rw [htag] <;> exact Tag.noConfusion)
  obtain ⟨_, hdecl', hisDecl⟩ := hfits.decl (htag.imp_right .inl)
  obtain ⟨_, hlist', hlistTag⟩ := hfits.paramList htag
  cases hdecl.symm.trans hdecl'
  cases hlist.symm.trans hlist'
  have hopen : Works t S a (a.openFunction d paramList params roles) := by
    refine works_openFunction hrole (hisDecl.not_isExpr rfl hd) (by rw [hlistTag]; rfl) (fun e he => ?_) a
    obtain ⟨decl, hmem, he⟩ := exists_of_mem_mapM hparams he
    exact ((hshape.fits (by rw [hlistTag]; exact Tag.noConfusion)).params hlistTag decl hmem).not_isExpr rfl he
  dsimp only at h
  split at h
  · cases h
    exact hopen
  · obtain ⟨body, -, h⟩ := bind_eq_ok_iff.mp h
    split at h
    · cases h
      exact hopen.trans (effect_setSymbols _ fun h => h.recordBlank).worksNowhere
    · cases h
      exact hopen

theorem works_defineStruct (hfits : t.Fits n) (htag : t.tag n = .struct) {accepted : Bool}
    (h : a.defineStruct t n = .ok (accepted, b)) : Works t S a b := by
  obtain ⟨name, hname, h⟩ := bind_eq_ok_iff.mp h
  have hleaf : (t.tag name).isExpr = false := by
    unfold Tree.Fits Tree.Suits at hfits
    split at hfits <;> simp_all [Tree.child, Tree.IsLeaf, Tag.isExpr]
  have hopen : Works t S a (a.openStruct name (t.lexeme name)).2 :=
    (effect_openStruct a _ (Nat.le_refl _) (Nat.lt_succ_self _)).works fun h => by simp [hleaf] at h
  split at h
  · rename_i c hc
    cases h
    rwa [hc] at hopen
  · rename_i id c hc
    obtain ⟨d, hd, h⟩ := bind_eq_ok_iff.mp h
    cases h
    rw [hc] at hopen
    refine hopen.trans (rel_of_foldlM (R := Works t S) .refl .trans (fun {b f c} hf h => ?_) hd)
    obtain ⟨d, hd, h⟩ := bind_eq_ok_iff.mp h
    dsimp only at h
    split at h
    · cases h
      exact (works_define (.inl rfl) ((hfits.fields htag f hf).not_isExpr rfl hd) b).trans
        (effect_addField _ _ _ _).worksNowhere
    · cases h

theorem works_enter (hshape : t.Shaped) (h : a.enter t n = .ok (opened, b)) : Works t (· = n) a b := by
  have hplace : Works t (· = n) a (a.place n (t.tag n)) := works_place a n _ rfl
  unfold enter at h
  split at h <;> rename_i htag
  · obtain ⟨⟨accepted, c⟩, hc, h⟩ := bind_eq_ok_iff.mp h
    have hdefine := hplace.trans (works_defineStruct (hshape.fits (by simp [htag])) htag hc)
    cases h
    cases accepted
    · exact hdefine
    · exact hdefine.trans (effect_queue c _).worksNowhere
  · obtain ⟨c, hc, h⟩ := bind_eq_ok_iff.mp h
    cases h
    exact (hplace.trans (works_defineFunction hshape (.inl htag) rfl hc)).trans (effect_queue c _).worksNowhere
  · obtain ⟨c, hc, h⟩ := bind_eq_ok_iff.mp h
    cases h
    exact hplace.trans (works_defineFunction hshape (.inr htag) rfl hc)
  · have hblock (b : Analysis) (number : Nat) : Works t (· = n) b (b.setBlock n number) :=
      (effect_setBlock b number (Nat.le_refl n.index) (Nat.lt_succ_self _)).works fun _ => rfl
    split at h <;> cases h
    · exact hblock a _
    · exact (effect_enterBlock a).worksNowhere.trans (hblock _ _)
  · cases h
    exact hplace

theorem works_settle (hshape : t.Shaped) (h : a.settle t n = .ok b) : Works t (· = n) a b := by
  unfold settle at h
  split at h <;> rename_i htag
  · cases h
    exact (effect_refer a _ (Nat.le_refl _) (Nat.lt_succ_self _)).works fun _ => rfl
  · obtain ⟨name, hname, h⟩ := bind_eq_ok_iff.mp h
    have hleaf : (t.tag name).isExpr = false := by
      have hfits := hshape.fits (n := n) (by simp [htag])
      unfold Tree.Fits Tree.Suits at hfits
      split at hfits <;> simp_all [Tree.child, Tree.IsLeaf, Tag.isExpr]
    have huse := works_useStruct (S := (· = n)) a name (t.lexeme name) false hleaf
    generalize a.useStruct name (t.lexeme name) false = c at h huse
    cases h
    exact huse.trans ((effect_decorate c _ (Nat.le_refl n.index) (Nat.lt_succ_self _)).works fun _ => rfl)
  · obtain ⟨base, hbase, h⟩ := bind_eq_ok_iff.mp h
    rw [← Except.ok.inj h]
    split
    · rename_i hname
      exact works_useStruct a base _ false (by rw [hname]; rfl)
    · exact .refl a
  · cases h
    exact (effect_queue a _).worksNowhere
  · obtain ⟨decl, hdecl, h⟩ := bind_eq_ok_iff.mp h
    obtain ⟨d, hd, h⟩ := bind_eq_ok_iff.mp h
    obtain ⟨_, hdecl', hisDecl⟩ := (hshape.fits (by simp [htag])).decl (.inr (.inr htag))
    cases hdecl.symm.trans hdecl'
    have hdefine : Works t (· = n) a (a.define d { var := true, lvalue := true }).2 :=
      works_define (.inr rfl) (hisDecl.not_isExpr rfl hd) a
    generalize a.define d { var := true, lvalue := true } = defined at h hdefine
    have hqueue := hdefine.trans (effect_queueGlobal n defined.2).worksNowhere
    cases h
    exact hqueue
  · cases h
    exact .refl a

theorem works_leave (hshape : t.Shaped) (h : a.leave t n opened = .ok b) : Works t (· = n) a b := by
  obtain ⟨c, hsettle, h⟩ := bind_eq_ok_iff.mp h
  cases h
  cases opened
  · exact works_settle hshape hsettle
  · exact (works_settle hshape hsettle).trans (effect_exitBlock c).worksNowhere

theorem works_check (hshape : t.Shaped) (h : a.check t n = .ok b) : Works t (· = n) a b := by
  have happly (c : Analysis) (v : Verdict) : Works t (· = n) c (c.apply n v) :=
    (effect_apply c v (Nat.le_refl _) (Nat.lt_succ_self _)).works fun _ => rfl
  obtain ⟨v, -, h⟩ := bind_eq_ok_iff.mp h
  dsimp only at h
  split at h
  · rename_i htag
    obtain ⟨c, hc, h⟩ := bind_eq_ok_iff.mp h
    obtain ⟨field, hfield, rfl⟩ := map_eq_ok_iff.mp hc
    have hleaf : (t.tag field).isExpr = false := by
      have hfits := hshape.fits (n := n) (by simp [htag])
      unfold Tree.Fits Tree.Suits at hfits
      split at hfits <;> simp_all [Tree.child, Tree.IsLeaf, Tag.isExpr]
    cases h
    exact ((effect_decorate a _ (Nat.le_refl field.index) (Nat.lt_succ_self _)).works fun h => by simp [hleaf] at h).trans
      (happly _ v)
  · cases h
    exact happly a v

theorem enter_of_isExpr (hexpr : (t.tag n).isExpr = true) (h : a.enter t n = .ok (opened, b)) :
    opened = false ∧ b = a.place n (t.tag n) := by
  unfold enter at h
  split at h <;> rename_i htag
  · rw [htag] at hexpr
    cases hexpr
  · rw [htag] at hexpr
    cases hexpr
  · rw [htag] at hexpr
    cases hexpr
  · rw [htag] at hexpr
    cases hexpr
  · cases h
    exact ⟨rfl, rfl⟩

theorem check_eq_apply (hne : t.tag n ≠ .select) (h : a.check t n = .ok b) : ∃ v, a.verdict t n = .ok v ∧ b = a.apply n v := by
  obtain ⟨v, hv, h⟩ := bind_eq_ok_iff.mp h
  rw [if_neg hne] at h
  cases h
  exact ⟨v, hv, rfl⟩

theorem visitWithin_induct {R : Nat → Nat → Analysis → Analysis → Prop} (hnil : ∀ {k m a}, t.Barren k m → R k m a a)
    (hcons : ∀ {k i j m a b c}, k ≤ i → i < j → j ≤ m → t.Barren k i → R i j a b → R j m b c → R k m a c)
    (hnode : ∀ {n k m opened a b c d e f}, t.Spans n k m → a.enter t n = .ok (opened, b) → R k n.index b c →
      R (n.index + 1) m c d → d.leave t n opened = .ok e → e.check t n = .ok f → R k m a f)
    {k m : Nat} (hspan : t.Spans n k m) (hdepth : m ≤ k + depth) (h : visitWithin t depth n a = .ok b) :
    R k m a b := by
  induction depth generalizing n k m a b with
  | zero =>
    have := hspan.bounds
    omega
  | succ depth ih =>
    have hlines {cs : List NodeId} {k m : Nat} {a b : Analysis} (hcs : t.Lines cs k m) (hdepth : m ≤ k + depth)
        (h : cs.foldlM (fun a child => visitWithin t depth child a) a = .ok b) : R k m a b := by
      induction hcs generalizing a with
      | nil _ hgap =>
        cases h
        exact hnil hgap
      | cons hk hgap hc hcs ihcs =>
        rw [List.foldlM_cons] at h
        obtain ⟨c, hfirst, h⟩ := bind_eq_ok_iff.mp h
        have hbounds := hc.bounds
        have hle := hcs.le
        exact hcons hk (by omega) hle hgap (ih hc (by omega) hfirst) (ihcs (by omega) h)
    obtain ⟨⟨opened, c⟩, henter, h⟩ := bind_eq_ok_iff.mp h
    obtain ⟨d, hchildren, h⟩ := bind_eq_ok_iff.mp h
    obtain ⟨e, hleave, hcheck⟩ := bind_eq_ok_iff.mp h
    obtain ⟨cs, cs', hsplit, hbefore, hafter⟩ := hspan.children
    have hbounds := hspan.bounds
    rw [hsplit, List.foldlM_append] at hchildren
    obtain ⟨f, hfirst, hlast⟩ := bind_eq_ok_iff.mp hchildren
    exact hnode hspan henter (hlines hbefore (by omega) hfirst) (hlines hafter (by omega) hlast) hleave hcheck

/-- On the visit of the subtree of a node that starts in the first state, the second node is checked in the second state. -/
inductive Checks (t : Tree) : Nat → NodeId → Analysis → NodeId → Analysis → Prop
  | self {depth : Nat} {n : NodeId} {a b c d : Analysis} {opened : Bool} (henter : a.enter t n = .ok (opened, b))
      (hchildren : (t.children n).foldlM (fun a child => visitWithin t depth child a) b = .ok c)
      (hleave : c.leave t n opened = .ok d) : Checks t (depth + 1) n a n d
  | inside {depth : Nat} {n m child : NodeId} {a b c d : Analysis} {opened : Bool} {before after : List NodeId}
      (henter : a.enter t n = .ok (opened, b)) (hsplit : t.children n = before ++ child :: after)
      (hbefore : before.foldlM (fun a child => visitWithin t depth child a) b = .ok c) (h : Checks t depth child c m d) :
      Checks t (depth + 1) n a m d

theorem exists_checks {m : NodeId} (h : visitWithin t depth n a = .ok b) (hm : m ∈ t.walkWithin depth n) :
    ∃ c, Checks t depth n a m c := by
  induction depth generalizing n a b with
  | zero => cases hm
  | succ depth ih =>
    obtain ⟨⟨opened, c⟩, henter, h⟩ := bind_eq_ok_iff.mp h
    obtain ⟨d, hchildren, h⟩ := bind_eq_ok_iff.mp h
    obtain ⟨e, hleave, -⟩ := bind_eq_ok_iff.mp h
    rcases List.mem_cons.mp hm with rfl | hm
    · exact ⟨e, .self henter hchildren hleave⟩
    · obtain ⟨child, hchild, hm⟩ := List.mem_flatMap.mp hm
      obtain ⟨before, after, hsplit⟩ := List.append_of_mem hchild
      rw [hsplit, List.foldlM_append] at hchildren
      obtain ⟨f, hbefore, hafter⟩ := bind_eq_ok_iff.mp hchildren
      rw [List.foldlM_cons] at hafter
      obtain ⟨g, hvisit, -⟩ := bind_eq_ok_iff.mp hafter
      obtain ⟨c, hc⟩ := ih hvisit hm
      exact ⟨c, .inside henter hsplit hbefore hc⟩

section Kept

variable {P : Analysis → Prop} (henter : ∀ {n opened a b}, P a → a.enter t n = .ok (opened, b) → P b)
  (hleave : ∀ {n opened a b}, P a → a.leave t n opened = .ok b → P b) (hcheck : ∀ {n a b}, P a → a.check t n = .ok b → P b)

include henter hleave hcheck

theorem kept_visitWithin {depth : Nat} (ha : P a) (h : visitWithin t depth n a = .ok b) : P b := by
  induction depth generalizing n a b with
  | zero =>
    cases h
    exact ha
  | succ depth ih =>
    obtain ⟨⟨opened, c⟩, hc, h⟩ := bind_eq_ok_iff.mp h
    obtain ⟨d, hchildren, h⟩ := bind_eq_ok_iff.mp h
    obtain ⟨e, he, hb⟩ := bind_eq_ok_iff.mp h
    have hfold := rel_of_foldlM (R := fun a b => P a → P b) (fun _ => id) (fun h h' => h' ∘ h) (fun _ h ha => ih ha h) hchildren
    exact hcheck (hleave (hfold (henter ha hc)) he) hb

theorem Checks.kept {depth : Nat} {m : NodeId} (h : Checks t depth n a m b) (ha : P a) : P b := by
  have hfold {depth : Nat} {cs : List NodeId} {a b : Analysis} (ha : P a)
      (h : cs.foldlM (fun a child => visitWithin t depth child a) a = .ok b) : P b :=
    rel_of_foldlM (R := fun a b => P a → P b) (fun _ => id) (fun h h' => h' ∘ h)
      (fun _ h ha => kept_visitWithin henter hleave hcheck ha h) h ha
  induction h with
  | self hb hchildren hd => exact hleave (hfold (henter ha hb) hchildren) hd
  | inside hb _ hbefore _ ih => exact ih (hfold (henter ha hb) hbefore)

end Kept

end Analysis

end OcCompiler
