import OcCompiler.Proofs.TableSteps
import OcCompiler.Proofs.Visits

/-! Expressions without a type. Whatever is wrong with a program, an expression is left without a type only if something
    in it is complained about. -/

namespace OcCompiler

open SymbolTable (Steps)

namespace Analysis

def since (a b : Analysis) : List Diagnostic := b.log.toList.drop a.log.size

/-- A node without a type, or a name without a symbol, stands above a node that is complained about, or is such a node. -/
def Excused (t : Tree) (a b : Analysis) (n : NodeId) : Prop :=
  b.typeOf n = none ∨ t.tag n = .name ∧ (b.decoration n).symbol = none →
    ∃ d ∈ a.since b, ∃ m ∈ t.walk n, d.loc = t.loc m

/-- The state in which the nodes from `k` up to `m` can be visited. -/
structure Ready (t : Tree) (a : Analysis) (k m : Nat) : Prop where
  sound : a.symbols.Sound
  typed : a.symbols.Typed
  blank : ∀ n : NodeId, k ≤ n.index → n.index < m → (t.tag n).isExpr = true → a.decoration n = {}
  room : m ≤ t.size

/-- Work on the nodes from `k` up to `m` that excuses all expressions among them. -/
structure Explains (t : Tree) (k m : Nat) (a b : Analysis) : Prop where
  works : Works t (fun x => k ≤ x.index ∧ x.index < m) a b
  steps : Steps a.symbols b.symbols
  excused : Ready t a k m → ∀ n : NodeId, k ≤ n.index → n.index < m → (t.tag n).isExpr = true → Excused t a b n

variable {t : Tree} {S : NodeId → Prop} {a a' b b' c d e : Analysis} {n n' : NodeId} {k m i j : Nat}

theorem mem_since_of_prefix {d : Diagnostic} (h : d ∈ a'.since b) (ha : a.log.toList <+: a'.log.toList)
    (hb : b.log.toList <+: b'.log.toList) : d ∈ a.since b' := by
  obtain ⟨rest, hrest⟩ := hb
  have hsize : a.log.size ≤ a'.log.size := ha.length_le
  rw [since, ← hrest, List.drop_append]
  exact List.mem_append_left _ (List.drop_subset_drop_left _ hsize h)

theorem mem_since_apply {d : Diagnostic} {v : Verdict} (h : a.log.toList <+: b.log.toList) (hd : d ∈ v.reports) :
    d ∈ a.since (b.apply n v) := by
  have hsize : a.log.toList.length ≤ b.log.toList.length := h.length_le
  rw [Array.length_toList] at hsize
  rw [since, log_apply, Array.toList_append, List.drop_append_of_le_length hsize]
  exact List.mem_append_right _ hd

theorem Excused.keep (h : Excused t a' b n) (ha : a.log.toList <+: a'.log.toList) (hb : b.log.toList <+: b'.log.toList)
    (hdecor : b'.decoration n = b.decoration n) : Excused t a b' n := by
  unfold Excused typeOf attrs at h ⊢
  rw [hdecor]
  intro hlacks
  obtain ⟨d, hd, rest⟩ := h hlacks
  exact ⟨d, mem_since_of_prefix hd ha hb, rest⟩

theorem Excused.of_type (hname : t.tag n ≠ .name) {τ : ValueType} (h : b.typeOf n = some τ) : Excused t a b n := by
  rintro (hnone | hsymbol)
  · rw [h] at hnone
    cases hnone
  · exact absurd hsymbol.1 hname

theorem Ready.after (h : Ready t a k m) (hworks : Works t S a b) (hsteps : Steps a.symbols b.symbols) {l r : Nat}
    (hl : k ≤ l) (hr : r ≤ m) (hS : ∀ x : NodeId, l ≤ x.index → x.index < r → ¬S x) : Ready t b l r where
  sound := (hworks.symbols h.sound).sound
  typed := hsteps.typed h.typed
  blank n hlow hhigh hexpr :=
    (hworks.decor n hexpr (hS n hlow hhigh)).trans (h.blank n (by omega) (by omega) hexpr)
  room := Nat.le_trans hr h.room

theorem excused_refer {x : Lexeme} (hsound : a.symbols.Sound) (htyped : a.symbols.Typed) (hwalk : n ∈ t.walk n)
    (hloc : t.loc n = x.loc) : Excused t a (a.refer n x) n := by
  unfold refer
  split
  · rename_i id hid
    obtain ⟨τ, hτ⟩ := htyped.type (hsound.lookup_lt hid)
    unfold Excused typeOf attrs
    simp [hτ]
  · intro _
    refine ⟨SemanticCause.undeclared.about x, ?_, n, hwalk, hloc.symm⟩
    simp [since, report, decorate]

theorem Excused.of_verdict {v : Verdict} (hname : t.tag n ≠ .name) (hlog : a.log.toList <+: b.log.toList)
    (h : v.type = none → (∃ d ∈ a.since b, ∃ m ∈ t.walk n, d.loc = t.loc m) ∨
      ∃ d ∈ v.reports, ∃ m ∈ t.walk n, d.loc = t.loc m) : Excused t a (b.apply n v) n := by
  rintro (hnone | hsymbol)
  · rw [typeOf_apply, Option.or_eq_none_iff] at hnone
    rcases h hnone.1 with ⟨d, hd, hm⟩ | ⟨d, hd, hm⟩
    · exact ⟨d, mem_since_of_prefix hd List.prefix_rfl (effect_apply b v (Nat.le_refl _) (Nat.lt_succ_self _)).log, hm⟩
    · exact ⟨d, mem_since_apply hlog hd, hm⟩
  · exact absurd hsymbol.1 hname

section Verdicts

variable {a : Analysis}

theorem callVerdict_untyped {callee : NodeId} {args : List NodeId} {name : Lexeme}
    (h : (a.callVerdict callee args name).type = none) :
    (a.decoration callee).symbol = none ∨ a.typeOf callee = none ∨
      ∃ d ∈ (a.callVerdict callee args name).reports, d.loc = name.loc := by
  unfold callVerdict at h ⊢
  dsimp only at h ⊢
  split at h
  · exact .inl ‹_›
  · split at h
    · exact .inr (.inl h)
    · rename_i hrole
      rw [if_neg hrole]
      exact .inr (.inr ⟨_, List.mem_singleton_self _, rfl⟩)

theorem indexVerdict_untyped {base subscript : NodeId} {bracket : Lexeme}
    (h : (a.indexVerdict base subscript bracket).type = none) :
    a.typeOf base = none ∨ ∃ d ∈ (a.indexVerdict base subscript bracket).reports, d.loc = bracket.loc := by
  unfold indexVerdict Verdict.index at h ⊢
  dsimp only at h ⊢
  split at h
  · exact .inl (Option.map_eq_none_iff.mp ‹_›)
  · cases h
  · exact .inr ⟨_, List.mem_cons_self, rfl⟩

theorem selectVerdict_untyped (hsound : a.symbols.Sound) (htyped : a.symbols.Typed) {object : NodeId} {dot field : Lexeme}
    (h : (a.selectVerdict object dot field).type = none) :
    a.typeOf object = none ∨
      ∃ d ∈ (a.selectVerdict object dot field).reports, d.loc = dot.loc ∨ d.loc = field.loc := by
  unfold selectVerdict at h ⊢
  split at h
  · exact .inl ‹_›
  · split at h
    · rename_i tag _ _ struct x loc block attrs fields params hstruct
      split at h
      · rename_i id hid
        obtain ⟨s, hs, hget⟩ := Option.map_eq_some_iff.mp hstruct
        have hin : s.index < a.symbols.size := (hsound.structs _ (SymbolTable.mem_of_lookup hs)).1
        obtain ⟨τ, hτ⟩ := htyped.field hin (hget ▸ hid)
        rw [hτ] at h
        cases h
      · exact .inr ⟨_, List.mem_singleton_self _, .inr rfl⟩
    · exact .inr ⟨_, List.mem_singleton_self _, .inr rfl⟩
  · exact .inr ⟨_, List.mem_singleton_self _, .inl rfl⟩

end Verdicts

theorem Tag.exists_initialType {tag : Tag}
    (h : (∃ c, tag = .constant c) ∨ (∃ op, tag = .unary op) ∨ tag = .newString ∨
      ∃ op, op ≠ .assign ∧ tag = .binary op) : ∃ τ, tag.initialAttributes.type = some τ := by
  rcases h with ⟨c, rfl⟩ | ⟨op, rfl⟩ | rfl | ⟨op, hop, rfl⟩
  · rcases c with (_ | _ | _) | _ | _ <;> exact ⟨_, rfl⟩
  · cases op <;> exact ⟨_, rfl⟩
  · exact ⟨_, rfl⟩
  · cases op with
    | assign => exact absurd rfl hop
    | compare c => exact ⟨_, rfl⟩
    | arith o => exact ⟨_, rfl⟩

theorem excused_node (hshape : t.Shaped) (hspan : t.Spans n k m) (hroom : m ≤ t.size) (hexpr : (t.tag n).isExpr = true)
    (hsound : c.symbols.Sound) (htyped : c.symbols.Typed) (hlog : a.log.toList <+: c.log.toList)
    (hplaced : c.attrs n = (t.tag n).initialAttributes)
    (hchildren : ∀ x ∈ t.children n, (t.tag x).isExpr = true → Excused t a c x) (hsettle : c.settle t n = .ok d)
    (hcheck : d.check t n = .ok e) : Excused t a e n := by
  have hself : n ∈ t.walk n := Tree.mem_walk_self (Nat.lt_of_lt_of_le hspan.bounds.2 hroom)
  have hfits : t.Fits n := hshape.fits fun htag => by rw [htag] at hexpr; cases hexpr
  -- An operand that lacks its type or its symbol was complained about.
  have hpart (htag : t.tag n = .call ∨ t.tag n = .index ∨ t.tag n = .select ∨ ∃ op, t.tag n = .binary op) {x : NodeId}
      (hx : t.child n 0 = .ok x) (hlacks : c.typeOf x = none ∨ t.tag x = .name ∧ (c.decoration x).symbol = none) :
      ∃ d ∈ a.since c, ∃ m ∈ t.walk n, d.loc = t.loc m := by
    have hmem := Tree.mem_children_of_child hx
    obtain ⟨d, hd, m, hm, hloc⟩ := hchildren x hmem (hfits.isExpr_first htag hx).1 hlacks
    exact ⟨d, hd, m, hspan.walk_subset hroom hmem hm, hloc⟩
  have hkeeps {τ : ValueType} (hname : t.tag n ≠ .name) (hne : t.tag n ≠ .select) (hτ : d.typeOf n = some τ) :
      Excused t a e n := by
    obtain ⟨v, -, rfl⟩ := check_eq_apply hne hcheck
    have htype := typeOf_apply d n v
    rw [hτ] at htype
    cases hv : v.type with
    | none | some => exact .of_type hname (htype.trans (by rw [hv]; rfl))
  have hfixed {τ : ValueType} (hname : t.tag n ≠ .name) (hne : t.tag n ≠ .select) (hd : d.attrs n = c.attrs n)
      (hτ : (t.tag n).initialAttributes.type = some τ) : Excused t a e n :=
    hkeeps hname hne (by rw [typeOf, hd, hplaced, hτ])
  unfold settle at hsettle
  match htag : t.tag n with
  | .name =>
    rw [htag] at hsettle
    cases hsettle
    obtain ⟨v, hv, rfl⟩ := check_eq_apply (by simp [htag]) hcheck
    unfold verdict at hv
    rw [htag] at hv
    cases hv
    exact (excused_refer hsound htyped hself rfl).keep hlog List.prefix_rfl rfl
  | .constant x =>
    obtain ⟨τ, hτ⟩ := Tag.exists_initialType (.inl ⟨x, htag⟩)
    refine hfixed (by simp [htag]) (by simp [htag]) ?_ hτ
    rw [htag] at hsettle
    rcases x with (_ | _ | _) | _ | _ <;> cases hsettle <;> rfl
  | .unary op =>
    rw [htag] at hsettle
    cases hsettle
    obtain ⟨τ, hτ⟩ := Tag.exists_initialType (.inr (.inl ⟨op, htag⟩))
    exact hfixed (by simp [htag]) (by simp [htag]) rfl hτ
  | .newString =>
    rw [htag] at hsettle
    cases hsettle
    obtain ⟨τ, hτ⟩ := Tag.exists_initialType (.inr (.inr (.inl htag)))
    exact hfixed (by simp [htag]) (by simp [htag]) rfl hτ
  | .newStruct =>
    rw [htag] at hsettle
    obtain ⟨name, -, hsettle⟩ := bind_eq_ok_iff.mp hsettle
    generalize c.useStruct name _ _ = used at hsettle
    cases hsettle
    have htype : (used.setAttrs n (.typed (.struct (t.text name)) { vreg := true })).typeOf n = some (.struct (t.text name)) := by
      rw [typeOf, attrs, setAttrs, decoration_decorate, if_pos rfl]
      rfl
    exact hkeeps (by simp [htag]) (by simp [htag]) htype
  | .newArray =>
    rw [htag] at hsettle
    have hne : t.tag n ≠ .select := by simp [htag]
    obtain ⟨v, hv, rfl⟩ := check_eq_apply hne hcheck
    unfold verdict at hv
    rw [htag] at hv
    obtain ⟨base, -, hv⟩ := bind_eq_ok_iff.mp hv
    obtain ⟨length, -, hv⟩ := bind_eq_ok_iff.mp hv
    split at hv
    · cases hv
    · cases hv
      exact .of_type (by simp [htag]) (typeOf_apply _ _ _)
  | .binary op =>
    rw [htag] at hsettle
    cases hsettle
    have hname : t.tag n ≠ .name := by simp [htag]
    have hne : t.tag n ≠ .select := by simp [htag]
    by_cases hop : op = .assign
    · subst hop
      obtain ⟨v, hv, rfl⟩ := check_eq_apply hne hcheck
      unfold verdict at hv
      rw [htag] at hv
      obtain ⟨left, hleft, hv⟩ := bind_eq_ok_iff.mp hv
      obtain ⟨right, -, hv⟩ := bind_eq_ok_iff.mp hv
      cases hv
      exact .of_verdict hname hlog fun hnone => .inl (hpart (.inr (.inr (.inr ⟨_, htag⟩))) hleft (.inl hnone))
    · obtain ⟨τ, hτ⟩ := Tag.exists_initialType (.inr (.inr (.inr ⟨op, hop, htag⟩)))
      exact hfixed hname hne rfl hτ
  | .call =>
    rw [htag] at hsettle
    cases hsettle
    obtain ⟨v, hv, rfl⟩ := check_eq_apply (by simp [htag]) hcheck
    unfold verdict at hv
    rw [htag] at hv
    obtain ⟨callee, hcallee, hv⟩ := bind_eq_ok_iff.mp hv
    cases hv
    refine .of_verdict (by simp [htag]) hlog fun hnone => ?_
    rcases callVerdict_untyped hnone with hsymbol | htype | ⟨d, hd, hloc⟩
    · exact .inl (hpart (.inl htag) hcallee (.inr ⟨(hfits.isExpr_first (.inl htag) hcallee).2 htag, hsymbol⟩))
    · exact .inl (hpart (.inl htag) hcallee (.inl htype))
    · exact .inr ⟨d, hd, callee, hspan.mem_walk hroom (Tree.mem_children_of_child hcallee), hloc⟩
  | .index =>
    rw [htag] at hsettle
    cases hsettle
    obtain ⟨v, hv, rfl⟩ := check_eq_apply (by simp [htag]) hcheck
    unfold verdict at hv
    rw [htag] at hv
    obtain ⟨base, hbase, hv⟩ := bind_eq_ok_iff.mp hv
    obtain ⟨subscript, -, hv⟩ := bind_eq_ok_iff.mp hv
    cases hv
    refine .of_verdict (by simp [htag]) hlog fun hnone => ?_
    rcases indexVerdict_untyped hnone with htype | ⟨d, hd, hloc⟩
    · exact .inl (hpart (.inr (.inl htag)) hbase (.inl htype))
    · exact .inr ⟨d, hd, n, hself, hloc⟩
  | .select =>
    rw [htag] at hsettle
    cases hsettle
    obtain ⟨v, hv, hcheck⟩ := bind_eq_ok_iff.mp hcheck
    rw [if_pos htag] at hcheck
    obtain ⟨b, hb, hcheck⟩ := bind_eq_ok_iff.mp hcheck
    obtain ⟨x, hx, rfl⟩ := map_eq_ok_iff.mp hb
    cases hcheck
    unfold verdict at hv
    rw [htag] at hv
    obtain ⟨object, hobject, hv⟩ := bind_eq_ok_iff.mp hv
    obtain ⟨field, hfield, hv⟩ := bind_eq_ok_iff.mp hv
    cases hv
    refine .of_verdict (b := c.markField x) (by simp [htag]) hlog fun hnone => ?_
    rcases selectVerdict_untyped hsound htyped hnone with htype | ⟨d, hd, hloc⟩
    · exact .inl (hpart (.inr (.inr (.inl htag))) hobject (.inl htype))
    · rcases hloc with hloc | hloc
      · exact .inr ⟨d, hd, n, hself, hloc⟩
      · exact .inr ⟨d, hd, field, hspan.mem_walk hroom (Tree.mem_children_of_child hfield), hloc⟩
  | .root | .struct | .function | .prototype | .paramList | .block | .varDecl | .array | .scalar _ | .typeName | .declName
  | .field | .whileLoop | .ifThen | .ifElse | .returnValue | .returnVoid | .semicolon | .released =>
    rw [htag] at hexpr
    cases hexpr

theorem explains_nil (hgap : t.Barren k m) : Explains t k m a a where
  works := .refl a
  steps := .refl _
  excused _ n hlow hhigh hexpr := by
    rw [hgap n hlow hhigh] at hexpr
    cases hexpr

theorem explains_cons (hk : k ≤ i) (hij : i < j) (hm : j ≤ m) (hgap : t.Barren k i) (hfirst : Explains t i j a b)
    (hrest : Explains t j m b c) : Explains t k m a c where
  works := (hfirst.works.mono fun x hx => by omega).trans (hrest.works.mono fun x hx => by omega)
  steps := hfirst.steps.trans hrest.steps
  excused hready n hlow hhigh hexpr := by
    by_cases hn : n.index < i
    · rw [hgap n hlow hn] at hexpr
      cases hexpr
    by_cases hn' : n.index < j
    · have hready' : Ready t a i j := { hready with
        blank := fun x hx hx' => hready.blank x (by omega) (by omega), room := Nat.le_trans hm hready.room }
      exact (hfirst.excused hready' n (by omega) hn' hexpr).keep List.prefix_rfl hrest.works.log
        (hrest.works.decor n hexpr (by omega))
    · have hready' := hready.after hfirst.works hfirst.steps (l := j) (by omega) (Nat.le_refl m) fun x hx _ => by omega
      exact (hrest.excused hready' n (by omega) hhigh hexpr).keep hfirst.works.log List.prefix_rfl rfl

theorem explains_node (hshape : t.Shaped) {opened : Bool} {f : Analysis} (hspan : t.Spans n k m)
    (henter : a.enter t n = .ok (opened, b)) (hbefore : Explains t k n.index b c) (hafter : Explains t (n.index + 1) m c d)
    (hleave : d.leave t n opened = .ok e) (hcheck : e.check t n = .ok f) : Explains t k m a f := by
  have hbounds := hspan.bounds
  have hentered := works_enter hshape henter
  have hleft := works_leave hshape hleave
  have hchecked := works_check hshape hcheck
  have hchildren : Works t (fun x => x ≠ n ∧ k ≤ x.index ∧ x.index < m) b d := by
    refine (hbefore.works.mono fun x hx => ⟨?_, by omega⟩).trans (hafter.works.mono fun x hx => ⟨?_, by omega⟩) <;>
      · rintro rfl
        omega
  have hsteps := (steps_enter henter).trans (hbefore.steps.trans hafter.steps)
  have hend := hleft.trans hchecked
  have hself {x : NodeId} (hx : x = n) : k ≤ x.index ∧ x.index < m := hx ▸ hbounds
  refine ⟨((hentered.mono fun _ => hself).trans (hchildren.mono fun x hx => hx.2)).trans (hend.mono fun _ => hself), ?_, ?_⟩
  · refine hsteps.trans ?_
    rw [symbols_check hcheck]
    obtain ⟨g, hsettle, hleave⟩ := bind_eq_ok_iff.mp hleave
    cases hleave
    cases opened
    · exact (plain_settle hsettle).steps
    · exact (plain_settle hsettle).steps.step .exitBlock
  · intro hready
    have hreadyBefore : Ready t b k n.index :=
      hready.after hentered (steps_enter henter) (Nat.le_refl k) (by omega) fun x _ hx heq => by subst heq; omega
    have hreadyAfter : Ready t c (n.index + 1) m :=
      (hready.after hentered (steps_enter henter) (by omega) (Nat.le_refl m) fun x hx _ heq => by subst heq; omega).after
        hbefore.works hbefore.steps (Nat.le_refl _) (Nat.le_refl m) fun x hx _ => by omega
    have hothers (x : NodeId) (hlow : k ≤ x.index) (hhigh : x.index < m) (hne : x.index ≠ n.index)
        (hexpr : (t.tag x).isExpr = true) : Excused t a d x := by
      rcases Nat.lt_or_gt_of_ne hne with hlt | hgt
      · exact (hbefore.excused hreadyBefore x hlow hlt hexpr).keep hentered.log hafter.works.log
          (hafter.works.decor x hexpr (by omega))
      · exact (hafter.excused hreadyAfter x hgt hhigh hexpr).keep (hentered.log.trans hbefore.works.log) List.prefix_rfl rfl
    intro x hlow hhigh hexpr
    by_cases hx : x = n
    · subst hx
      obtain ⟨rfl, rfl⟩ := enter_of_isExpr hexpr henter
      obtain ⟨g, hsettle, hleave⟩ := bind_eq_ok_iff.mp hleave
      cases hleave
      have hdecor := hchildren.decor x hexpr fun hne => hne.1 rfl
      refine excused_node hshape hspan hready.room hexpr ((hchildren.symbols ((hentered.symbols hready.sound).sound)).sound)
        (hsteps.typed hready.typed) (hentered.log.trans hchildren.log) ?_ (fun y hy hexpr => ?_) hsettle hcheck
      · rw [attrs, hdecor]
        exact attrs_place (hready.blank x hlow hhigh hexpr) _
      · obtain ⟨i, j, hchild, hi, hj, hdisj⟩ := hspan.child hy
        have := hchild.bounds
        exact hothers y (by omega) (by omega) (by omega) hexpr
    · have hne : x.index ≠ n.index := fun heq => hx (congrArg NodeId.mk heq)
      exact (hothers x hlow hhigh hne hexpr).keep List.prefix_rfl hend.log (hend.decor x hexpr hx)

/-- Every expression of a program that was read either has a type after the analysis, or the analysis complains about a
    place in it. -/
theorem untyped_diagnosed {tokens : List Token} {root : NodeId} {t : Tree} (h : Tree.empty.parse tokens = (.ok root, t))
    (log : Log) : ∃ a added, ofTree t log = .ok a ∧ a.log.toList = log.toList ++ added ∧
      ∀ n : NodeId, n.index < t.size → (t.tag n).isExpr = true → a.typeOf n = none →
        ∃ d ∈ added, ∃ m ∈ t.walk n, d.loc = t.loc m := by
  obtain ⟨-, hshows, hsize⟩ := Tree.parse_shows h
  have hshape := (Tree.wellShaped_of_parse h (List.Subset.refl _)).shaped
  have hspan : t.Spans .root 0 t.size := ⟨none, _, hshows, rfl, by rw [hsize, Nat.zero_add]⟩
  obtain ⟨a, ha, -⟩ := visitWithin_ends hshape t.size .root (a := { log }) SymbolTable.tagsKnown_empty
  have hexplains := visitWithin_induct (R := Explains t) explains_nil explains_cons (explains_node hshape) hspan
    (Nat.le_add_left _ _) ha
  obtain ⟨added, hadded⟩ := hexplains.works.log
  have hready : Ready t { log } 0 t.size :=
    ⟨SymbolTable.sound_empty, SymbolTable.typed_empty, fun _ _ _ _ => rfl, Nat.le_refl _⟩
  refine ⟨a, added, ha, hadded.symm, fun n hn hexpr huntyped => ?_⟩
  obtain ⟨d, hd, hm⟩ := hexplains.excused hready n (Nat.zero_le _) hn hexpr (.inl huntyped)
  have hnew : added = (log.toList ++ added).drop log.toList.length := List.drop_left.symm
  exact ⟨d, by rwa [hnew, hadded], hm⟩

/-- An unknown field that is indexed and assigned to, an unknown function, a field of a void call and a field of an
    element of what is no array: nine expressions without a type, and four complaints. -/
theorem untyped_diagnosed_fields :
    ∃ tokens t a, Tree.empty.parse tokens = (.ok .root, t) ∧ ofTree t #[] = .ok a ∧
      (List.range t.size).filter (fun i => (t.tag ⟨i⟩).isExpr && (a.typeOf ⟨i⟩).isNone) =
        [12, 14, 16, 17, 18, 25, 27, 29, 31] ∧
      a.log.size = 4 ∧ ∀ n : NodeId, n.index < t.size → (t.tag n).isExpr = true → a.typeOf n = none →
        ∃ d ∈ a.log.toList, ∃ m ∈ t.walk n, d.loc = t.loc m := by
  have hread : passes ("struct s \x7b int x; \x7d\n" ++
      "void f(s a) \x7b a.y[0] = g(1) + 2; (f(a)).z = a[0].x; \x7d") (fun t a =>
        (List.range t.size).filter (fun i => (t.tag ⟨i⟩).isExpr && (a.typeOf ⟨i⟩).isNone) =
          [12, 14, 16, 17, 18, 25, 27, 29, 31] ∧ a.log.size = 4) = true := by
    decide +kernel
  obtain ⟨s, root, t, a, -, h, ha, hread⟩ := exists_of_passes hread
  obtain ⟨huntyped, hsize⟩ := of_decide_eq_true hread
  obtain ⟨b, added, hb, hadded, hdiagnosed⟩ := untyped_diagnosed h #[]
  cases ha.symm.trans hb
  obtain rfl : a.log.toList = added := hadded
  exact ⟨s.tokens, t, a, (Tree.parse_shows h).1 ▸ h, ha, huntyped, hsize, hdiagnosed⟩

end Analysis

end OcCompiler
