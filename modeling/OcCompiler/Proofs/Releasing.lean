import OcCompiler.Proofs.Effect
import OcCompiler.Proofs.Forest

/-! Releasing a subtree. The walk from a node lists this node and all that is below it, each once. A release turns
    exactly these into what is left of a released node and leaves all else as it was. -/

namespace OcCompiler

namespace Tree

open Relation

variable {t u : Tree} {n m c : NodeId} {depth depth' : Nat}

def Fathomed (t : Tree) : Nat → NodeId → Prop
  | 0, _ => False
  | depth + 1, n => ∀ c ∈ t.children n, t.Fathomed depth c

open Classical in
noncomputable def descendants (t : Tree) (n : NodeId) : Finset Nat := (Finset.range t.size).filter fun i => t.Below ⟨i⟩ n

theorem mem_descendants {i : Nat} : i ∈ t.descendants n ↔ i < t.size ∧ t.Below ⟨i⟩ n := by
  classical simp [descendants]

theorem Linked.parent_of_mem (h : t.Linked) (hc : c ∈ t.children n) : t.parent c = some n := ((h.mem_iff n c).mp hc).1

theorem Linked.mem_of_parent (h : t.Linked) (hc : t.parent c = some n) : c ∈ t.children n :=
  (h.mem_iff n c).mpr ⟨hc, List.not_mem_nil⟩

theorem index_lt_of_parent (h : t.parent c = some n) : c.index < t.size := by
  by_contra hout
  rw [parent, node_eq_absent (Nat.le_of_not_lt hout)] at h
  cases h

theorem index_lt_of_mem (h : c ∈ t.children n) : n.index < t.size := by
  by_contra hout
  rw [children, node_eq_absent (Nat.le_of_not_lt hout)] at h
  cases h

theorem card_descendants_lt (hforest : t.IsForest) (h : t.parent c = some n) :
    (t.descendants c).card < (t.descendants n).card := by
  refine Finset.card_lt_card ⟨fun i hi => ?_, fun hsub => ?_⟩
  · obtain ⟨hi, hbelow⟩ := mem_descendants.mp hi
    exact mem_descendants.mpr ⟨hi, hbelow.tail h⟩
  · have hc : c.index ∈ t.descendants n := mem_descendants.mpr ⟨index_lt_of_parent h, .single h⟩
    exact hforest c (mem_descendants.mp (hsub hc)).2

theorem fathomed_of_card_lt (hlinked : t.Linked) (hforest : t.IsForest) (h : (t.descendants n).card < depth) :
    t.Fathomed depth n := by
  induction depth generalizing n with
  | zero => cases h
  | succ depth ih =>
    intro c hc
    have hless := card_descendants_lt hforest (hlinked.parent_of_mem hc)
    exact ih (by omega)

theorem fathomed_of_size_le (hlinked : t.Linked) (hforest : t.IsForest) (hn : n.index < t.size) (h : t.size ≤ depth) :
    t.Fathomed depth n := by
  have hsub : t.descendants n ⊂ Finset.range t.size :=
    ⟨fun i hi => Finset.mem_range.mpr (mem_descendants.mp hi).1,
      fun hall => hforest n (mem_descendants.mp (hall (Finset.mem_range.mpr hn))).2⟩
  have hcard := Finset.card_lt_card hsub
  rw [Finset.card_range] at hcard
  exact fathomed_of_card_lt hlinked hforest (Nat.lt_of_lt_of_le hcard h)

theorem walkWithin_eq_of_fathomed (h : t.Fathomed depth n) (h' : t.Fathomed depth' n) :
    t.walkWithin depth n = t.walkWithin depth' n := by
  induction depth generalizing depth' n with
  | zero => exact h.elim
  | succ depth ih =>
    cases depth' with
    | zero => exact h'.elim
    | succ depth' =>
      rw [walkWithin, walkWithin, List.flatMap_congr fun c hc => ih (h c hc) (h' c hc)]

theorem walk_eq (hlinked : t.Linked) (hforest : t.IsForest) (hn : n.index < t.size) :
    t.walk n = n :: (t.children n).flatMap t.walk := by
  have hdeep := fathomed_of_size_le hlinked hforest hn (Nat.le_refl _)
  obtain ⟨size, hsize⟩ : ∃ size, t.size = size + 1 := ⟨t.size - 1, by omega⟩
  rw [hsize] at hdeep
  rw [walk, hsize, walkWithin, List.flatMap_congr fun c hc => walkWithin_eq_of_fathomed (hdeep c hc)
    (fathomed_of_size_le hlinked hforest (index_lt_of_parent (hlinked.parent_of_mem hc)) (Nat.le_refl _))]
  rfl

theorem mem_walkWithin_iff (hlinked : t.Linked) (h : t.Fathomed depth n) :
    m ∈ t.walkWithin depth n ↔ ReflTransGen (fun n p => t.parent n = some p) m n := by
  induction depth generalizing n with
  | zero => exact h.elim
  | succ depth ih =>
    rw [walkWithin, List.mem_cons, List.mem_flatMap]
    constructor
    · rintro (rfl | ⟨c, hc, hm⟩)
      · exact .refl
      · exact ((ih (h c hc)).mp hm).tail (hlinked.parent_of_mem hc)
    · intro hup
      rcases hup.cases_tail with rfl | ⟨c, hm, hc⟩
      · exact .inl rfl
      · have hmem := hlinked.mem_of_parent hc
        exact .inr ⟨c, hmem, (ih (h c hmem)).mpr hm⟩

theorem nodup_walkWithin (hlinked : t.Linked) (hforest : t.IsForest) (h : t.Fathomed depth n) :
    (t.walkWithin depth n).Nodup := by
  induction depth generalizing n with
  | zero => exact h.elim
  | succ depth ih =>
    have hapart {c d : NodeId} (hc : c ∈ t.children n) (hd : d ∈ t.children n) (hne : c ≠ d) :
        ¬ReflTransGen (fun n p => t.parent n = some p) c d := by
      intro hcd
      rcases hcd.cases_head with rfl | ⟨p, hp, hpd⟩
      · exact hne rfl
      · cases (hlinked.parent_of_mem hc).symm.trans hp
        exact hforest n (.tail' hpd (hlinked.parent_of_mem hd))
    rw [walkWithin, List.nodup_cons, List.nodup_flatMap]
    refine ⟨fun hn => ?_, fun c hc => ih (h c hc), ?_⟩
    · obtain ⟨c, hc, hn⟩ := List.mem_flatMap.mp hn
      exact hforest n (.tail' ((mem_walkWithin_iff hlinked (h c hc)).mp hn) (hlinked.parent_of_mem hc))
    · refine (hlinked.nodup n).imp_of_mem fun {c d} hc hd hne m hm hm' => ?_
      have hone := (mem_walkWithin_iff hlinked (h c hc)).mp hm
      have htwo := (mem_walkWithin_iff hlinked (h d hd)).mp hm'
      rcases ReflTransGen.total_of_right_unique (fun _ _ _ h h' => Option.some.inj (h.symm.trans h')) hone htwo with h | h
      · exact hapart hc hd hne h
      · exact hapart hd hc hne.symm h

/-- The order in which a stack gives out nodes: the topmost one is taken off, and its children are put in its place. -/
inductive Unstacks (t : Tree) : List NodeId → List NodeId → Prop where
  | empty : Unstacks t [] []
  | pop {n : NodeId} {stack listed : List NodeId} (h : Unstacks t (t.children n ++ stack) listed) :
    Unstacks t (n :: stack) (n :: listed)

theorem unstacks_walk (hlinked : t.Linked) (hforest : t.IsForest) {stack : List NodeId}
    (hstack : ∀ n ∈ stack, n.index < t.size) : t.Unstacks stack (stack.flatMap t.walk) := by
  generalize hlength : (stack.flatMap t.walk).length = length
  induction length using Nat.strong_induction_on generalizing stack with
  | _ length ih =>
    cases stack with
    | nil => exact .empty
    | cons n stack =>
      obtain ⟨hn, hrest⟩ := List.forall_mem_cons.mp hstack
      have hlist : (n :: stack).flatMap t.walk = n :: (t.children n ++ stack).flatMap t.walk := by
        rw [List.flatMap_cons, walk_eq hlinked hforest hn, List.flatMap_append, List.cons_append]
      rw [hlist] at hlength ⊢
      refine .pop (ih _ (hlength ▸ Nat.lt_succ_self _) (fun m hm => ?_) rfl)
      rcases List.mem_append.mp hm with hm | hm
      · exact index_lt_of_parent (hlinked.parent_of_mem hm)
      · exact hrest m hm

def remains (x : Node) : Node := { tag := .released, lexeme := x.lexeme }

theorem walkWithin_congr (h : ∀ m ∈ t.walkWithin depth n, u.children m = t.children m) :
    u.walkWithin depth n = t.walkWithin depth n := by
  induction depth generalizing n with
  | zero => rfl
  | succ depth ih =>
    rw [walkWithin, List.forall_mem_cons] at h
    rw [walkWithin, walkWithin, h.1,
      List.flatMap_congr fun c hc => ih fun m hm => h.2 m (List.mem_flatMap.mpr ⟨c, hc, hm⟩)]

theorem Fathomed.congr (h : t.Fathomed depth n) (hsame : ∀ m ∈ t.walkWithin depth n, u.children m = t.children m) :
    u.Fathomed depth n := by
  induction depth generalizing n with
  | zero => exact h
  | succ depth ih =>
    rw [walkWithin, List.forall_mem_cons] at hsame
    intro c hc
    rw [hsame.1] at hc
    exact ih (h c hc) fun m hm => hsame.2 m (List.mem_flatMap.mpr ⟨c, hc, hm⟩)

theorem node_detach (hp : ∀ p, t.parent n = some p → p.index < t.size ∧ p ≠ n) (hn : n.index < t.size) (m : NodeId) :
    (t.detach n).node m =
      if m = n then { t.node n with parent := none }
      else if t.parent n = some m then { t.node m with children := (t.children m).filter (· ≠ n) } else t.node m := by
  rw [detach]
  cases hparent : t.parent n with
  | none =>
    simp only [reduceCtorEq, if_false]
    split
    · rename_i hm
      rw [hm, ← show (t.node n).parent = none from hparent]
    · rfl
  | some p =>
    obtain ⟨hin, hne⟩ := hp p hparent
    dsimp only
    rw [node_modify (by rwa [setParent, size_modify]), setParent, node_modify hn, node_modify hn, if_neg hne]
    by_cases hm : m = p
    · subst hm
      rw [if_pos rfl, if_neg hne, if_pos rfl]
      rfl
    · rw [if_neg hm]
      split
      · rfl
      · rw [if_neg fun h => hm (Option.some.inj h).symm]

/-- The bound is large enough for the subtree, each of its nodes is met once and none is released. -/
structure Releasable (t : Tree) (depth : Nat) (n : NodeId) : Prop where
  fathomed : t.Fathomed depth n
  nodup : (t.walkWithin depth n).Nodup
  live : ∀ m ∈ t.walkWithin depth n, t.tag m ≠ .released

theorem Releasable.congr (h : t.Releasable depth n) (hchildren : ∀ m ∈ t.walkWithin depth n, u.children m = t.children m)
    (htag : ∀ m ∈ t.walkWithin depth n, u.tag m = t.tag m) : u.Releasable depth n where
  fathomed := h.fathomed.congr hchildren
  nodup := walkWithin_congr hchildren ▸ h.nodup
  live m hm := by
    rw [walkWithin_congr hchildren] at hm
    rw [htag m hm]
    exact h.live m hm

theorem Releasable.mem_self (h : t.Releasable depth n) : n ∈ t.walkWithin depth n := by
  cases depth with
  | zero => exact h.fathomed.elim
  | succ depth => exact List.mem_cons_self

/-- The nodes in `ns`, of which `n` is the topmost, were released, the last one first. The parent of `n` has lost it, and
    nothing else has changed. -/
def Buries (t : Tree) (n : NodeId) (ns : List NodeId) (r : List NodeId × Tree) : Prop :=
  r.1 = ns.reverse ∧ ∀ m, r.2.node m =
    if m ∈ ns then remains (t.node m)
    else if t.parent n = some m then { t.node m with children := (t.children m).filter (· ≠ n) } else t.node m

theorem buries_foldl (hone : ∀ u c, Releasable u depth c → u.parent c = none →
      Buries u c (u.walkWithin depth c) (releaseWithin depth u c)) (cs : List NodeId) (s : List NodeId × Tree)
    (hcs : ∀ c ∈ cs, t.Releasable depth c) (hnodup : (cs.flatMap (t.walkWithin depth)).Nodup)
    (hsame : ∀ m ∈ cs.flatMap (t.walkWithin depth), s.2.node m = t.node m) :
    (cs.foldl (releaseChild depth) s).1 = s.1 ++ cs.flatMap (fun c => (t.walkWithin depth c).reverse) ∧
      ∀ m, (cs.foldl (releaseChild depth) s).2.node m =
        if m ∈ cs.flatMap (t.walkWithin depth) then remains (s.2.node m) else s.2.node m := by
  induction cs generalizing s with
  | nil => exact ⟨(List.append_nil _).symm, fun m => rfl⟩
  | cons c cs ih =>
    obtain ⟨hc, hrest⟩ := List.forall_mem_cons.mp hcs
    rw [List.flatMap_cons, List.nodup_append'] at hnodup
    simp only [List.flatMap_cons, List.forall_mem_append] at hsame
    obtain ⟨hthis, hothers⟩ := hsame
    have hcut (m : NodeId) : (s.2.setParent c none).node m =
        if m = c then { s.2.node c with parent := none } else s.2.node m :=
      node_modify (index_lt_of_tag (by rw [tag, hthis c hc.mem_self]; exact hc.live c hc.mem_self)) _ m
    have hkept {α : Type} (f : Node → α) (hf : ∀ x : Node, f { x with parent := none } = f x) (m : NodeId)
        (hm : m ∈ t.walkWithin depth c) : f ((s.2.setParent c none).node m) = f (t.node m) := by
      rw [hcut, ← hthis m hm]
      split
      · rename_i heq
        rw [hf, heq]
      · rfl
    have hchildren := hkept Node.children fun _ => rfl
    have htop : (s.2.setParent c none).parent c = none := by rw [parent_setParent_none, if_pos rfl]
    obtain ⟨hgone, hnode⟩ := hone _ c (hc.congr hchildren (hkept Node.tag fun _ => rfl)) htop
    simp only [walkWithin_congr hchildren, htop, reduceCtorEq, if_false] at hgone hnode
    have hafter (m : NodeId) : (releaseChild depth s c).2.node m =
        if m ∈ t.walkWithin depth c then remains (s.2.node m) else s.2.node m := by
      rw [releaseChild, hnode, hcut]
      by_cases hm : m = c
      · rw [hm, if_pos hc.mem_self, if_pos hc.mem_self, if_pos rfl]
        rfl
      · rw [if_neg hm]
    obtain ⟨hlist, hnodes⟩ := ih (releaseChild depth s c) hrest hnodup.2.1 fun m hm => by
      rw [hafter, if_neg fun hm' => hnodup.2.2 hm' hm, hothers m hm]
    rw [List.foldl_cons]
    refine ⟨by rw [hlist, releaseChild, hgone, List.flatMap_cons, List.append_assoc], fun m => ?_⟩
    rw [hnodes, hafter, List.flatMap_cons]
    by_cases hm : m ∈ t.walkWithin depth c
    · rw [if_pos hm, if_pos (List.mem_append_left _ hm)]
      split <;> rfl
    · rw [if_neg hm]
      simp only [List.mem_append, hm, false_or]

theorem Releasable.buries (h : t.Releasable depth n)
    (hp : ∀ p, t.parent n = some p → n ∈ t.children p ∧ p ∉ t.walkWithin depth n) :
    Buries t n (t.walkWithin depth n) (releaseWithin depth t n) := by
  induction depth generalizing t n with
  | zero => exact h.fathomed.elim
  | succ depth ih =>
    have hlive := h.live n h.mem_self
    have hn := index_lt_of_tag hlive
    obtain ⟨hself, hnodup⟩ := List.nodup_cons.mp h.nodup
    have hbelow (m : NodeId) : m ∈ (t.children n).reverse.flatMap (t.walkWithin depth) ↔
        m ∈ (t.children n).flatMap (t.walkWithin depth) := by simp
    have hemptied (m : NodeId) : (t.setChildren n []).node m = if m = n then { t.node n with children := [] } else t.node m :=
      node_modify hn _ m
    obtain ⟨hgone, hnode⟩ := buries_foldl (fun u c hc htop => ih hc fun p hp => by rw [htop] at hp; cases hp)
      (t.children n).reverse ([], t.setChildren n [])
      (fun c hc => by
        have hc := List.mem_reverse.mp hc
        exact ⟨h.fathomed c hc, (List.nodup_flatMap.mp hnodup).1 c hc,
          fun m hm => h.live m (List.mem_cons_of_mem _ (List.mem_flatMap.mpr ⟨c, hc, hm⟩))⟩)
      (((List.reverse_perm _).flatMap_right _).nodup_iff.mpr hnodup)
      (fun m hm => (hemptied m).trans (if_neg fun heq : m = n => hself (heq ▸ (hbelow m).mp hm)))
    rw [releaseWithin_succ, if_neg hlive]
    generalize (t.children n).reverse.foldl (releaseChild depth) ([], t.setChildren n []) = below at hgone hnode
    refine ⟨?_, fun m => ?_⟩
    · dsimp only
      rw [hgone, walkWithin, List.reverse_cons, List.reverse_flatMap, List.nil_append]
      rfl
    · simp only [hbelow, hemptied] at hnode
      have htop : below.2.node n = { t.node n with children := [] } := by rw [hnode, if_neg hself, if_pos rfl]
      have hinside : n.index < below.2.size := index_lt_of_tag (by rw [tag, htop]; exact hlive)
      have hparent : below.2.parent n = t.parent n := by rw [parent, htop]; rfl
      have hothers {m : NodeId} (hm : m ∉ t.walkWithin (depth + 1) n) : below.2.node m = t.node m := by
        obtain ⟨hne, hm⟩ := not_or.mp (mt List.mem_cons.mpr hm)
        rw [hnode, if_neg hm, if_neg hne]
      have hdetach := node_detach (t := below.2) (n := n) (fun p hq => by
        obtain ⟨hmem, hout⟩ := hp p (hparent ▸ hq)
        exact ⟨index_lt_of_mem (n := p) (by rw [children, hothers hout]; exact hmem),
          fun heq => hout (heq ▸ h.mem_self)⟩) hinside
      have hstays : n.index < (below.2.detach n).size :=
        index_lt_of_tag (by rw [tag, hdetach, if_pos rfl, htop]; exact hlive)
      dsimp only
      rw [setTag, node_modify hstays, hdetach, hdetach, if_pos rfl, hparent, htop]
      by_cases hm : m = n
      · subst hm
        rw [if_pos rfl, if_pos h.mem_self]
        rfl
      rw [if_neg hm, if_neg hm]
      by_cases hmem : m ∈ t.walkWithin (depth + 1) n
      · rw [if_pos hmem, if_neg fun hq => (hp m hq).2 hmem, hnode, if_neg hm,
          if_pos ((List.mem_cons.mp hmem).resolve_left hm)]
      · rw [if_neg hmem, children, children, hothers hmem]

theorem size_release (t : Tree) (n : NodeId) : (t.release n).2.size = t.size :=
  releaseWithin_rel (R := fun t u => u.size = t.size) (fun _ => rfl) (fun h h' => h'.trans h) (fun _ _ => size_modify ..)
    (fun _ _ => size_modify ..) (fun t n => by unfold detach; split <;> simp [setParent]) (fun _ _ => size_modify ..) _ t n

theorem release_of_released (h : t.tag n = .released) : t.release n = ([], t) := by
  rw [release, releaseWithin_succ, if_pos h]

theorem Linked.releasable (hlinked : t.Linked) (hforest : t.IsForest)
    (hfree : ∀ m, t.tag m = .released → t.parent m = none ∧ t.children m = []) (hn : t.tag n ≠ .released)
    (hdeep : t.Fathomed depth n) : t.Releasable depth n where
  fathomed := hdeep
  nodup := nodup_walkWithin hlinked hforest hdeep
  live m hm := by
    rcases ((mem_walkWithin_iff hlinked hdeep).mp hm).cases_head with rfl | ⟨p, hp, -⟩
    · exact hn
    · intro htag
      rw [(hfree m htag).1] at hp
      cases hp

end Tree

/-! ### What is known of released nodes -/

theorem Analysis.decoration_forget (a : Analysis) (ns : List NodeId) (m : NodeId) :
    (a.forget ns).decoration m = if m ∈ ns then {} else a.decoration m := by
  rw [forget]
  induction ns generalizing a with
  | nil => rfl
  | cons n ns ih =>
    rw [List.foldl_cons, ih, decoration_decorate]
    by_cases hm : m = n <;> simp [hm]

theorem Analysis.forget_eq (a : Analysis) (ns : List NodeId) : a.forget ns = { a with decor := (a.forget ns).decor } := by
  rw [forget]
  induction ns generalizing a with
  | nil => rfl
  | cons n ns ih => exact ih (a.decorate n {})

namespace Tree

/-- The nodes of a subtree, each before its children, as a recursion lists them and as a stack gives them out. -/
structure Lists (t : Tree) (n : NodeId) : Prop where
  recursion : ∀ m ∈ t.walk n, t.walk m = m :: (t.children m).flatMap t.walk
  stack : t.Unstacks [n] (t.walk n)
  nodup : (t.walk n).Nodup
  mem_iff : ∀ m, m ∈ t.walk n ↔ m = n ∨ t.Below m n

end Tree

namespace Workspace

/-- The nodes in `ns`, of which `n` is the topmost, were released. -/
structure Loses (w : Workspace) (n : NodeId) (ns : List NodeId) (w' : Workspace) : Prop where
  released : ∀ m ∈ ns, w'.tree.node m = { tag := .released, lexeme := w.tree.lexeme m, children := [], parent := none } ∧
    w'.analysis.decoration m = {}
  parent : ∀ p, w.tree.parent n = some p →
    w'.tree.node p = { w.tree.node p with children := (w.tree.children p).filter (· ≠ n) }
  others : ∀ m, m ∉ ns → w.tree.parent n ≠ some m → w'.tree.node m = w.tree.node m
  decorations : ∀ m, m ∉ ns → w'.analysis.decoration m = w.analysis.decoration m
  size : w'.tree.size = w.tree.size
  analysis : w'.analysis = { w.analysis with decor := w'.analysis.decor }

/-- In a forest whose links agree and in which no released node is linked, the walk from a node that is not released lists
    its subtree in order and without repetition. A release gives the number of these nodes. They become what is left of
    released nodes, the parent of the topmost one keeps its other children in their order, and all else stays as it was.
    A second release of any of them does nothing. -/
theorem release_exact (w : Workspace) (hlinked : w.tree.Linked) (hforest : w.tree.IsForest)
    (hfree : ∀ m, w.tree.tag m = .released → w.tree.parent m = none ∧ w.tree.children m = []) (n : NodeId)
    (hn : w.tree.tag n ≠ .released) :
    w.tree.Lists n ∧ (w.release n).1 = (w.tree.walk n).length ∧ w.Loses n (w.tree.walk n) (w.release n).2 ∧
      ∀ m ∈ w.tree.walk n, (w.release n).2.release m = (0, (w.release n).2) := by
  have hinside := Tree.index_lt_of_tag hn
  have hdeep := Tree.fathomed_of_size_le hlinked hforest hinside (Nat.le_succ _)
  have hwalk : w.tree.walkWithin (w.tree.size + 1) n = w.tree.walk n :=
    Tree.walkWithin_eq_of_fathomed hdeep (Tree.fathomed_of_size_le hlinked hforest hinside (Nat.le_refl _))
  have hmem (m : NodeId) : m ∈ w.tree.walk n ↔ m = n ∨ w.tree.Below m n := by
    rw [← hwalk, Tree.mem_walkWithin_iff hlinked hdeep, Relation.reflTransGen_iff_eq_or_transGen, eq_comm]
    rfl
  have hable := hlinked.releasable hforest hfree hn hdeep
  obtain ⟨hlist, hnode⟩ := hable.buries fun p hp => by
    refine ⟨hlinked.mem_of_parent hp, fun hq => ?_⟩
    exact hforest n (.head' hp ((Tree.mem_walkWithin_iff hlinked hdeep).mp hq))
  rw [hwalk] at hlist hnode
  have hout (m : NodeId) (hm : m ∈ w.tree.walk n) : m.index < w.tree.size := Tree.index_lt_of_tag (hable.live m (hwalk ▸ hm))
  refine ⟨⟨fun m hm => Tree.walk_eq hlinked hforest (hout m hm), ?_, hwalk ▸ hable.nodup, hmem⟩, ?_, ?_, fun m hm => ?_⟩
  · have hstack := Tree.unstacks_walk hlinked hforest (List.forall_mem_singleton.mpr hinside)
    rwa [List.flatMap_singleton] at hstack
  · exact (congrArg List.length hlist).trans List.length_reverse
  · have hforget (m : NodeId) : (w.release n).2.analysis.decoration m =
        if m ∈ w.tree.walk n then {} else w.analysis.decoration m := by
      refine (w.analysis.decoration_forget (w.tree.release n).1 m).trans ?_
      rw [show (w.tree.release n).1 = _ from hlist]
      simp only [List.mem_reverse]
    refine ⟨fun m hm => ⟨(hnode m).trans (if_pos hm), (hforget m).trans (if_pos hm)⟩, fun p hp => ?_, fun m hm hne => ?_,
      fun m hm => (hforget m).trans (if_neg hm), w.tree.size_release n, w.analysis.forget_eq _⟩
    · refine (hnode p).trans ((if_neg fun hq => ?_).trans (if_pos hp))
      exact hforest n (.head' hp ((Tree.mem_walkWithin_iff hlinked hdeep).mp (hwalk ▸ hq)))
    · exact (hnode m).trans ((if_neg hm).trans (if_neg hne))
  · have htag : (w.release n).2.tree.tag m = .released := congrArg Node.tag ((hnode m).trans (if_pos hm))
    rw [release, Tree.release_of_released htag]
    rfl

/-- A node below the root with two children, of which one is decorated, beside a node that stays. -/
theorem release_exact_pair :
    ∃ w : Workspace, w.tree.walk ⟨1⟩ = [⟨1⟩, ⟨2⟩, ⟨3⟩] ∧ w.tree.children .root = [⟨1⟩, ⟨4⟩] ∧
      w.analysis.decoration ⟨3⟩ = { block := 7 } ∧ w.tree.Lists ⟨1⟩ ∧ (w.release ⟨1⟩).1 = (w.tree.walk ⟨1⟩).length ∧
      w.Loses ⟨1⟩ (w.tree.walk ⟨1⟩) (w.release ⟨1⟩).2 ∧
      ∀ m ∈ w.tree.walk ⟨1⟩, (w.release ⟨1⟩).2.release m = (0, (w.release ⟨1⟩).2) := by
  let node (i : Nat) : TreeOp := .push .block ⟨"b", ⟨0, 1, i⟩⟩
  let ops := [node 0, node 1, node 2, node 3, .adopt ⟨1⟩ ⟨2⟩, .adopt ⟨1⟩ ⟨3⟩, .adopt .root ⟨1⟩, .adopt .root ⟨4⟩]
  have htop (before : List TreeOp) {p : NodeId} (h : (Tree.empty.runAll before).parent p = none) (c : NodeId) :=
    Tree.not_closesCircle_of_top h c
  have hcareful : Tree.empty.Careful ops :=
    ⟨not_false, not_false, not_false, not_false, htop (ops.take 4) (by decide +kernel) _,
      htop (ops.take 5) (by decide +kernel) _, htop (ops.take 6) (by decide +kernel) _,
      htop (ops.take 7) (by decide +kernel) _, trivial⟩
  obtain ⟨t, hlinked, hforest, hwalk, hchildren, hlive⟩ : ∃ t : Tree, t.Linked ∧ t.IsForest ∧
      t.walk ⟨1⟩ = [⟨1⟩, ⟨2⟩, ⟨3⟩] ∧ t.children .root = [⟨1⟩, ⟨4⟩] ∧ ∀ i < t.size, t.tag ⟨i⟩ ≠ .released :=
    ⟨Tree.empty.runAll ops, Tree.linked_empty.changes (Tree.changes_runAll _ ops),
      (Tree.isForest_empty.runAll_iff ops).mpr hcareful ops (List.prefix_refl _), by decide +kernel, by decide +kernel,
      by decide +kernel⟩
  let w : Workspace := ⟨t, ({} : Analysis).decorate ⟨3⟩ { block := 7 }⟩
  have hfree (m : NodeId) (htag : t.tag m = .released) : t.parent m = none ∧ t.children m = [] := by
    have hout := Nat.le_of_not_lt fun hin => hlive m.index hin htag
    rw [Tree.parent, Tree.children, Tree.node_eq_absent hout]
    exact ⟨rfl, rfl⟩
  have hn : t.tag ⟨1⟩ ≠ .released :=
    hlive 1 (Tree.index_lt_of_parent (n := .root) (hlinked.parent_of_mem (by simp [hchildren])))
  exact ⟨w, hwalk, hchildren, rfl, release_exact w hlinked hforest hfree ⟨1⟩ hn⟩

end Workspace

end OcCompiler
