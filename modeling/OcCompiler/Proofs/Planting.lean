import OcCompiler.Program.Parse
import OcCompiler.Token.Stream
import OcCompiler.Tree.Parse

/-! How a planted sapling lies in a tree. Its nodes get consecutive numbers (`top`, `tops`), and `Shows` says that a
    tree has them at those numbers. Main statement: the tree of a program that was read to its end shows the program. -/

namespace OcCompiler

namespace Sapling

mutual

def size : Sapling → Nat
  | .node _ _ before after => sizes before + 1 + sizes after
  | .spent _ => 1

def sizes : List Sapling → Nat
  | [] => 0
  | s :: ss => s.size + sizes ss

end

mutual

def depth : Sapling → Nat
  | .node _ _ before after => max (depths before) (depths after) + 1
  | .spent _ => 0

def depths : List Sapling → Nat
  | [] => 0
  | s :: ss => max s.depth (depths ss)

end

/-- The topmost node, if the first node of the sapling has number `k`. A spent node is nobody's child. -/
def top (k : Nat) : Sapling → Option NodeId
  | .node _ _ before _ => some ⟨k + sizes before⟩
  | .spent _ => none

/-- The topmost nodes of saplings that are planted one after the other. -/
def tops (k : Nat) : List Sapling → List NodeId
  | [] => []
  | s :: ss => (s.top k).toList ++ tops (k + s.size) ss

mutual

/-- The nodes of a sapling whose first node has number `k`, each before its children. -/
def walk (k : Nat) : Sapling → List NodeId
  | .node _ _ before after => ⟨k + sizes before⟩ :: (walks k before ++ walks (k + sizes before + 1) after)
  | .spent _ => []

def walks (k : Nat) : List Sapling → List NodeId
  | [] => []
  | s :: ss => s.walk k ++ walks (k + s.size) ss

end

theorem sizes_append (ss ss' : List Sapling) : sizes (ss ++ ss') = sizes ss + sizes ss' := by
  induction ss with
  | nil => simp [sizes]
  | cons s ss ih => simp only [List.cons_append, sizes, ih]; omega

theorem tops_append (k : Nat) (ss ss' : List Sapling) : tops k (ss ++ ss') = tops k ss ++ tops (k + sizes ss) ss' := by
  induction ss generalizing k with
  | nil => simp [tops, sizes]
  | cons s ss ih => simp [tops, sizes, ih, Nat.add_assoc]

mutual

theorem depth_le_size : ∀ s : Sapling, s.depth ≤ s.size
  | .node _ _ before after => by
    have hb := depths_le_sizes before
    have ha := depths_le_sizes after
    simp only [depth, size]
    omega
  | .spent _ => by simp [depth]

theorem depths_le_sizes : ∀ ss : List Sapling, depths ss ≤ sizes ss
  | [] => by simp [depths]
  | s :: ss => by
    have hs := depth_le_size s
    have hss := depths_le_sizes ss
    simp only [depths, sizes]
    omega

end

theorem top_bounds {s : Sapling} {k : Nat} {n : NodeId} (h : s.top k = some n) : k ≤ n.index ∧ n.index < k + s.size := by
  cases s with
  | node tag lexeme before after =>
    cases h
    simp only [size]
    omega
  | spent lexeme => cases h

theorem tops_bounds {ss : List Sapling} {k : Nat} {n : NodeId} (h : n ∈ tops k ss) :
    k ≤ n.index ∧ n.index < k + sizes ss := by
  induction ss generalizing k with
  | nil => cases h
  | cons s ss ih =>
    simp only [tops, List.mem_append, Option.mem_toList] at h
    simp only [sizes]
    rcases h with h | h
    · have := top_bounds h
      omega
    · have := ih h
      omega

theorem nodup_tops (k : Nat) (ss : List Sapling) : (tops k ss).Nodup := by
  induction ss generalizing k with
  | nil => exact List.nodup_nil
  | cons s ss ih =>
    rw [tops, List.nodup_append]
    refine ⟨by cases s.top k <;> simp, ih _, ?_⟩
    rintro n hn m hm rfl
    have := top_bounds (Option.mem_toList.mp hn)
    have := tops_bounds hm
    omega

mutual

/-- No node is released, apart from those that are spent. -/
def Sound : Sapling → Prop
  | .node tag _ before after => tag ≠ .released ∧ SoundAll before ∧ SoundAll after
  | .spent _ => True

def SoundAll : List Sapling → Prop
  | [] => True
  | s :: ss => s.Sound ∧ SoundAll ss

end

theorem soundAll_append {ss ss' : List Sapling} : SoundAll (ss ++ ss') ↔ SoundAll ss ∧ SoundAll ss' := by
  induction ss with
  | nil => simp [SoundAll]
  | cons s ss ih => simp [SoundAll, ih, and_assoc]

theorem sound_leaf {tag : Tag} {lexeme : Lexeme} (h : tag ≠ .released) : (leaf tag lexeme).Sound := ⟨h, trivial, trivial⟩

end Sapling

namespace Tree

open Sapling (sizes top tops walks)

variable {t t' u : Tree} {k : Nat} {parent parent' : Option NodeId} {n : NodeId}

theorem node_eq_absent (h : t.size ≤ n.index) : t.node n = .absent := by
  rw [node, Array.getD_eq_getD_getElem?, Array.getElem?_eq_none h, Option.getD_none]

theorem index_lt_of_tag (h : t.tag n ≠ .released) : n.index < t.size :=
  Nat.lt_of_not_le fun hout => h (by rw [tag, node_eq_absent hout]; rfl)

mutual

/-- The nodes from number `k` on are those of the sapling, and its topmost node has the given parent. -/
def Shows (t : Tree) (parent : Option NodeId) (k : Nat) : Sapling → Prop
  | .node tag lexeme before after =>
    t.node ⟨k + sizes before⟩ =
        { tag, lexeme, parent, children := tops k before ++ tops (k + sizes before + 1) after } ∧
      ShowsAll t (some ⟨k + sizes before⟩) k before ∧
      ShowsAll t (some ⟨k + sizes before⟩) (k + sizes before + 1) after
  | .spent lexeme => t.node ⟨k⟩ = { tag := .released, lexeme }

/-- The nodes from number `k` on are those of the saplings, which all have the same parent. -/
def ShowsAll (t : Tree) (parent : Option NodeId) (k : Nat) : List Sapling → Prop
  | [] => True
  | s :: ss => t.Shows parent k s ∧ ShowsAll t parent (k + s.size) ss

end

theorem showsAll_append {ss ss' : List Sapling} :
    t.ShowsAll parent k (ss ++ ss') ↔ t.ShowsAll parent k ss ∧ t.ShowsAll parent (k + sizes ss) ss' := by
  induction ss generalizing k with
  | nil => simp [ShowsAll, sizes]
  | cons s ss ih => simp only [List.cons_append, ShowsAll, ih, sizes, Nat.add_assoc, and_assoc]

mutual

theorem Shows.congr {t t' : Tree} {parent : Option NodeId} {k : Nat} {s : Sapling} (h : t.Shows parent k s)
    (hagree : ∀ m : NodeId, k ≤ m.index → m.index < k + s.size → t'.node m = t.node m) : t'.Shows parent k s := by
  match s, h, hagree with
  | .node tag lexeme before after, ⟨hnode, hbefore, hafter⟩, hagree =>
    simp only [Sapling.size] at hagree
    refine ⟨?_, ?_, ?_⟩
    · rw [hagree _ (by simp) (by simp; omega)]
      exact hnode
    · exact hbefore.congr fun m _ _ => hagree m (by omega) (by omega)
    · exact hafter.congr fun m _ _ => hagree m (by omega) (by omega)
  | .spent lexeme, h, hagree =>
    unfold Shows at h ⊢
    rw [hagree ⟨k⟩ (Nat.le_refl k) (by simp [Sapling.size])]
    exact h

theorem ShowsAll.congr {t t' : Tree} {parent : Option NodeId} {k : Nat} {ss : List Sapling}
    (h : t.ShowsAll parent k ss)
    (hagree : ∀ m : NodeId, k ≤ m.index → m.index < k + sizes ss → t'.node m = t.node m) :
    t'.ShowsAll parent k ss := by
  match ss, h, hagree with
  | [], _, _ => trivial
  | s :: ss, ⟨hs, hss⟩, hagree =>
    simp only [sizes] at hagree
    exact ⟨hs.congr fun m _ _ => hagree m (by omega) (by omega), hss.congr fun m _ _ => hagree m (by omega) (by omega)⟩

end

mutual

theorem Shows.node_eq {t t' : Tree} {p : Option NodeId} {k : Nat} (s : Sapling) (h : t.Shows p k s) (h' : t'.Shows p k s)
    {m : NodeId} (hlow : k ≤ m.index) (hhigh : m.index < k + s.size) : t.node m = t'.node m := by
  match s with
  | .node tag x before after =>
    rw [Shows] at h h'
    rw [Sapling.size] at hhigh
    rcases Nat.lt_trichotomy m.index (k + sizes before) with hm | hm | hm
    · exact ShowsAll.node_eq before h.2.1 h'.2.1 hlow hm
    · obtain rfl : m = ⟨k + sizes before⟩ := congrArg NodeId.mk hm
      rw [h.1, h'.1]
    · exact ShowsAll.node_eq after h.2.2 h'.2.2 hm (by omega)
  | .spent x =>
    rw [Shows] at h h'
    obtain rfl : m = ⟨k⟩ := congrArg NodeId.mk (Nat.le_antisymm (Nat.le_of_lt_succ hhigh) hlow)
    rw [h, h']

theorem ShowsAll.node_eq {t t' : Tree} {p : Option NodeId} {k : Nat} (ss : List Sapling) (h : t.ShowsAll p k ss)
    (h' : t'.ShowsAll p k ss) {m : NodeId} (hlow : k ≤ m.index) (hhigh : m.index < k + sizes ss) :
    t.node m = t'.node m := by
  match ss with
  | [] => exact absurd hhigh (Nat.not_lt_of_le hlow)
  | s :: ss =>
    rw [ShowsAll] at h h'
    rw [sizes] at hhigh
    by_cases hm : m.index < k + s.size
    · exact Shows.node_eq s h.1 h'.1 hlow hm
    · exact ShowsAll.node_eq ss h.2 h'.2 (Nat.le_of_not_lt hm) (by omega)

end

mutual

theorem Shows.walkWithin {t : Tree} {k : Nat} {p : Option NodeId} (s : Sapling) {depth : Nat} (h : t.Shows p k s)
    (hdepth : s.depth ≤ depth) : (s.top k).toList.flatMap (t.walkWithin depth) = s.walk k := by
  match s with
  | .node tag x before after =>
    rw [Shows] at h
    obtain ⟨hnode, hbefore, hafter⟩ := h
    rw [Sapling.depth] at hdepth
    obtain ⟨depth, rfl⟩ : ∃ d, depth = d + 1 := ⟨depth - 1, by omega⟩
    have hchildren : t.children ⟨k + sizes before⟩ = tops k before ++ tops (k + sizes before + 1) after :=
      congrArg Node.children hnode
    rw [top, Option.toList_some, List.flatMap_singleton, Tree.walkWithin, hchildren, List.flatMap_append,
      ShowsAll.walkWithin before hbefore (by omega), ShowsAll.walkWithin after hafter (by omega), Sapling.walk]
  | .spent x => rfl

theorem ShowsAll.walkWithin {t : Tree} {k : Nat} {p : Option NodeId} (ss : List Sapling) {depth : Nat}
    (h : t.ShowsAll p k ss) (hdepth : Sapling.depths ss ≤ depth) : (tops k ss).flatMap (t.walkWithin depth) = walks k ss := by
  match ss with
  | [] => rfl
  | s :: ss =>
    rw [ShowsAll] at h
    rw [Sapling.depths] at hdepth
    rw [tops, List.flatMap_append, Shows.walkWithin s h.1 (by omega), ShowsAll.walkWithin ss h.2 (by omega), walks]

end

theorem Shows.reparent {s : Sapling}
    (h : t.Shows parent k s) (htop : ∀ n, s.top k = some n → t'.node n = { t.node n with parent := parent' })
    (hagree : ∀ m : NodeId, k ≤ m.index → m.index < k + s.size → s.top k ≠ some m → t'.node m = t.node m) :
    t'.Shows parent' k s := by
  match s, h, htop, hagree with
  | .node tag lexeme before after, ⟨hnode, hbefore, hafter⟩, htop, hagree =>
    simp only [Sapling.size, top, ne_eq, Option.some.injEq] at htop hagree
    refine ⟨?_, ?_, ?_⟩
    · rw [htop _ rfl, hnode]
    · exact hbefore.congr fun m _ _ => hagree m (by omega) (by omega) (by rintro rfl; simp_all)
    · exact hafter.congr fun m _ _ => hagree m (by omega) (by omega) (by rintro rfl; dsimp only at *; omega)
  | .spent lexeme, h, _, hagree =>
    unfold Shows at h ⊢
    rw [hagree ⟨k⟩ (Nat.le_refl k) (by simp [Sapling.size]) (by simp [top])]
    exact h

theorem ShowsAll.reparent {ss : List Sapling}
    (h : t.ShowsAll parent k ss) (htops : ∀ n ∈ tops k ss, t'.node n = { t.node n with parent := parent' })
    (hagree : ∀ m : NodeId, k ≤ m.index → m.index < k + sizes ss → m ∉ tops k ss → t'.node m = t.node m) :
    t'.ShowsAll parent' k ss := by
  induction ss generalizing k with
  | nil => trivial
  | cons s ss ih =>
    obtain ⟨hs, hss⟩ := h
    simp only [tops, sizes, List.mem_append, Option.mem_toList, not_or] at htops hagree
    refine ⟨hs.reparent (fun n hn => htops n (Or.inl hn)) ?_, ih hss (fun n hn => htops n (Or.inr hn)) ?_⟩
    · intro m hlow hhigh hm
      refine hagree m hlow (by omega) ⟨hm, fun hlater => ?_⟩
      have := Sapling.tops_bounds hlater
      omega
    · intro m hlow hhigh hm
      refine hagree m (by omega) (by omega) ⟨fun hfirst => ?_, hm⟩
      have := Sapling.top_bounds hfirst
      omega

theorem node_link {parent child : NodeId} (hparent : parent.index < t.size) (hchild : child.index < t.size)
    (hne : parent ≠ child) (m : NodeId) : (t.link parent child).node m =
      if m = parent then { t.node parent with children := (t.node parent).children ++ [child] }
      else if m = child then { t.node child with parent := some parent }
      else t.node m := by
  simp only [link, setParent]
  rw [node_modify (by simpa using hparent), node_modify hchild, node_modify hchild, if_neg hne]

@[simp] theorem size_link (t : Tree) (parent child : NodeId) : (t.link parent child).size = t.size := by
  simp [link, setParent]

@[simp] theorem size_foldl_link (t : Tree) (parent : NodeId) (children : List NodeId) :
    (children.foldl (fun t child => t.link parent child) t).size = t.size := by
  induction children generalizing t with
  | nil => rfl
  | cons child children ih => rw [List.foldl_cons, ih, size_link]

theorem node_foldl_link {parent : NodeId} {children : List NodeId} (hparent : parent.index < t.size)
    (hchildren : ∀ child ∈ children, child.index < t.size ∧ parent ≠ child) (m : NodeId) :
    (children.foldl (fun t child => t.link parent child) t).node m =
      if m = parent then { t.node parent with children := (t.node parent).children ++ children }
      else if m ∈ children then { t.node m with parent := some parent }
      else t.node m := by
  induction children generalizing t with
  | nil =>
    by_cases hm : m = parent
    · subst hm
      simp
    · simp [hm]
  | cons child children ih =>
    obtain ⟨hchild, hne⟩ := hchildren child (by simp)
    have hlater : ∀ c ∈ children, c.index < (t.link parent child).size ∧ parent ≠ c := fun c hc => by
      simpa using hchildren c (by simp [hc])
    rw [List.foldl_cons, ih (by simpa using hparent) hlater, node_link hparent hchild hne,
      node_link hparent hchild hne]
    by_cases hm : m = parent
    · simp [hm]
    · by_cases hmc : m = child
      · subst hmc
        by_cases hms : m ∈ children <;> simp [hm, hms]
      · by_cases hms : m ∈ children <;> simp [hm, hmc, hms]

/-- What a change of a tree that only adds nodes leaves as it is. -/
structure Grown (t t' : Tree) (count : Nat) : Prop where
  size_eq : t'.size = t.size + count
  old : ∀ m : NodeId, m.index < t.size → t'.node m = t.node m

theorem Grown.trans {v : Tree} {m n : Nat} (h : Grown t u m) (h' : Grown u v n) : Grown t v (m + n) where
  size_eq := by rw [h'.size_eq, h.size_eq, Nat.add_assoc]
  old x hx := by rw [h'.old x (by rw [h.size_eq]; omega), h.old x hx]

theorem grown_push (t : Tree) (tag : Tag) (lexeme : Lexeme) : Grown t (t.push tag lexeme).2 1 where
  size_eq := size_push t tag lexeme
  old m hm := by
    rw [node_push, if_neg]
    rintro rfl
    simp at hm

theorem shows_foldl_link {tag : Tag} {lexeme : Lexeme} {before after : List Sapling}
    (hsize : k + (sizes before + 1 + sizes after) ≤ u.size) (hnode : u.node ⟨k + sizes before⟩ = { tag, lexeme })
    (hbefore : u.ShowsAll none k before) (hafter : u.ShowsAll none (k + sizes before + 1) after) :
    let linked := (tops k before ++ tops (k + sizes before + 1) after).foldl
      (fun t child => t.link ⟨k + sizes before⟩ child) u
    linked.Shows none k (.node tag lexeme before after) ∧ ∀ m : NodeId, m.index < k → linked.node m = u.node m := by
  intro linked
  have hinside : ∀ child ∈ tops k before ++ tops (k + sizes before + 1) after,
      k ≤ child.index ∧ child.index < u.size ∧ (⟨k + sizes before⟩ : NodeId) ≠ child := by
    intro child hchild
    rcases List.mem_append.mp hchild with h | h
    · have := Sapling.tops_bounds h
      exact ⟨by omega, by omega, by rintro rfl; simp at this⟩
    · have := Sapling.tops_bounds h
      exact ⟨by omega, by omega, by rintro rfl; dsimp only at this; omega⟩
  have hself : (⟨k + sizes before⟩ : NodeId).index < u.size := by simp only; omega
  have hlinked := node_foldl_link hself fun child hchild => (hinside child hchild).2
  refine ⟨⟨?_, ?_, ?_⟩, fun m hm => ?_⟩
  · rw [hlinked, if_pos rfl, hnode]
    rfl
  · refine hbefore.reparent (fun n hn => ?_) (fun m hlow hhigh hm => ?_)
    · have := Sapling.tops_bounds hn
      rw [hlinked, if_neg (by rintro rfl; simp at this), if_pos (List.mem_append_left _ hn)]
    · rw [hlinked, if_neg (by rintro rfl; simp at hhigh), if_neg]
      simp only [List.mem_append, not_or]
      refine ⟨hm, fun h => ?_⟩
      have := Sapling.tops_bounds h
      omega
  · refine hafter.reparent (fun n hn => ?_) (fun m hlow hhigh hm => ?_)
    · have := Sapling.tops_bounds hn
      rw [hlinked, if_neg (by rintro rfl; dsimp only at this; omega), if_pos (List.mem_append_right _ hn)]
    · rw [hlinked, if_neg (by rintro rfl; dsimp only at hlow; omega), if_neg]
      simp only [List.mem_append, not_or]
      refine ⟨fun h => ?_, hm⟩
      have := Sapling.tops_bounds h
      omega
  · rw [hlinked, if_neg (by rintro rfl; dsimp only at hm; omega), if_neg]
    intro hmem
    have := (hinside m hmem).1
    omega

mutual

theorem exists_shows (t : Tree) (s : Sapling) : ∃ u, Grown t u s.size ∧ u.Shows none t.size s := by
  match s with
  | .node tag x before after =>
    obtain ⟨u, hgrown, hbefore⟩ := exists_showsAll t before
    obtain ⟨v, hgrown', hafter⟩ := exists_showsAll (u.push tag x).2 after
    have hpush := grown_push u tag x
    have hall := (hgrown.trans hpush).trans hgrown'
    have hnode := hgrown'.old ⟨u.size⟩ (by simp)
    rw [node_push, if_pos rfl, hgrown.size_eq] at hnode
    rw [size_push, hgrown.size_eq] at hafter
    obtain ⟨hshows, hold⟩ := shows_foldl_link (Nat.le_of_eq hall.size_eq.symm) hnode
      (hbefore.congr fun m _ hm => by
        rw [hgrown'.old m (by rw [size_push, hgrown.size_eq]; omega), hpush.old m (hgrown.size_eq ▸ hm)]) hafter
    refine ⟨_, ⟨?_, fun m hm => ?_⟩, hshows⟩
    · rw [size_foldl_link, hall.size_eq, Sapling.size]
    · rw [hold m hm, hall.old m hm]
  | .spent x => exact ⟨_, grown_push t .released x, by rw [Shows, node_push, if_pos rfl]⟩

theorem exists_showsAll (t : Tree) (ss : List Sapling) :
    ∃ u, Grown t u (sizes ss) ∧ u.ShowsAll none t.size ss := by
  match ss with
  | [] => exact ⟨t, ⟨rfl, fun _ _ => rfl⟩, trivial⟩
  | s :: ss =>
    obtain ⟨u, hgrown, hshows⟩ := exists_shows t s
    obtain ⟨v, hgrown', hshows'⟩ := exists_showsAll u ss
    refine ⟨v, hgrown.trans hgrown', ?_, hgrown.size_eq ▸ hshows'⟩
    exact hshows.congr fun m _ hm => hgrown'.old m (hgrown.size_eq ▸ hm)

end

theorem Shows.parent_top (h : t.Shows p k s) (hn : s.top k = some n) : t.parent n = p := by
  cases s with
  | node tag x before after =>
    cases hn
    rw [Shows] at h
    exact congrArg Node.parent h.1
  | spent x => cases hn

theorem ShowsAll.parent_of_mem_tops (h : t.ShowsAll p k ss) (hn : n ∈ tops k ss) :
    t.parent n = p := by
  induction ss generalizing k with
  | nil => cases hn
  | cons s ss ih =>
    rw [ShowsAll] at h
    rw [tops, List.mem_append, Option.mem_toList] at hn
    rcases hn with hn | hn
    · exact h.1.parent_top hn
    · exact ih h.2 hn

theorem Shows.tag_top_ne (h : t.Shows p k s) (hsound : s.Sound) (hn : s.top k = some n) : t.tag n ≠ .released := by
  cases s with
  | node tag x before after =>
    cases hn
    rw [Shows] at h
    rw [Tree.tag, h.1]
    exact hsound.1
  | spent x => cases hn

theorem ShowsAll.tag_ne_of_mem_tops (h : t.ShowsAll p k ss) (hsound : Sapling.SoundAll ss) (hn : n ∈ tops k ss) :
    t.tag n ≠ .released := by
  induction ss generalizing k with
  | nil => cases hn
  | cons s ss ih =>
    rw [ShowsAll] at h
    rw [tops, List.mem_append, Option.mem_toList] at hn
    rcases hn with hn | hn
    · exact h.1.tag_top_ne hsound.1 hn
    · exact ih h.2 hsound.2 hn

/-! ### Adoption -/

/-- Adopts children one after the other, as long as none of them is refused. -/
def adoptAll (t : Tree) (parent : NodeId) : List NodeId → Edit
  | [] => { outcome := .ok parent, tree := t }
  | child :: children =>
    match (t.adopt parent child).outcome with
    | .ok _ => (t.adopt parent child).tree.adoptAll parent children
    | .error _ => t.adopt parent child

theorem adopt_eq_link {parent child : NodeId} (hne : parent ≠ child) (hparent : t.tag parent ≠ .released)
    (hchild : t.tag child ≠ .released) (hfree : t.parent child = none) :
    t.adopt parent child = { outcome := .ok parent, tree := t.link parent child } := by
  rw [adopt, if_neg hne, if_neg hparent, if_neg hchild, hfree]

theorem adopt_cases (t : Tree) (p c : NodeId) :
    (∃ e, t.adopt p c = { outcome := .error e, tree := t }) ∨
      p.index < t.size ∧ c.index < t.size ∧ p ≠ c ∧ t.parent c = none ∧
        t.adopt p c = { outcome := .ok p, tree := t.link p c } := by
  unfold adopt
  split
  · exact .inl ⟨_, rfl⟩
  split
  · exact .inl ⟨_, rfl⟩
  split
  · exact .inl ⟨_, rfl⟩
  rename_i hne hp hc
  cases hparent : t.parent c with
  | some existing => exact .inl ⟨_, rfl⟩
  | none => exact .inr ⟨index_lt_of_tag hp, index_lt_of_tag hc, hne, rfl, rfl⟩

theorem adoptAll_eq_ok {parent : NodeId} {children : List NodeId} (hparent : parent.index < t.size)
    (htag : t.tag parent ≠ .released) (hnodup : children.Nodup)
    (hchildren : ∀ c ∈ children, c.index < t.size ∧ parent ≠ c ∧ t.tag c ≠ .released ∧ t.parent c = none) :
    t.adoptAll parent children =
      { outcome := .ok parent, tree := children.foldl (fun t child => t.link parent child) t } := by
  induction children generalizing t with
  | nil => rfl
  | cons child children ih =>
    obtain ⟨⟨hinside, hne, hlive, hfree⟩, hrest⟩ := List.forall_mem_cons.mp hchildren
    obtain ⟨hnotin, hnodup⟩ := List.nodup_cons.mp hnodup
    have hlink := node_link hparent hinside hne
    rw [adoptAll, adopt_eq_link hne htag hlive hfree, List.foldl_cons]
    refine ih (by simpa using hparent) ?_ hnodup fun c hc => ?_
    · rw [tag, hlink, if_pos rfl]
      exact htag
    · obtain ⟨hinside', hne', hlive', hfree'⟩ := hrest c hc
      have hkept : (t.link parent child).node c = t.node c := by
        rw [hlink, if_neg hne'.symm, if_neg (ne_of_mem_of_not_mem hc hnotin)]
      refine ⟨by simpa using hinside', hne', ?_, ?_⟩
      · rw [tag, hkept]
        exact hlive'
      · rw [Tree.parent, hkept]
        exact hfree'

theorem adoptAll_cons_eq_ok {parent child : NodeId} {children : List NodeId}
    (h : t.adoptAll parent (child :: children) = { outcome := .ok parent, tree := u }) :
    t.parent child = none ∧ t.adopt parent child = { outcome := .ok parent, tree := t.link parent child } ∧
      (t.link parent child).adoptAll parent children = { outcome := .ok parent, tree := u } := by
  rw [adoptAll] at h
  rcases t.adopt_cases parent child with ⟨e, he⟩ | ⟨-, -, -, hfree, he⟩
  · simp [he] at h
  · rw [he] at h
    exact ⟨hfree, he, h⟩

theorem adopt_eq_of_adoptAll {parent child : NodeId} (h : t.adoptAll parent [child] = { outcome := .ok parent, tree := u }) :
    t.adopt parent child = { outcome := .ok parent, tree := u } := by
  obtain ⟨-, hadopt, hdone⟩ := adoptAll_cons_eq_ok h
  cases hdone
  exact hadopt

theorem adopt2_eq_of_adoptAll {parent left right : NodeId}
    (h : t.adoptAll parent [left, right] = { outcome := .ok parent, tree := u }) :
    t.adopt2 parent left right = { outcome := .ok parent, tree := u } := by
  obtain ⟨-, hleft, hrest⟩ := adoptAll_cons_eq_ok h
  rw [adopt2, hleft]
  exact adopt_eq_of_adoptAll hrest

/-! ### Trees that got saplings -/

/-- The second tree has the nodes of the first and behind them those of the saplings, which nobody has adopted yet. -/
structure Bears (t : Tree) (ss : List Sapling) (u : Tree) : Prop where
  grown : Grown t u (sizes ss)
  shows : u.ShowsAll none t.size ss
  sound : Sapling.SoundAll ss

/-- The second tree has one sapling more than the first, and the given node is its topmost one. -/
structure Grows (t : Tree) (s : Sapling) (n : NodeId) (u : Tree) : Prop where
  bears : t.Bears [s] u
  top : s.top t.size = some n

variable {v w : Tree} {s s' : Sapling} {ss ss' before after : List Sapling} {tag : Tag} {x : Lexeme} {m l r : NodeId}

theorem Bears.trans (h : t.Bears ss u) (h' : u.Bears ss' v) : t.Bears (ss ++ ss') v where
  grown := by
    rw [Sapling.sizes_append]
    exact h.grown.trans h'.grown
  shows := by
    rw [showsAll_append, ← h.grown.size_eq]
    refine ⟨h.shows.congr fun m _ hhigh => h'.grown.old m (h.grown.size_eq ▸ hhigh), h'.shows⟩
  sound := Sapling.soundAll_append.mpr ⟨h.sound, h'.sound⟩

theorem grows_push (t : Tree) (tag : Tag) (x : Lexeme) (htag : tag ≠ .released) :
    t.Grows (.leaf tag x) ⟨t.size⟩ (t.push tag x).2 where
  bears :=
    { grown := grown_push t tag x
      shows := by simp [Sapling.leaf, ShowsAll, Shows, sizes, tops, node_push]
      sound := ⟨Sapling.sound_leaf htag, trivial⟩ }
  top := rfl

theorem Bears.refl (t : Tree) : t.Bears [] t := ⟨⟨rfl, fun _ _ => rfl⟩, trivial, trivial⟩

/-- A new node adopts the saplings that came before it and those that came behind it. -/
theorem Bears.adoptAll (hb : t.Bears before u) (ha : (u.push tag x).2.Bears after v) (htag : tag ≠ .released) :
    ∃ w, v.adoptAll ⟨u.size⟩ (tops t.size before ++ tops (u.size + 1) after) =
        { outcome := .ok ⟨u.size⟩, tree := w } ∧ t.Grows (.node tag x before after) ⟨u.size⟩ w := by
  have hsize := hb.grown.size_eq
  obtain ⟨hgrown, hshows, hsound⟩ := (hb.trans (grows_push u tag x htag).bears).trans ha
  obtain ⟨hfirst, hafter⟩ := showsAll_append.mp hshows
  obtain ⟨hbefore, ⟨hself, -⟩, -⟩ := showsAll_append.mp hfirst
  have hcount : v.size = t.size + (sizes before + 1 + sizes after) := by
    simp [hgrown.size_eq, Sapling.sizes_append, sizes, Sapling.leaf, Sapling.size, Nat.add_assoc]
  simp only [Sapling.sizes_append, sizes, Sapling.size, Sapling.leaf, Nat.add_zero, Nat.zero_add,
    ← Nat.add_assoc] at hself hafter
  rw [hsize]
  have hnodup : (tops t.size before ++ tops (t.size + sizes before + 1) after).Nodup := by
    refine List.nodup_append.mpr ⟨Sapling.nodup_tops _ _, Sapling.nodup_tops _ _, ?_⟩
    rintro a ha b hb rfl
    have := Sapling.tops_bounds ha
    have := Sapling.tops_bounds hb
    omega
  have hmem : ∀ c ∈ tops t.size before ++ tops (t.size + sizes before + 1) after,
      c.index < v.size ∧ (⟨t.size + sizes before⟩ : NodeId) ≠ c ∧ v.tag c ≠ .released ∧ v.parent c = none := by
    intro c hc
    rcases List.mem_append.mp hc with hc | hc
    · have := Sapling.tops_bounds hc
      refine ⟨by omega, ?_, hbefore.tag_ne_of_mem_tops hb.sound hc, hbefore.parent_of_mem_tops hc⟩
      rintro rfl
      simp at this
    · have := Sapling.tops_bounds hc
      refine ⟨by omega, ?_, hafter.tag_ne_of_mem_tops ha.sound hc, hafter.parent_of_mem_tops hc⟩
      rintro rfl
      dsimp only at this
      omega
  have hlive : v.tag ⟨t.size + sizes before⟩ ≠ .released := by
    rw [Tree.tag, hself]
    exact htag
  obtain ⟨hnode, hold⟩ := shows_foldl_link (Nat.le_of_eq hcount.symm) hself hbefore hafter
  refine ⟨_, adoptAll_eq_ok (by dsimp only; omega) hlive hnodup hmem, ⟨⟨?_, fun m hm => ?_⟩, ⟨hnode, trivial⟩, ?_⟩, rfl⟩
  · rw [size_foldl_link, hcount]
    rfl
  · rw [hold m hm, hgrown.old m hm]
  · exact ⟨⟨htag, hb.sound, ha.sound⟩, trivial⟩

theorem Grows.index_lt (h : t.Grows s n u) : t.size ≤ n.index ∧ n.index < u.size := by
  have hbounds := Sapling.top_bounds h.top
  rw [h.bears.grown.size_eq, sizes, sizes]
  omega

theorem Grows.size_eq (h : t.Grows s n u) : u.size = t.size + s.size := by
  simp [h.bears.grown.size_eq, sizes]

/-- A node that has not been adopted yet takes one more sapling as its last child. -/
theorem Grows.adopt (h : t.Grows (.node tag x before after) n u) (hs : u.Grows s m v) :
    ∃ w, v.adopt n m = { outcome := .ok n, tree := w } ∧ t.Grows (.node tag x before (after ++ [s])) n w := by
  obtain ⟨hn, hn'⟩ := h.index_lt
  obtain ⟨hm, hm'⟩ := hs.index_lt
  have hsize := h.size_eq
  have htop := h.top
  obtain ⟨hgrown, ⟨⟨hself, hbefore, hafter⟩, -⟩, ⟨htag, hbefore', hafter'⟩, -⟩ := h.bears
  obtain ⟨hgrown', ⟨hnew, -⟩, hsound, -⟩ := hs.bears
  rw [Sapling.size] at hsize
  cases htop
  have hinside := Nat.lt_of_lt_of_le hn' (Nat.le_trans hm (Nat.le_of_lt hm'))
  have hne : (⟨t.size + sizes before⟩ : NodeId) ≠ m := by
    rintro rfl
    exact absurd hn' (Nat.not_lt_of_le hm)
  have hself' : v.node ⟨t.size + sizes before⟩ = u.node ⟨t.size + sizes before⟩ := hgrown'.old _ hn'
  have hlink := node_link hinside hm' hne
  have hkept (a : NodeId) (hlt : a.index < u.size) (ha : a ≠ ⟨t.size + sizes before⟩) :
      (v.link ⟨t.size + sizes before⟩ m).node a = u.node a := by
    rw [hlink, if_neg ha, if_neg (by rintro rfl; omega), hgrown'.old a hlt]
  refine ⟨v.link ⟨t.size + sizes before⟩ m, adopt_eq_link hne ?_ (hnew.tag_top_ne hsound hs.top) (hnew.parent_top hs.top),
    ⟨⟨?_, ?_⟩, ⟨⟨?_, ?_, ?_⟩, trivial⟩, ⟨htag, hbefore', ?_⟩, trivial⟩, rfl⟩
  · rw [Tree.tag, hself', hself]
    exact htag
  · rw [size_link, hs.size_eq, hsize]
    simp only [sizes, Sapling.size, Sapling.sizes_append]
    omega
  · intro a ha
    rw [hkept a (by omega) (by rintro rfl; dsimp only at ha; omega), hgrown.old a ha]
  · rw [hlink, if_pos rfl, hself', hself]
    simp only [Sapling.tops_append, tops, List.append_nil, ← List.append_assoc]
    rw [show t.size + sizes before + 1 + sizes after = u.size by omega, hs.top]
    rfl
  · exact hbefore.congr fun a hlow hhigh => hkept a (by omega) (by rintro rfl; simp at hhigh)
  · refine showsAll_append.mpr ⟨hafter.congr fun a hlow hhigh => hkept a (by omega) (by rintro rfl; dsimp only at hlow; omega), ?_, trivial⟩
    rw [show t.size + sizes before + 1 + sizes after = u.size by omega]
    refine hnew.reparent (fun a ha => ?_) fun a hlow hhigh ha => ?_
    · cases hs.top.symm.trans ha
      rw [hlink, if_neg hne.symm, if_pos rfl]
    · rw [hlink, if_neg (by rintro rfl; dsimp only at hlow; omega), if_neg (by rintro rfl; exact ha hs.top)]
  · exact Sapling.soundAll_append.mpr ⟨hafter', hsound, trivial⟩

theorem Grows.tops_eq (h : t.Grows s n u) (ss : List Sapling) : tops t.size (s :: ss) = n :: tops u.size ss := by
  rw [tops, h.top, h.size_eq]
  rfl

theorem Grows.adopt_above (hl : t.Grows s l u) (tag : Tag) (x : Lexeme) (htag : tag ≠ .released) : ∃ w,
    (u.push tag x).2.adopt ⟨u.size⟩ l = { outcome := .ok ⟨u.size⟩, tree := w } ∧
      t.Grows (.node tag x [s] []) ⟨u.size⟩ w := by
  obtain ⟨w, hw, hgrows⟩ := hl.bears.adoptAll (.refl (u.push tag x).2) htag
  rw [hl.tops_eq] at hw
  exact ⟨w, adopt_eq_of_adoptAll hw, hgrows⟩

theorem Grows.adopt2_above (hl : t.Grows s l u) (hr : u.Grows s' r v) (tag : Tag) (x : Lexeme) (htag : tag ≠ .released) : ∃ w,
    (v.push tag x).2.adopt2 ⟨v.size⟩ l r = { outcome := .ok ⟨v.size⟩, tree := w } ∧
      t.Grows (.node tag x [s, s'] []) ⟨v.size⟩ w := by
  obtain ⟨w, hw, hgrows⟩ := (hl.bears.trans hr.bears).adoptAll (.refl (v.push tag x).2) htag
  rw [List.singleton_append, hl.tops_eq, hr.tops_eq] at hw
  exact ⟨w, adopt2_eq_of_adoptAll hw, hgrows⟩

theorem Grows.adopt2_between (hl : t.Grows s l u) (hr : (u.push tag x).2.Grows s' r v) (htag : tag ≠ .released) : ∃ w,
    v.adopt2 ⟨u.size⟩ l r = { outcome := .ok ⟨u.size⟩, tree := w } ∧ t.Grows (.node tag x [s] [s']) ⟨u.size⟩ w := by
  obtain ⟨w, hw, hgrows⟩ := hl.bears.adoptAll hr.bears htag
  rw [hl.tops_eq, ← size_push u tag x, hr.tops_eq] at hw
  exact ⟨w, adopt2_eq_of_adoptAll hw, hgrows⟩

theorem Grows.adopt2_below (hl : (t.push tag x).2.Grows s l u) (hr : u.Grows s' r v) (htag : tag ≠ .released) : ∃ w,
    v.adopt2 ⟨t.size⟩ l r = { outcome := .ok ⟨t.size⟩, tree := w } ∧ t.Grows (.node tag x [] [s, s']) ⟨t.size⟩ w := by
  obtain ⟨w, hw, hgrows⟩ := (Bears.refl t).adoptAll (hl.bears.trans hr.bears) htag
  rw [List.singleton_append, ← size_push t tag x, hl.tops_eq, hr.tops_eq] at hw
  exact ⟨w, adopt2_eq_of_adoptAll hw, hgrows⟩

theorem Grows.setTag {tag' : Tag} (h : t.Grows (.node tag x before after) n u) (htag : tag' ≠ .released) :
    t.Grows (.node tag' x before after) n (u.setTag n tag') := by
  have hinside := h.index_lt.2
  obtain ⟨⟨hgrown, ⟨⟨hself, hbefore, hafter⟩, -⟩, ⟨-, hbefore', hafter'⟩, -⟩, ⟨⟩⟩ := h
  have hnode := node_modify hinside fun y => { y with tag := tag' }
  refine ⟨⟨⟨?_, fun a ha => ?_⟩, ⟨⟨?_, ?_, ?_⟩, trivial⟩, ⟨htag, hbefore', hafter'⟩, trivial⟩, rfl⟩
  · exact (size_modify ..).trans hgrown.size_eq
  · rw [Tree.setTag, hnode, if_neg (by rintro rfl; dsimp only at ha; omega), hgrown.old a ha]
  · rw [Tree.setTag, hnode, if_pos rfl, hself]
  · exact hbefore.congr fun a _ hhigh => by rw [Tree.setTag, hnode, if_neg (by rintro rfl; simp at hhigh)]
  · exact hafter.congr fun a hlow _ => by rw [Tree.setTag, hnode, if_neg (by rintro rfl; dsimp only at hlow; omega)]

theorem Grows.adoptAs (h : t.Grows (.node tag x before after) n u) (hs : u.Grows s m v) {tag' : Tag}
    (htag : tag' ≠ .released) : ∃ w, v.adoptAs n m tag' = { outcome := .ok n, tree := w } ∧
      t.Grows (.node tag' x before (after ++ [s])) n w := by
  obtain ⟨w, hw, hgrows⟩ := h.adopt hs
  exact ⟨w.setTag n tag', by rw [Tree.adoptAs, hw], hgrows.setTag htag⟩

theorem Grows.node_top (h : t.Grows (.node tag x before after) n u) : u.tag n = tag ∧ u.lexeme n = x := by
  obtain ⟨⟨-, ⟨⟨hself, -⟩, -⟩, -⟩, ⟨⟩⟩ := h
  simp [Tree.tag, Tree.lexeme, hself]

theorem eq_of_node {t u : Tree} (hsize : t.size = u.size) (h : ∀ m, t.node m = u.node m) : t = u := by
  obtain ⟨ns⟩ := t
  obtain ⟨ms⟩ := u
  refine congrArg Tree.mk (Array.ext hsize fun i hi hj => ?_)
  simpa [node, Array.getD_eq_getD_getElem?, hi, hj] using h ⟨i⟩

/-- A sapling fixes the tree that consists of its nodes. -/
theorem eq_of_shows {t u : Tree} {s : Sapling} (h : t.Shows none 0 s) (h' : u.Shows none 0 s) (hsize : t.size = s.size)
    (hsize' : u.size = s.size) : t = u := by
  refine eq_of_node (hsize.trans hsize'.symm) fun m => ?_
  by_cases hm : m.index < s.size
  · exact Shows.node_eq s h h' (Nat.zero_le _) (by omega)
  · rw [node_eq_absent (by omega), node_eq_absent (by omega)]

/-- A detached node without children is released on its own. -/
theorem release_leaf (hlive : t.tag n ≠ .released) (hchildren : t.children n = []) (hfree : t.parent n = none) :
    t.release n = ([n], t.setTag n .released) := by
  have hsame : t.setChildren n [] = t := by
    refine eq_of_node (size_modify ..) fun m => ?_
    rw [setChildren, node_modify (index_lt_of_tag hlive)]
    split
    · rename_i hm
      rw [hm, ← hchildren]
      rfl
    · rfl
  rw [release, releaseWithin, if_neg hlive, hchildren, hsame]
  simp [detach, hfree]

section Functions

variable {d p : NodeId}

theorem adoptFunction_of_semicolon (htag : t.tag m = .semicolon) (hjoin :
    (t.push .prototype ⟨"<<PROTOTYPE>>", t.loc d⟩).2.adopt2 ⟨t.size⟩ d p = { outcome := .ok ⟨t.size⟩, tree := u }) :
    t.adoptFunction d p m = { outcome := .ok ⟨t.size⟩, tree := (u.release m).2, released := (u.release m).1 } := by
  unfold Tree.adoptFunction
  rw [if_pos htag]
  dsimp only [push] at hjoin ⊢
  rw [hjoin]

theorem adoptFunction_of_body (htag : t.tag m ≠ .semicolon) (hjoin :
    (t.push .function ⟨"<<FUNCTION>>", t.loc d⟩).2.adopt2 ⟨t.size⟩ d p = { outcome := .ok ⟨t.size⟩, tree := u }) :
    t.adoptFunction d p m = u.adopt ⟨t.size⟩ m := by
  unfold Tree.adoptFunction
  rw [if_neg htag]
  dsimp only [push] at hjoin ⊢
  rw [hjoin]

variable {dtag : Tag} {dx : Lexeme} (hd : t.Grows (.node dtag dx before after) d u) (hp : u.Grows s p v)
include hd hp

theorem Grows.loc_kept (hv : v.Bears ss w) : w.loc d = dx.loc := by
  have hinside := hd.index_lt.2
  rw [Tree.loc, Tree.lexeme, hv.grown.old d (by rw [hp.size_eq]; omega), hp.bears.grown.old d hinside]
  exact congrArg Lexeme.loc hd.node_top.2

theorem Grows.adoptFunction (hb : v.Grows (.node .block x [] ss) m w) : ∃ w',
    w.adoptFunction d p m = { outcome := .ok ⟨w.size⟩, tree := w' } ∧
      t.Grows (.node .function ⟨"<<FUNCTION>>", dx.loc⟩ [.node dtag dx before after, s, .node .block x [] ss] []) ⟨w.size⟩ w' := by
  obtain ⟨w', hw, hgrows⟩ := ((hd.bears.trans hp.bears).trans hb.bears).adoptAll
    (.refl (w.push .function ⟨"<<FUNCTION>>", dx.loc⟩).2) nofun
  simp only [List.cons_append, List.nil_append] at hw hgrows
  rw [hd.tops_eq, hp.tops_eq, hb.tops_eq] at hw
  obtain ⟨-, hfirst, hw⟩ := adoptAll_cons_eq_ok hw
  obtain ⟨-, hsecond, hw⟩ := adoptAll_cons_eq_ok hw
  refine ⟨w', ?_, hgrows⟩
  rw [adoptFunction_of_body (by simp [hb.node_top.1])]
  · exact adopt_eq_of_adoptAll hw
  · rw [hd.loc_kept hp hb.bears, Tree.adopt2, hfirst]
    exact hsecond

theorem Grows.adoptPrototype (x : Lexeme) : ∃ w,
    (v.push .semicolon x).2.adoptFunction d p ⟨v.size⟩ =
        { outcome := .ok ⟨v.size + 1⟩, tree := w, released := [⟨v.size⟩] } ∧
      t.Grows (.node .prototype ⟨"<<PROTOTYPE>>", dx.loc⟩ [.node dtag dx before after, s, .spent x] []) ⟨v.size + 1⟩ w := by
  have hx := grows_push v .semicolon x nofun
  obtain ⟨w, hw, hgrows⟩ := ((hd.bears.trans hp.bears).trans hx.bears).adoptAll
    (.refl (Tree.push _ .prototype ⟨"<<PROTOTYPE>>", dx.loc⟩).2) nofun
  simp only [List.cons_append, List.nil_append] at hw hgrows
  rw [hd.tops_eq, hp.tops_eq, hx.tops_eq] at hw
  rw [size_push] at hw hgrows
  obtain ⟨-, hfirst, hw⟩ := adoptAll_cons_eq_ok hw
  obtain ⟨-, hsecond, hw⟩ := adoptAll_cons_eq_ok hw
  obtain ⟨hfree, -, hdone⟩ := adoptAll_cons_eq_ok hw
  -- the semicolon is released where a body would have been adopted
  generalize hz : (Tree.link _ ⟨v.size + 1⟩ p) = z at hsecond hfree hdone
  have hzsize : z.size = v.size + 2 := by simp [← hz]
  have hlink := @node_link z ⟨v.size + 1⟩ ⟨v.size⟩ (by simp [hzsize]) (by simp [hzsize]) (by simp)
  rw [show z.link ⟨v.size + 1⟩ ⟨v.size⟩ = w from congrArg Edit.tree hdone] at hlink
  have hcount : t.size + Sapling.size (.node dtag dx before after) + s.size = v.size := by rw [hp.size_eq, hd.size_eq]
  obtain ⟨hgrown, ⟨⟨hself, ⟨hshown, hshown', hmark, -⟩, -⟩, -⟩, ⟨-, ⟨hsound, hsound', -⟩, -⟩, -⟩ := hgrows.bears
  have hpos : t.size + sizes [.node dtag dx before after, s, .leaf .semicolon x] = v.size + 1 :=
    congrArg NodeId.index (Option.some.inj hgrows.top)
  rw [hpos] at hself hshown hshown' hmark
  rw [hd.tops_eq, hp.tops_eq, hx.tops_eq, hlink, if_pos rfl] at hself
  rw [hcount, Sapling.leaf, Shows] at hmark
  have hmark' := hmark.1
  rw [sizes, Nat.add_zero, hlink, if_neg (by simp), if_pos rfl] at hmark'
  have hz' : z.node ⟨v.size⟩ = { tag := .semicolon, lexeme := x } := by
    rw [Tree.parent] at hfree
    generalize z.node ⟨v.size⟩ = y at hmark' hfree
    cases y
    simp_all [tops]
  have hroot : z.node ⟨v.size + 1⟩ = { tag := .prototype, lexeme := ⟨"<<PROTOTYPE>>", dx.loc⟩, children := [d, p] } := by
    generalize z.node ⟨v.size + 1⟩ = y at hself
    cases y
    simp only [tops, Node.mk.injEq, List.append_nil] at hself
    obtain ⟨rfl, rfl, hchildren, rfl⟩ := hself
    rw [show _ = [d, p] from List.append_cancel_right hchildren]
  have hset := node_modify (t := z) (n := ⟨v.size⟩) (by simp [hzsize]) fun y => { y with tag := .released }
  have hkept (a : NodeId) (ha : a.index < v.size) : (z.setTag ⟨v.size⟩ .released).node a = w.node a := by
    rw [Tree.setTag, hset, hlink, if_neg (by rintro rfl; simp at ha), if_neg (by rintro rfl; dsimp only at ha; omega),
      if_neg (by rintro rfl; simp at ha)]
  have hrelease := release_leaf (t := z) (n := ⟨v.size⟩) (by simp [Tree.tag, hz']) (by simp [Tree.children, hz']) hfree
  have hpos' : t.size + sizes [.node dtag dx before after, s, .spent x] = v.size + 1 := hpos
  refine ⟨z.setTag ⟨v.size⟩ .released, ?_, ⟨⟨⟨?_, fun a ha => ?_⟩, ⟨⟨?_, ⟨?_, ?_, ?_, trivial⟩, trivial⟩, trivial⟩, ?_⟩, ?_⟩⟩
  · rw [← size_push v .semicolon x, adoptFunction_of_semicolon hx.node_top.1 (u := z), hrelease]
    rw [hd.loc_kept hp hx.bears, size_push, Tree.adopt2, hfirst]
    exact hsecond
  · rw [Tree.setTag, size_modify, hzsize]
    simp only [sizes, Sapling.size] at hpos' ⊢
    omega
  · rw [hkept a (by omega), hgrown.old a ha]
  · rw [hpos', Tree.setTag, hset, if_neg (by simp), hroot, hd.tops_eq, hp.tops_eq]
    rfl
  · rw [hpos']
    exact hshown.congr fun a hlow hhigh => hkept a (by omega)
  · rw [hpos']
    exact hshown'.congr fun a hlow hhigh => hkept a (by omega)
  · rw [hcount, Shows, Tree.setTag, hset, if_pos rfl, hz']
  · exact ⟨⟨nofun, ⟨hsound, hsound', trivial, trivial⟩, trivial⟩, trivial⟩
  · exact congrArg (some ∘ NodeId.mk) hpos'

end Functions

end Tree

end OcCompiler
