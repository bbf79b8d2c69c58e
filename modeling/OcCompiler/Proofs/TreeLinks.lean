import OcCompiler.Proofs.Building

/-! Links between nodes. Where a tree shows a sapling, the walk from its topmost node meets each node once that was not
    released, and the parent of a node is the node whose child it is. -/

namespace OcCompiler

namespace Sapling

mutual

theorem walk_bounds {k : Nat} {n : NodeId} (s : Sapling) (h : n ∈ s.walk k) : k ≤ n.index ∧ n.index < k + s.size := by
  match s with
  | .node tag x before after =>
    rw [walk] at h
    rw [size]
    rcases List.mem_cons.mp h with rfl | h
    · simp only
      omega
    · rcases List.mem_append.mp h with h | h
      · have := walks_bounds before h
        omega
      · have := walks_bounds after h
        omega
  | .spent x => cases h

theorem walks_bounds {k : Nat} {n : NodeId} (ss : List Sapling) (h : n ∈ walks k ss) :
    k ≤ n.index ∧ n.index < k + sizes ss := by
  match ss with
  | [] => cases h
  | s :: ss =>
    rw [walks] at h
    rw [sizes]
    rcases List.mem_append.mp h with h | h
    · have := walk_bounds s h
      omega
    · have := walks_bounds ss h
      omega

end

mutual

theorem nodup_walk (k : Nat) (s : Sapling) : (s.walk k).Nodup := by
  match s with
  | .node tag x before after =>
    rw [walk, List.nodup_cons, List.nodup_append, List.mem_append]
    refine ⟨?_, nodup_walks k before, nodup_walks _ after, ?_⟩
    · rintro (h | h)
      · have := walks_bounds before h
        simp only at this
        omega
      · have := walks_bounds after h
        simp only at this
        omega
    · rintro n hn m hm rfl
      have := walks_bounds before hn
      have := walks_bounds after hm
      omega
  | .spent x => exact List.nodup_nil

theorem nodup_walks (k : Nat) (ss : List Sapling) : (walks k ss).Nodup := by
  match ss with
  | [] => exact List.nodup_nil
  | s :: ss =>
    rw [walks, List.nodup_append]
    refine ⟨nodup_walk k s, nodup_walks _ ss, ?_⟩
    rintro n hn m hm rfl
    have := walk_bounds s hn
    have := walks_bounds ss hm
    omega

end

end Sapling

namespace Tree

open Sapling (sizes top tops walks)

variable {t : Tree} {p : Option NodeId} {k : Nat}
variable {n parent : NodeId} {ss : List Sapling} {s : Sapling}

mutual

theorem Shows.mem_walk_iff {k : Nat} {p : Option NodeId} (s : Sapling) {m : NodeId} (h : t.Shows p k s) (hsound : s.Sound)
    (hlow : k ≤ m.index) (hhigh : m.index < k + s.size) : m ∈ s.walk k ↔ t.tag m ≠ .released := by
  match s with
  | .node tag x before after =>
    rw [Shows] at h
    obtain ⟨hnode, hbefore, hafter⟩ := h
    obtain ⟨htag, hsbefore, hsafter⟩ := hsound
    rw [Sapling.size] at hhigh
    rw [Sapling.walk, List.mem_cons, List.mem_append]
    -- Where the number of the node lies decides which of the three parts it belongs to.
    rcases Nat.lt_trichotomy m.index (k + sizes before) with hlt | heq | hgt
    · rw [← ShowsAll.mem_walks_iff before hbefore hsbefore hlow hlt]
      constructor
      · rintro (rfl | hm | hm)
        · simp at hlt
        · exact hm
        · have := Sapling.walks_bounds after hm
          omega
      · exact fun hm => .inr (.inl hm)
    · obtain rfl : m = ⟨k + sizes before⟩ := congrArg NodeId.mk heq
      have hthis : t.tag ⟨k + sizes before⟩ = tag := congrArg Node.tag hnode
      rw [hthis]
      exact ⟨fun _ => htag, fun _ => .inl rfl⟩
    · rw [← ShowsAll.mem_walks_iff after hafter hsafter (by omega) (by omega)]
      constructor
      · rintro (rfl | hm | hm)
        · simp at hgt
        · have := Sapling.walks_bounds before hm
          omega
        · exact hm
      · exact fun hm => .inr (.inr hm)
  | .spent x =>
    rw [Shows] at h
    rw [Sapling.size] at hhigh
    obtain rfl : m = ⟨k⟩ := congrArg NodeId.mk (by omega)
    have hthis : t.tag ⟨k⟩ = .released := congrArg Node.tag h
    rw [hthis, Sapling.walk]
    simp

theorem ShowsAll.mem_walks_iff {k : Nat} {p : Option NodeId} (ss : List Sapling) {m : NodeId} (h : t.ShowsAll p k ss)
    (hsound : Sapling.SoundAll ss) (hlow : k ≤ m.index) (hhigh : m.index < k + sizes ss) :
    m ∈ walks k ss ↔ t.tag m ≠ .released := by
  match ss with
  | [] =>
    rw [sizes] at hhigh
    omega
  | s :: ss =>
    rw [ShowsAll] at h
    rw [sizes] at hhigh
    rw [walks, List.mem_append]
    by_cases hm : m.index < k + s.size
    · rw [← Shows.mem_walk_iff s h.1 hsound.1 hlow hm]
      refine ⟨fun hor => hor.resolve_right fun hlater => ?_, .inl⟩
      have := Sapling.walks_bounds ss hlater
      omega
    · rw [← ShowsAll.mem_walks_iff ss h.2 hsound.2 (by omega) (by omega)]
      refine ⟨fun hor => hor.resolve_left fun hearlier => ?_, .inr⟩
      have := Sapling.walk_bounds s hearlier
      omega

end

mutual

theorem Shows.parent_of_mem_children {k : Nat} {p : Option NodeId} (s : Sapling) {m c : NodeId} (h : t.Shows p k s)
    (hlow : k ≤ m.index) (hhigh : m.index < k + s.size) (hc : c ∈ t.children m) : t.parent c = some m := by
  match s with
  | .node tag x before after =>
    rw [Shows] at h
    obtain ⟨hnode, hbefore, hafter⟩ := h
    rw [Sapling.size] at hhigh
    rcases Nat.lt_trichotomy m.index (k + sizes before) with hlt | heq | hgt
    · exact ShowsAll.parent_of_mem_children before hbefore hlow hlt hc
    · obtain rfl : m = ⟨k + sizes before⟩ := congrArg NodeId.mk heq
      rw [children, hnode] at hc
      rcases List.mem_append.mp hc with hc | hc
      · exact hbefore.parent_of_mem_tops hc
      · exact hafter.parent_of_mem_tops hc
    · exact ShowsAll.parent_of_mem_children after hafter (by omega) (by omega) hc
  | .spent x =>
    rw [Shows] at h
    rw [Sapling.size] at hhigh
    obtain rfl : m = ⟨k⟩ := congrArg NodeId.mk (by omega)
    rw [children, h] at hc
    cases hc

theorem ShowsAll.parent_of_mem_children {k : Nat} {p : Option NodeId} (ss : List Sapling) {m c : NodeId}
    (h : t.ShowsAll p k ss) (hlow : k ≤ m.index) (hhigh : m.index < k + sizes ss) (hc : c ∈ t.children m) :
    t.parent c = some m := by
  match ss with
  | [] =>
    rw [sizes] at hhigh
    omega
  | s :: ss =>
    rw [ShowsAll] at h
    rw [sizes] at hhigh
    by_cases hm : m.index < k + s.size
    · exact Shows.parent_of_mem_children s h.1 hlow hm hc
    · exact ShowsAll.parent_of_mem_children ss h.2 (by omega) (by omega) hc

end

mutual

theorem Shows.mem_children_of_parent {k : Nat} {p : Option NodeId} (s : Sapling) {m q : NodeId} (h : t.Shows p k s)
    (hlow : k ≤ m.index) (hhigh : m.index < k + s.size) (hq : t.parent m = some q) :
    s.top k = some m ∧ p = some q ∨ m ∈ t.children q := by
  match s with
  | .node tag x before after =>
    rw [Shows] at h
    obtain ⟨hnode, hbefore, hafter⟩ := h
    rw [Sapling.size] at hhigh
    -- A topmost node of one of the two groups is a child of this node.
    have hgroup (hor : m ∈ tops k before ++ tops (k + sizes before + 1) after ∧ some ⟨k + sizes before⟩ = some q ∨
        m ∈ t.children q) : m ∈ t.children q := by
      rcases hor with ⟨hm, hself⟩ | hm
      · cases hself
        rw [children, hnode]
        exact hm
      · exact hm
    rcases Nat.lt_trichotomy m.index (k + sizes before) with hlt | heq | hgt
    · have hor := ShowsAll.mem_children_of_parent before hbefore hlow hlt hq
      exact .inr (hgroup (hor.imp_left fun hm => ⟨List.mem_append_left _ hm.1, hm.2⟩))
    · obtain rfl : m = ⟨k + sizes before⟩ := congrArg NodeId.mk heq
      rw [parent, hnode] at hq
      exact .inl ⟨rfl, hq⟩
    · have hor := ShowsAll.mem_children_of_parent after hafter (by omega) (by omega) hq
      exact .inr (hgroup (hor.imp_left fun hm => ⟨List.mem_append_right _ hm.1, hm.2⟩))
  | .spent x =>
    rw [Shows] at h
    rw [Sapling.size] at hhigh
    obtain rfl : m = ⟨k⟩ := congrArg NodeId.mk (by omega)
    rw [parent, h] at hq
    cases hq

theorem ShowsAll.mem_children_of_parent {k : Nat} {p : Option NodeId} (ss : List Sapling) {m q : NodeId}
    (h : t.ShowsAll p k ss) (hlow : k ≤ m.index) (hhigh : m.index < k + sizes ss) (hq : t.parent m = some q) :
    m ∈ tops k ss ∧ p = some q ∨ m ∈ t.children q := by
  match ss with
  | [] =>
    rw [sizes] at hhigh
    omega
  | s :: ss =>
    rw [ShowsAll] at h
    rw [sizes] at hhigh
    rw [tops, List.mem_append, Option.mem_toList]
    by_cases hm : m.index < k + s.size
    · exact (Shows.mem_children_of_parent s h.1 hlow hm hq).imp_left fun htop => ⟨.inl htop.1, htop.2⟩
    · exact (ShowsAll.mem_children_of_parent ss h.2 (by omega) (by omega) hq).imp_left fun htop => ⟨.inr htop.1, htop.2⟩

end

end Tree

end OcCompiler
