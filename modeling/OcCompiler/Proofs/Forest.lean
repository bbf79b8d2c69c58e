import Mathlib.Data.Fintype.Pigeonhole
import OcCompiler.Proofs.TreeOperations

/-! Forests: no node is its own ancestor. An adoption spoils this exactly if the child is an ancestor of its new parent,
    which no adoption checks. -/

namespace OcCompiler

namespace Tree

open Relation

variable {t t' : Tree} {n m p c : NodeId}

def Below (t : Tree) : NodeId → NodeId → Prop := TransGen fun n p => t.parent n = some p

def IsForest (t : Tree) : Prop := ∀ n, ¬t.Below n n

def climb (t : Tree) : Nat → NodeId → Option NodeId
  | 0, n => some n
  | k + 1, n => (t.climb k n).bind t.parent

theorem climb_add (t : Tree) (j k : Nat) (n : NodeId) : t.climb (j + k) n = (t.climb j n).bind (t.climb k) := by
  induction k with
  | zero => cases t.climb j n <;> rfl
  | succ k ih => rw [← Nat.add_assoc, climb, ih, Option.bind_assoc]; rfl

theorem below_iff_climb : t.Below n m ↔ ∃ k, t.climb (k + 1) n = some m := by
  constructor
  · intro h
    induction h with
    | single h => exact ⟨0, h⟩
    | tail _ h ih =>
      obtain ⟨k, hk⟩ := ih
      exact ⟨k + 1, by rw [climb, hk]; exact h⟩
  · rintro ⟨k, hk⟩
    induction k generalizing m with
    | zero => exact .single hk
    | succ k ih =>
      rw [climb] at hk
      obtain ⟨q, hq, hparent⟩ := Option.bind_eq_some_iff.mp hk
      exact (ih hq).tail hparent

theorem isForest_iff_ends (t : Tree) : t.IsForest ↔ ∀ n, ∃ k, t.climb k n = none := by
  constructor
  · intro hforest n
    by_contra hends
    have hway (k : Nat) : ∃ m, t.climb k n = some m := Option.ne_none_iff_exists'.mp fun hk => hends ⟨k, hk⟩
    choose way hway using hway
    have hstep (k : Nat) : t.parent (way k) = some (way (k + 1)) := by
      have hnext := hway (k + 1)
      rwa [climb, hway k] at hnext
    -- There are only so many nodes, so the way comes to one of them twice.
    have hinside (k : Nat) : (way k).index < t.size := by
      by_contra hout
      have hparent := hstep k
      rw [parent, node_eq_absent (Nat.le_of_not_lt hout)] at hparent
      cases hparent
    have hup (j k : Nat) : t.Below (way j) (way (j + k + 1)) := by
      induction k with
      | zero => exact .single (hstep j)
      | succ k ih => exact ih.tail (hstep (j + k + 1))
    obtain ⟨j, k, hne, heq⟩ := Finite.exists_ne_map_eq_of_infinite fun k => (⟨(way k).index, hinside k⟩ : Fin t.size)
    have hsame : way j = way k := congrArg NodeId.mk (Fin.val_eq_of_eq heq)
    rcases Nat.lt_or_gt_of_ne hne with hlt | hlt
    · obtain ⟨i, rfl⟩ := Nat.exists_eq_add_of_lt hlt
      exact hforest (way j) (by simpa [← hsame] using hup j i)
    · obtain ⟨i, rfl⟩ := Nat.exists_eq_add_of_lt hlt
      exact hforest (way k) (by simpa [hsame] using hup k i)
  · intro hends n hbelow
    obtain ⟨k, hk⟩ := below_iff_climb.mp hbelow
    obtain ⟨j, hj⟩ := hends n
    have hround (i : Nat) : t.climb (i * (k + 1)) n = some n := by
      induction i with
      | zero => rw [Nat.zero_mul]; rfl
      | succ i ih => rw [Nat.succ_mul, climb_add, ih, Option.bind_some, hk]
    have hlong := hround j
    rw [Nat.mul_succ, Nat.add_comm, climb_add, hj] at hlong
    cases hlong

theorem Below.mono (hsub : ∀ n p, t.parent n = some p → t'.parent n = some p) (h : t.Below n m) : t'.Below n m :=
  TransGen.mono hsub _ _ h

theorem IsForest.mono (h : t.IsForest) (hsub : ∀ n p, t'.parent n = some p → t.parent n = some p) : t'.IsForest :=
  fun n hn => h n (hn.mono hsub)

theorem isForest_congr (hsame : ∀ n, t'.parent n = t.parent n) : t'.IsForest ↔ t.IsForest :=
  ⟨fun h => h.mono fun n p hp => by rw [hsame]; exact hp, fun h => h.mono fun n p hp => by rw [← hsame]; exact hp⟩

theorem IsForest.release (h : t.IsForest) (n : NodeId) : (t.release n).2.IsForest := by
  refine h.mono (releaseWithin_rel (R := fun t t' => ∀ n p, t'.parent n = some p → t.parent n = some p) (fun _ _ _ => id)
    (fun h h' n p hp => h n p (h' n p hp)) (fun t n m p hp => ?_) (fun t c m p hp => ?_) (fun t n m p hp => ?_)
    (fun t n m p hp => ?_) _ t n)
  · rwa [parent_setChildren] at hp
  · rw [parent_setParent_none] at hp
    split at hp
    · cases hp
    · exact hp
  · rw [parent_detach] at hp
    split at hp
    · cases hp
    · exact hp
  · rwa [parent_setTag] at hp

section Link

variable (hp : p.index < t.size) (hc : c.index < t.size) (hne : p ≠ c) (hfree : t.parent c = none)

include hp hc hne hfree

theorem parent_link_of_parent {q : NodeId} (h : t.parent n = some q) : (t.link p c).parent n = some q := by
  rw [parent_link hp hc hne, if_neg]
  · exact h
  · rintro rfl
    rw [hfree] at h
    cases h

theorem below_of_below_link (h : (t.link p c).Below n m) :
    t.Below n m ∨ ReflTransGen (fun n p => t.parent n = some p) n c ∧ ReflTransGen (fun n p => t.parent n = some p) p m := by
  have hedge {x y : NodeId} (hxy : (t.link p c).parent x = some y) : t.parent x = some y ∨ x = c ∧ y = p := by
    rw [parent_link hp hc hne] at hxy
    split at hxy
    · rename_i hx
      exact .inr ⟨hx, (Option.some.inj hxy).symm⟩
    · exact .inl hxy
  induction h with
  | single h =>
    rcases hedge h with h | ⟨rfl, rfl⟩
    · exact .inl (.single h)
    · exact .inr ⟨.refl, .refl⟩
  | tail _ h ih =>
    rcases hedge h with h | ⟨rfl, rfl⟩
    · rcases ih with ih | ⟨hfirst, hlast⟩
      · exact .inl (ih.tail h)
      · exact .inr ⟨hfirst, hlast.tail h⟩
    · rcases ih with ih | ⟨hfirst, -⟩
      · exact .inr ⟨ih.to_reflTransGen, .refl⟩
      · exact .inr ⟨hfirst, .refl⟩

theorem IsForest.link_iff (hforest : t.IsForest) : (t.link p c).IsForest ↔ ¬t.Below p c := by
  constructor
  · intro h hbelow
    have hlinked : (t.link p c).parent c = some p := by rw [parent_link hp hc hne, if_pos rfl]
    exact h p ((hbelow.mono fun n q => parent_link_of_parent hp hc hne hfree).tail hlinked)
  · intro h n hn
    rcases below_of_below_link hp hc hne hfree hn with hn | ⟨hfirst, hlast⟩
    · exact hforest n hn
    · rcases reflTransGen_iff_eq_or_transGen.mp (hlast.trans hfirst) with heq | hbelow
      · exact hne heq.symm
      · exact h hbelow

end Link

def ClosesCircle (t : Tree) (p c : NodeId) : Prop := (∃ q, (t.adopt p c).outcome = .ok q) ∧ t.Below p c

theorem IsForest.adopt_iff (h : t.IsForest) (p c : NodeId) : (t.adopt p c).tree.IsForest ↔ ¬t.ClosesCircle p c := by
  rw [ClosesCircle]
  rcases t.adopt_cases p c with ⟨e, he⟩ | ⟨hp, hc, hne, hfree, he⟩
  · rw [he]
    simp [h]
  · rw [he, h.link_iff hp hc hne hfree]
    simp

theorem parent_adopt_of_parent (h : t.parent n = some m) (p c : NodeId) : (t.adopt p c).tree.parent n = some m := by
  rcases t.adopt_cases p c with ⟨e, he⟩ | ⟨hp, hc, hne, hfree, he⟩
  · rw [he]
    exact h
  · rw [he]
    exact parent_link_of_parent hp hc hne hfree h

theorem not_closesCircle_of_top (h : t.parent p = none) (c : NodeId) : ¬t.ClosesCircle p c := by
  rintro ⟨-, hbelow⟩
  obtain ⟨q, hq, -⟩ := TransGen.head'_iff.mp hbelow
  rw [h] at hq
  cases hq

theorem IsForest.adopt_of_top (h : t.IsForest) (htop : t.parent p = none) (c : NodeId) :
    (t.adopt p c).tree.IsForest ∧ (t.adopt p c).tree.parent p = none := by
  refine ⟨(h.adopt_iff p c).mpr (not_closesCircle_of_top htop c), ?_⟩
  rcases t.adopt_cases p c with ⟨e, he⟩ | ⟨hp, hc, hne, -, he⟩
  · rw [he]
    exact htop
  · rw [he, parent_link hp hc hne, if_neg hne]
    exact htop

theorem IsForest.adopt2_of_top (h : t.IsForest) (htop : t.parent p = none) (l r : NodeId) :
    (t.adopt2 p l r).tree.IsForest ∧ (t.adopt2 p l r).tree.parent p = none := by
  have hfirst := h.adopt_of_top htop l
  unfold adopt2
  dsimp only
  split
  · exact hfirst.1.adopt_of_top hfirst.2 r
  · exact hfirst

theorem IsForest.adoptFunction (h : t.IsForest) (decl params terminator : NodeId) :
    (t.adoptFunction decl params terminator).tree.IsForest := by
  have hjoined (tag : Tag) (lexeme : Lexeme) :
      ((t.push tag lexeme).2.adopt2 (t.push tag lexeme).1 decl params).tree.IsForest ∧
        ((t.push tag lexeme).2.adopt2 (t.push tag lexeme).1 decl params).tree.parent (t.push tag lexeme).1 = none := by
    refine IsForest.adopt2_of_top ((isForest_congr fun n => parent_push tag lexeme).mpr h) ?_ decl params
    rw [parent_push, parent, push, node_eq_absent (n := ⟨t.size⟩) (Nat.le_refl _)]
    rfl
  unfold Tree.adoptFunction
  dsimp only
  split
  · split
    · exact (hjoined _ _).1.release terminator
    · exact (hjoined _ _).1
  · split
    · exact ((hjoined _ _).1.adopt_of_top (hjoined _ _).2 terminator).1
    · exact (hjoined _ _).1

def Spoils (t : Tree) : TreeOp → Prop
  | .adopt p c | .adoptAs p c _ => t.ClosesCircle p c
  | .adopt2 p l r => t.ClosesCircle p l ∨ (∃ q, (t.adopt p l).outcome = .ok q) ∧ (t.adopt p l).tree.ClosesCircle p r
  | .push .. | .adoptFunction .. | .setTag .. | .release _ => False

theorem IsForest.adopt2_iff (h : t.IsForest) (p l r : NodeId) :
    (t.adopt2 p l r).tree.IsForest ↔ ¬t.Spoils (.adopt2 p l r) := by
  have hfirst := h.adopt_iff p l
  rw [Spoils, not_or, ← hfirst]
  unfold adopt2
  dsimp only
  cases houtcome : (t.adopt p l).outcome with
  | error e => simp
  | ok q =>
    simp only [Except.ok.injEq, exists_eq', true_and]
    constructor
    · intro hboth
      have hone : (t.adopt p l).tree.IsForest := hboth.mono fun n m hm => parent_adopt_of_parent hm p r
      exact ⟨hone, (hone.adopt_iff p r).mp hboth⟩
    · rintro ⟨hone, htwo⟩
      exact (hone.adopt_iff p r).mpr htwo

theorem IsForest.adoptAs_iff (h : t.IsForest) (p c : NodeId) (tag : Tag) :
    (t.adoptAs p c tag).tree.IsForest ↔ ¬t.ClosesCircle p c := by
  rw [← h.adopt_iff]
  unfold adoptAs
  dsimp only
  split
  · exact isForest_congr fun n => parent_setTag tag
  · exact Iff.rfl

theorem IsForest.run_iff (h : t.IsForest) (op : TreeOp) : (t.run op).tree.IsForest ↔ ¬t.Spoils op := by
  cases op with
  | push tag lexeme => exact iff_of_true ((isForest_congr fun n => parent_push tag lexeme).mpr h) not_false
  | adopt p c => exact h.adopt_iff p c
  | adopt2 p l r => exact h.adopt2_iff p l r
  | adoptAs p c tag => exact h.adoptAs_iff p c tag
  | adoptFunction decl params terminator => exact iff_of_true (h.adoptFunction decl params terminator) not_false
  | setTag n tag => exact iff_of_true ((isForest_congr fun m => parent_setTag tag).mpr h) not_false
  | release n => exact iff_of_true (h.release n) not_false

def Careful (t : Tree) : List TreeOp → Prop
  | [] => True
  | op :: ops => ¬t.Spoils op ∧ Careful (t.run op).tree ops

theorem IsForest.runAll_iff (h : t.IsForest) (ops : List TreeOp) :
    (∀ before, before <+: ops → (t.runAll before).IsForest) ↔ t.Careful ops := by
  induction ops generalizing t with
  | nil =>
    refine iff_of_true (fun before hbefore => ?_) trivial
    rw [List.prefix_nil.mp hbefore]
    exact h
  | cons op ops ih =>
    constructor
    · intro hall
      have hone : (t.run op).tree.IsForest := hall [op] ⟨ops, rfl⟩
      refine ⟨(h.run_iff op).mp hone, (ih hone).mp fun before hbefore => ?_⟩
      exact hall (op :: before) (List.cons_prefix_cons.mpr ⟨rfl, hbefore⟩)
    · rintro ⟨hop, hops⟩ before hbefore
      rcases List.prefix_cons_iff.mp hbefore with rfl | ⟨rest, rfl, hrest⟩
      · exact h
      · exact (ih ((h.run_iff op).mpr hop)).mpr hops rest hrest

theorem isForest_empty : empty.IsForest := by
  intro n hn
  obtain ⟨p, hp, -⟩ := TransGen.head'_iff.mp hn
  obtain ⟨i⟩ := n
  cases i <;> cases hp

/-- Operations leave a forest behind, each of them, exactly if none of them closes a circle. In a forest the way up from
    every node ends, and that is so after any operations exactly if no node is its own ancestor. -/
theorem forest_iff_careful (ops : List TreeOp) :
    ((∀ before, before <+: ops → ∀ n, ∃ k, (empty.runAll before).climb k n = none) ↔ empty.Careful ops) ∧
      ((∀ n, ∃ k, (empty.runAll ops).climb k n = none) ↔ ∀ n, ¬(empty.runAll ops).Below n n) := by
  refine ⟨?_, (isForest_iff_ends _).symm⟩
  rw [← isForest_empty.runAll_iff ops]
  exact forall₂_congr fun before _ => (isForest_iff_ends _).symm

/-- A node adopts another one, a function adopts this node and the root of the program, and the node is released. -/
theorem forest_iff_careful_nested :
    let node (i : Nat) : TreeOp := .push .name ⟨"x", ⟨0, 1, i⟩⟩
    let ops : List TreeOp := [node 1, node 2, .adopt ⟨1⟩ ⟨2⟩, .adoptFunction ⟨1⟩ ⟨0⟩ ⟨2⟩, .release ⟨1⟩]
    (List.range 4).map (fun i => (empty.runAll (ops.take 4)).parent ⟨i⟩) = [some ⟨3⟩, some ⟨3⟩, some ⟨1⟩, none] ∧
      (∀ before, before <+: ops → ∀ n, ∃ k, (empty.runAll before).climb k n = none) ∧
      ∀ n, ¬(empty.runAll ops).Below n n := by
  intro node ops
  have hcareful : empty.Careful ops :=
    ⟨not_false, not_false, not_closesCircle_of_top (by decide +kernel) _, not_false, not_false, trivial⟩
  have hends := (forest_iff_careful ops).1.mpr hcareful
  exact ⟨by decide +kernel, hends, (forest_iff_careful ops).2.mp (hends ops (List.prefix_refl ops))⟩

/-- Two nodes that adopt each other: the way up from either never ends. -/
theorem circle_of_adoptions :
    let node (i : Nat) : TreeOp := .push .block ⟨"b", ⟨0, i, 0⟩⟩
    let t := empty.runAll [node 1, node 2, .adopt ⟨1⟩ ⟨2⟩, .adopt ⟨2⟩ ⟨1⟩]
    t.Below ⟨1⟩ ⟨1⟩ ∧ ∀ k, t.climb k ⟨1⟩ ≠ none := by
  intro node t
  have hup : t.parent ⟨1⟩ = some ⟨2⟩ := by decide +kernel
  have hdown : t.parent ⟨2⟩ = some ⟨1⟩ := by decide +kernel
  have hclimb (k : Nat) : t.climb k ⟨1⟩ = some ⟨1⟩ ∨ t.climb k ⟨1⟩ = some ⟨2⟩ := by
    induction k with
    | zero => exact .inl rfl
    | succ k ih =>
      rcases ih with h | h
      · exact .inr (by rw [climb, h]; exact hup)
      · exact .inl (by rw [climb, h]; exact hdown)
  refine ⟨.tail (.single hup) hdown, fun k hk => ?_⟩
  rcases hclimb k with h | h <;> rw [h] at hk <;> cases hk

end Tree

end OcCompiler
