import Mathlib.Data.Finset.Card
import Mathlib.Data.Finset.Range
import Mathlib.Data.List.Nodup
import Mathlib.Logic.Relation
import OcCompiler.Proofs.TreeShape
import OcCompiler.Workspace

/-! Operations on a tree, one after another. Whatever is done, parents and children agree, nodes never change their
    lexemes, and an adoption that is refused changes nothing. -/

namespace OcCompiler

/-- An operation on a tree. -/
inductive TreeOp where
  | push (tag : Tag) (lexeme : Lexeme)
  | adopt (parent child : NodeId)
  | adopt2 (parent left right : NodeId)
  | adoptAs (parent child : NodeId) (tag : Tag)
  | adoptFunction (decl params terminator : NodeId)
  | setTag (n : NodeId) (tag : Tag)
  | release (n : NodeId)
deriving DecidableEq, Repr

namespace Tree

def run (t : Tree) : TreeOp → Edit
  | .push tag lexeme => { outcome := .ok (t.push tag lexeme).1, tree := (t.push tag lexeme).2 }
  | .adopt parent child => t.adopt parent child
  | .adopt2 parent left right => t.adopt2 parent left right
  | .adoptAs parent child tag => t.adoptAs parent child tag
  | .adoptFunction decl params terminator => t.adoptFunction decl params terminator
  | .setTag n tag => { outcome := .ok n, tree := t.setTag n tag }
  | .release n => { outcome := .ok n, tree := (t.release n).2, released := (t.release n).1 }

/-- The tree after some operations. Those that fail count as far as they went. -/
def runAll (t : Tree) (ops : List TreeOp) : Tree := ops.foldl (fun t op => (t.run op).tree) t

variable {t t' : Tree} {n m p c : NodeId} {f : Node → Node}

/-! ### What elementary changes change -/

theorem modify_of_le (h : t.size ≤ n.index) : t.modify n f = t := by
  have hsame : t.nodes.modify n.index f = t.nodes :=
    Array.ext (by simp) fun i hi _ => by
      have hlt : i < n.index := Nat.lt_of_lt_of_le (Array.size_modify ▸ hi : i < t.nodes.size) h
      rw [Array.getElem_modify, if_neg (Nat.ne_of_gt hlt)]
  rw [modify, hsame]

theorem apply_modify {α : Type} (g : Node → α) (n m : NodeId) (hg : ∀ x, g (f x) = g x) :
    g ((t.modify n f).node m) = g (t.node m) := by
  by_cases hn : n.index < t.size
  · rw [node_modify hn]
    split
    · rename_i hm
      rw [hg, hm]
    · rfl
  · rw [modify_of_le (Nat.le_of_not_lt hn)]

@[simp] theorem parent_setTag (tag : Tag) : (t.setTag n tag).parent m = t.parent m :=
  apply_modify Node.parent n m fun _ => rfl

@[simp] theorem children_setTag (tag : Tag) : (t.setTag n tag).children m = t.children m :=
  apply_modify Node.children n m fun _ => rfl

@[simp] theorem parent_setChildren (cs : List NodeId) : (t.setChildren n cs).parent m = t.parent m :=
  apply_modify Node.parent n m fun _ => rfl

@[simp] theorem children_setParent (q : Option NodeId) : (t.setParent n q).children m = t.children m :=
  apply_modify Node.children n m fun _ => rfl

theorem children_setChildren_nil : (t.setChildren n []).children m = if m = n then [] else t.children m := by
  rw [children, setChildren]
  by_cases hn : n.index < t.size
  · rw [node_modify hn]
    split <;> rfl
  · rw [modify_of_le (Nat.le_of_not_lt hn)]
    split
    · rename_i hm
      rw [hm, node_eq_absent (Nat.le_of_not_lt hn)]
      rfl
    · rfl

theorem parent_setParent_none : (t.setParent n none).parent m = if m = n then none else t.parent m := by
  rw [parent, setParent]
  by_cases hn : n.index < t.size
  · rw [node_modify hn]
    split <;> rfl
  · rw [modify_of_le (Nat.le_of_not_lt hn)]
    split
    · rename_i hm
      rw [hm, node_eq_absent (Nat.le_of_not_lt hn)]
      rfl
    · rfl

theorem parent_detach : (t.detach n).parent m = if m = n then none else t.parent m := by
  rw [detach]
  cases hp : t.parent n with
  | none =>
    dsimp only
    split
    · rename_i hm
      rw [hm, hp]
    · rfl
  | some q =>
    dsimp only
    rw [parent, apply_modify Node.parent q m]
    · exact parent_setParent_none
    · exact fun _ => rfl

theorem children_detach :
    (t.detach n).children m = if t.parent n = some m then (t.children m).filter (· ≠ n) else t.children m := by
  rw [detach]
  cases hp : t.parent n with
  | none => rfl
  | some q =>
    dsimp only
    rw [children]
    by_cases hq : q.index < (t.setParent n none).size
    · rw [node_modify hq]
      by_cases hm : m = q
      · subst hm
        rw [if_pos rfl, if_pos rfl]
        exact congrArg (List.filter _) (children_setParent none)
      · rw [if_neg hm, if_neg fun h => hm (Option.some.inj h).symm]
        exact children_setParent none
    · -- A parent that does not exist has no children.
      rw [modify_of_le (Nat.le_of_not_lt hq)]
      refine (children_setParent none).trans ?_
      split
      · rename_i hm
        have habsent : t.size ≤ m.index := by
          rw [← Option.some.inj hm]
          simpa [setParent] using hq
        rw [children, node_eq_absent habsent]
        rfl
      · rfl

@[simp] theorem parent_push (tag : Tag) (lexeme : Lexeme) : (t.push tag lexeme).2.parent m = t.parent m := by
  rw [parent, node_push]
  split
  · rename_i hm
    rw [hm, parent, node_eq_absent (n := ⟨t.size⟩) (Nat.le_refl _)]
    rfl
  · rfl

@[simp] theorem children_push (tag : Tag) (lexeme : Lexeme) : (t.push tag lexeme).2.children m = t.children m := by
  rw [children, node_push]
  split
  · rename_i hm
    rw [hm, children, node_eq_absent (n := ⟨t.size⟩) (Nat.le_refl _)]
    rfl
  · rfl

theorem parent_link (hp : p.index < t.size) (hc : c.index < t.size) (hne : p ≠ c) :
    (t.link p c).parent m = if m = c then some p else t.parent m := by
  rw [parent, node_link hp hc hne]
  by_cases hm : m = p
  · subst hm
    rw [if_pos rfl, if_neg hne]
    rfl
  · rw [if_neg hm]
    split <;> rfl

theorem children_link (hp : p.index < t.size) (hc : c.index < t.size) (hne : p ≠ c) :
    (t.link p c).children m = if m = p then t.children p ++ [c] else t.children m := by
  rw [children, node_link hp hc hne]
  split
  · rfl
  · split
    · rename_i hm
      rw [hm]
      rfl
    · rfl

inductive Change (t : Tree) : Tree → Prop where
  | push (tag : Tag) (lexeme : Lexeme) : Change t (t.push tag lexeme).2
  | link {p c : NodeId} (hp : p.index < t.size) (hc : c.index < t.size) (hne : p ≠ c) (hfree : t.parent c = none) :
    Change t (t.link p c)
  | setTag (n : NodeId) (tag : Tag) : Change t (t.setTag n tag)
  | release (n : NodeId) : Change t (t.release n).2

abbrev Changes : Tree → Tree → Prop := Relation.ReflTransGen Change

theorem changes_adopt (t : Tree) (p c : NodeId) : Changes t (t.adopt p c).tree := by
  rcases t.adopt_cases p c with ⟨e, he⟩ | ⟨hp, hc, hne, hfree, he⟩
  · rw [he]
  · rw [he]
    exact .single (.link hp hc hne hfree)

theorem changes_adopt2 (t : Tree) (p l r : NodeId) : Changes t (t.adopt2 p l r).tree := by
  have hfirst := t.changes_adopt p l
  unfold adopt2
  dsimp only
  split
  · exact hfirst.trans (changes_adopt _ p r)
  · exact hfirst

theorem changes_adoptAs (t : Tree) (p c : NodeId) (tag : Tag) : Changes t (t.adoptAs p c tag).tree := by
  have hfirst := t.changes_adopt p c
  unfold adoptAs
  dsimp only
  split
  · exact hfirst.tail (.setTag p tag)
  · exact hfirst

theorem changes_adoptFunction (t : Tree) (decl params terminator : NodeId) :
    Changes t (t.adoptFunction decl params terminator).tree := by
  have hjoined (tag : Tag) (lexeme : Lexeme) (root : NodeId) :
      Changes t ((t.push tag lexeme).2.adopt2 root decl params).tree :=
    (Relation.ReflTransGen.single (.push tag lexeme)).trans (changes_adopt2 _ root decl params)
  unfold adoptFunction
  dsimp only
  split
  · split
    · exact (hjoined _ _ _).tail (.release terminator)
    · exact hjoined _ _ _
  · split
    · exact (hjoined _ _ _).trans (changes_adopt _ _ terminator)
    · exact hjoined _ _ _

theorem changes_run (t : Tree) (op : TreeOp) : Changes t (t.run op).tree := by
  cases op with
  | push tag lexeme => exact .single (.push tag lexeme)
  | adopt p c => exact t.changes_adopt p c
  | adopt2 p l r => exact t.changes_adopt2 p l r
  | adoptAs p c tag => exact t.changes_adoptAs p c tag
  | adoptFunction decl params terminator => exact t.changes_adoptFunction decl params terminator
  | setTag n tag => exact .single (.setTag n tag)
  | release n => exact .single (.release n)

theorem changes_runAll (t : Tree) (ops : List TreeOp) : Changes t (t.runAll ops) := by
  induction ops generalizing t with
  | nil => exact .refl
  | cons op ops ih => exact (t.changes_run op).trans (ih _)

def releaseChild (depth : Nat) (s : List NodeId × Tree) (c : NodeId) : List NodeId × Tree :=
  (s.1 ++ (releaseWithin depth (s.2.setParent c none) c).1, (releaseWithin depth (s.2.setParent c none) c).2)

theorem releaseWithin_succ (depth : Nat) (t : Tree) (n : NodeId) :
    releaseWithin (depth + 1) t n =
      if t.tag n = .released then ([], t)
      else
        let below := (t.children n).reverse.foldl (releaseChild depth) ([], t.setChildren n [])
        (below.1 ++ [n], (below.2.detach n).setTag n .released) := by
  rw [releaseWithin]
  rfl

/-- A release takes the children of nodes away, cuts nodes off, takes nodes out of their parents' lists and marks them. What
    is true of each of these and can be chained is true of a release. -/
theorem releaseWithin_rel {R : Tree → Tree → Prop} (hrefl : ∀ t, R t t) (htrans : ∀ {t u v}, R t u → R u v → R t v)
    (hchildren : ∀ t n, R t (t.setChildren n [])) (hparent : ∀ t c, R t (t.setParent c none))
    (hdetach : ∀ t n, R t (t.detach n)) (htag : ∀ t n, R t (t.setTag n .released)) (depth : Nat) (t : Tree) (n : NodeId) :
    R t (releaseWithin depth t n).2 := by
  induction depth generalizing t n with
  | zero => exact hrefl t
  | succ depth ih =>
    have hall (cs : List NodeId) (s : List NodeId × Tree) : R s.2 (cs.foldl (releaseChild depth) s).2 := by
      induction cs generalizing s with
      | nil => exact hrefl s.2
      | cons c cs ihs => exact htrans (htrans (hparent s.2 c) (ih _ c)) (ihs (releaseChild depth s c))
    rw [releaseWithin_succ]
    split
    · exact hrefl t
    · exact htrans (htrans (htrans (hchildren t n) (hall _ ([], t.setChildren n []))) (hdetach _ n)) (htag _ n)

/-- Parents and children agree, except that the nodes in `cut` are missing from the lists of their parents. -/
structure LinkedBut (cut : List NodeId) (t : Tree) : Prop where
  mem_iff : ∀ p c, c ∈ t.children p ↔ t.parent c = some p ∧ c ∉ cut
  nodup : ∀ p, (t.children p).Nodup

/-- A node is among the children of another exactly if that one is its parent, and it is there once. -/
abbrev Linked : Tree → Prop := LinkedBut []

section LinkedBut

variable {cut : List NodeId}

theorem LinkedBut.setTag (h : t.LinkedBut cut) (n : NodeId) (tag : Tag) : (t.setTag n tag).LinkedBut cut where
  mem_iff p c := by
    rw [children_setTag, parent_setTag]
    exact h.mem_iff p c
  nodup p := by
    rw [children_setTag]
    exact h.nodup p

theorem LinkedBut.takeChildren (h : t.LinkedBut cut) (n : NodeId) :
    (t.setChildren n []).LinkedBut (t.children n ++ cut) where
  mem_iff p c := by
    rw [children_setChildren_nil, parent_setChildren, List.mem_append]
    have hc := h.mem_iff p c
    have hn := h.mem_iff n c
    split
    · rename_i hp
      subst hp
      simp only [List.not_mem_nil, false_iff]
      tauto
    · rename_i hp
      have hother : t.parent c = some p → c ∉ t.children n := fun hparent hmem =>
        hp (Option.some.inj (hparent.symm.trans (hn.mp hmem).1))
      tauto
  nodup p := by
    rw [children_setChildren_nil]
    split
    · exact List.nodup_nil
    · exact h.nodup p

theorem LinkedBut.cutOff (h : t.LinkedBut (n :: cut)) : (t.setParent n none).LinkedBut cut where
  mem_iff p c := by
    rw [children_setParent, parent_setParent_none, h.mem_iff]
    split
    · rename_i hc
      simp [hc]
    · rename_i hc
      simp [hc]
  nodup p := by
    rw [children_setParent]
    exact h.nodup p

theorem LinkedBut.detach (h : t.LinkedBut cut) (n : NodeId) : (t.detach n).LinkedBut cut where
  mem_iff p c := by
    rw [children_detach, parent_detach]
    have hc := h.mem_iff p c
    by_cases hn : c = n
    · subst hn
      rw [if_pos rfl]
      split
      · simp
      · rename_i hp
        simp only [reduceCtorEq, false_and, iff_false]
        exact fun hmem => hp (hc.mp hmem).1
    · rw [if_neg hn]
      split
      · simp [hn, hc]
      · exact hc
  nodup p := by
    rw [children_detach]
    split
    · exact (h.nodup p).filter _
    · exact h.nodup p

theorem LinkedBut.releaseWithin (h : t.LinkedBut cut) (depth : Nat) (n : NodeId) :
    (releaseWithin depth t n).2.LinkedBut cut := by
  induction depth generalizing t n cut with
  | zero => exact h
  | succ depth ih =>
    -- The children that are still to be released are cut, whichever nodes are released before them.
    have hall (cs : List NodeId) (s : List NodeId × Tree) (hs : s.2.LinkedBut (cs ++ cut)) :
        (cs.foldl (releaseChild depth) s).2.LinkedBut cut := by
      induction cs generalizing s with
      | nil => exact hs
      | cons c cs ihs => exact ihs _ (ih hs.cutOff c)
    rw [releaseWithin_succ]
    split
    · exact h
    · have htaken : (t.setChildren n []).LinkedBut ((t.children n).reverse ++ cut) :=
        { h.takeChildren n with mem_iff := fun p c => by simpa using (h.takeChildren n).mem_iff p c }
      exact ((hall _ ([], t.setChildren n []) htaken).detach n).setTag n .released

end LinkedBut

theorem Linked.push (h : t.Linked) (tag : Tag) (lexeme : Lexeme) : (t.push tag lexeme).2.Linked where
  mem_iff p c := by
    rw [children_push, parent_push]
    exact h.mem_iff p c
  nodup p := by
    rw [children_push]
    exact h.nodup p

theorem Linked.link (h : t.Linked) (hp : p.index < t.size) (hc : c.index < t.size) (hne : p ≠ c)
    (hfree : t.parent c = none) : (t.link p c).Linked := by
  have hnew (q : NodeId) : c ∉ t.children q := fun hmem => by
    rw [h.mem_iff, hfree] at hmem
    cases hmem.1
  constructor
  · intro q d
    rw [children_link hp hc hne, parent_link hp hc hne]
    have hd := h.mem_iff q d
    by_cases hdc : d = c
    · subst hdc
      rw [if_pos rfl]
      split
      · rename_i hq
        simp [hq]
      · rename_i hq
        simpa [hnew q] using fun heq => hq heq.symm
    · rw [if_neg hdc]
      split
      · rename_i hq
        subst hq
        simp [hdc, hd]
      · exact hd
  · intro q
    rw [children_link hp hc hne]
    split
    · exact List.nodup_append.mpr ⟨h.nodup p, List.nodup_singleton c, fun a ha b hb heq =>
        hnew p (List.mem_singleton.mp hb ▸ heq ▸ ha)⟩
    · exact h.nodup q

theorem Linked.change (h : t.Linked) (hchange : Change t t') : t'.Linked := by
  cases hchange with
  | push tag lexeme => exact h.push tag lexeme
  | link hp hc hne hfree => exact h.link hp hc hne hfree
  | setTag n tag => exact h.setTag n tag
  | release n => exact h.releaseWithin (t.size + 1) n

theorem Linked.changes (h : t.Linked) (hchanges : Changes t t') : t'.Linked := by
  induction hchanges with
  | refl => exact h
  | tail _ hchange ih => exact ih.change hchange

theorem linked_empty : empty.Linked := by
  have hnode (n : NodeId) : empty.children n = [] ∧ empty.parent n = none := by
    obtain ⟨i⟩ := n
    cases i with
    | zero => exact ⟨rfl, rfl⟩
    | succ i => exact ⟨rfl, rfl⟩
  exact ⟨fun p c => by simp [hnode], fun p => by simp [hnode]⟩

/-- All nodes of the first tree are in the second one with the same lexemes. -/
structure Keeps (t t' : Tree) : Prop where
  size : t.size ≤ t'.size
  lexeme : ∀ n : NodeId, n.index < t.size → t'.lexeme n = t.lexeme n

theorem Keeps.refl (t : Tree) : Keeps t t := ⟨Nat.le_refl _, fun _ _ => rfl⟩

theorem Keeps.trans {u : Tree} (h : Keeps t u) (h' : Keeps u t') : Keeps t t' where
  size := Nat.le_trans h.size h'.size
  lexeme n hn := (h'.lexeme n (Nat.lt_of_lt_of_le hn h.size)).trans (h.lexeme n hn)

theorem keeps_modify (t : Tree) (n : NodeId) (hf : ∀ x, (f x).lexeme = x.lexeme) : Keeps t (t.modify n f) :=
  ⟨Nat.le_of_eq (size_modify t n f).symm, fun m _ => apply_modify Node.lexeme n m hf⟩

theorem keeps_setTag (t : Tree) (n : NodeId) (tag : Tag) : Keeps t (t.setTag n tag) := t.keeps_modify n fun _ => rfl

theorem keeps_setParent (t : Tree) (n : NodeId) (q : Option NodeId) : Keeps t (t.setParent n q) := t.keeps_modify n fun _ => rfl

theorem keeps_detach (t : Tree) (n : NodeId) : Keeps t (t.detach n) := by
  unfold detach
  split
  · exact .refl t
  · exact (t.keeps_setParent n none).trans (keeps_modify _ _ fun _ => rfl)

theorem Change.keeps (h : Change t t') : Keeps t t' := by
  cases h with
  | push tag lexeme =>
    refine ⟨by rw [size_push]; exact Nat.le_succ _, fun n hn => ?_⟩
    rw [Tree.lexeme, node_push, if_neg]
    · rfl
    · rintro rfl
      exact Nat.lt_irrefl _ hn
  | link => exact (t.keeps_setParent _ _).trans (keeps_modify _ _ fun _ => rfl)
  | setTag n tag => exact t.keeps_setTag n tag
  | release n =>
    exact releaseWithin_rel .refl .trans (fun t n => t.keeps_modify n fun _ => rfl) (fun t c => t.keeps_setParent c none)
      keeps_detach (fun t n => t.keeps_setTag n .released) _ t n

theorem Changes.keeps (h : Changes t t') : Keeps t t' := by
  induction h with
  | refl => exact .refl t
  | tail _ hchange ih => exact ih.trans hchange.keeps

/-! ### Operations one after another -/

/-- After any operations, with success or without, a node is among the children of another exactly if that one is its
    parent, and it is there once. Whatever is done then, all nodes keep their lexemes. An adoption that is refused changes
    neither the tree nor what is known of it. -/
theorem links_agree (ops : List TreeOp) :
    (∀ p c, c ∈ (empty.runAll ops).children p ↔ (empty.runAll ops).parent c = some p) ∧
      (∀ p, ((empty.runAll ops).children p).Nodup) ∧
      (∀ (more : List TreeOp) (n : NodeId), n.index < (empty.runAll ops).size →
        ((empty.runAll ops).runAll more).lexeme n = (empty.runAll ops).lexeme n) ∧
      ∀ (w w' : Workspace) (p c : NodeId) (e : LinkError), w.edit (w.tree.adopt p c) = .ok (.error e, w') → w' = w := by
  have hlinked := linked_empty.changes (changes_runAll empty ops)
  refine ⟨fun p c => ?_, hlinked.nodup, fun more n hn => ?_, fun w w' p c e hrefused => ?_⟩
  · rw [hlinked.mem_iff]
    simp
  · exact (changes_runAll _ more).keeps.lexeme n hn
  · rcases w.tree.adopt_cases p c with ⟨e', he⟩ | ⟨-, -, -, -, he⟩
    · rw [he, Workspace.edit] at hrefused
      cases hrequire : Edit.require { outcome := .error e', tree := w.tree } with
      | error fault =>
        rw [hrequire] at hrefused
        cases hrefused
      | ok _ =>
        rw [hrequire] at hrefused
        cases hrefused
        rfl
    · rw [he] at hrefused
      cases hrefused

/-- Nodes that adopt each other, adoptions that are refused, a function of which a part has a parent already, a node that is
    marked as released but was not released, and a release that comes back to where it started. -/
theorem links_agree_misuse :
    let node (i : Nat) : TreeOp := .push .name ⟨"x", ⟨0, 1, i⟩⟩
    let ops : List TreeOp := [node 1, node 2, node 3, .adopt ⟨1⟩ ⟨2⟩, .adopt2 ⟨2⟩ ⟨1⟩ ⟨2⟩, .adopt ⟨3⟩ ⟨1⟩,
      .adoptFunction ⟨3⟩ ⟨1⟩ ⟨2⟩, .setTag ⟨3⟩ .released, .adoptAs ⟨3⟩ ⟨0⟩ .block, .release ⟨2⟩]
    (List.range 5).map (fun i => (empty.runAll (ops.take 9)).parent ⟨i⟩) = [none, some ⟨2⟩, some ⟨1⟩, some ⟨4⟩, none] ∧
      (List.range 5).map (fun i => (empty.runAll ops).parent ⟨i⟩) = [none, none, none, some ⟨4⟩, none] ∧
      (Workspace.edit { tree := empty.runAll ops } ((empty.runAll ops).adopt ⟨4⟩ ⟨3⟩)).toOption.map (·.1.toOption) = some none ∧
      (∀ p c, c ∈ (empty.runAll ops).children p ↔ (empty.runAll ops).parent c = some p) ∧
      (∀ p, ((empty.runAll ops).children p).Nodup) ∧
      (∀ (more : List TreeOp) (n : NodeId), n.index < (empty.runAll ops).size →
        ((empty.runAll ops).runAll more).lexeme n = (empty.runAll ops).lexeme n) ∧
      ∀ (w w' : Workspace) (p c : NodeId) (e : LinkError), w.edit (w.tree.adopt p c) = .ok (.error e, w') → w' = w := by
  intro node ops
  exact ⟨by decide +kernel, by decide +kernel, by decide +kernel, links_agree ops⟩

end Tree

end OcCompiler
