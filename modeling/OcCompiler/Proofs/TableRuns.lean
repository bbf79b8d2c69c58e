import Mathlib.Data.List.Induction
import OcCompiler.Proofs.ScopeFrame

/-! Symbol tables that anything may be done to. Every block that was opened has one scope, a binding that was made
    stays, and what is bound inside a block is not seen behind it. -/

namespace OcCompiler.SymbolTable

/-- What can be done to a symbol table. -/
inductive Operation where
  | enter
  | exit
  | push (x : Symbol)
  | insert (name : String) (id : SymbolId)
  | useTag (tag : Lexeme)
  /-- Looks a name up in all open scopes, in the innermost one or in a block. -/
  | find (name : String)

def Operation.isLocal : Operation → Bool
  | .enter | .exit => false
  | _ => true

/-- The table after an operation. A name that is refused and a name that is looked up leave it as it is. -/
def Operation.apply (s : SymbolTable) : Operation → SymbolTable
  | .enter => s.enterBlock
  | .exit => s.exitBlock.2
  | .push x => (s.push x).2
  | .insert name id => (s.insert name id).toOption.getD s
  | .useTag tag => (s.structOrPlaceholder tag).2
  | .find _ => s

def ofOperations (ops : List Operation) : SymbolTable := ops.foldl Operation.apply {}

variable {s : SymbolTable} {op : Operation} {ops : List Operation} {b : Nat} {x : String} {id : SymbolId}

theorem ofOperations_concat (ops : List Operation) (op : Operation) :
    ofOperations (ops ++ [op]) = op.apply (ofOperations ops) := by
  rw [ofOperations, List.foldl_append]
  rfl

theorem Operation.frame (h : op.isLocal = true) (s : SymbolTable) : Frame s (op.apply s) := by
  cases op with
  | enter => cases h
  | exit => cases h
  | push x => exact .of_eq rfl rfl rfl
  | insert name id =>
    rw [apply]
    cases hs : s.insert name id with
    | error existing => exact .refl s
    | ok s' => exact (plain_insert hs).frame
  | useTag tag => exact (plain_structOrPlaceholder s tag).frame
  | find name => exact .refl s

theorem Numbered.apply (h : s.Numbered) (op : Operation) : (op.apply s).Numbered := by
  cases op with
  | enter => exact Step.enterBlock.numbered h
  | exit => exact Step.exitBlock.numbered h
  | push x => exact h
  | insert name id =>
    rw [Operation.apply]
    cases hs : s.insert name id with
    | error existing => exact h
    | ok s' => exact (Step.bind hs).numbered h
  | useTag tag => exact (Step.useTag tag).numbered h
  | find name => exact h

theorem archive_apply (s : SymbolTable) (op : Operation) : s.archive.toList <+: (op.apply s).archive.toList := by
  cases op with
  | enter => exact List.prefix_refl _
  | exit =>
    rw [Operation.apply, exitBlock]
    split
    · exact List.prefix_refl _
    · rw [Array.toList_push]
      exact List.prefix_append _ _
  | _ => exact (Operation.frame rfl s).archive

/-- Blocks are open in the order of their numbers, the global one at the bottom. -/
structure Stacked (s : SymbolTable) : Prop where
  increasing : s.openBlocks.Pairwise (· > ·)
  bottom : s.openBlocks.getLast? = some globalBlock

theorem Stacked.of_frame {s' : SymbolTable} (h : s.Stacked) (hframe : Frame s s') : s'.Stacked := by
  obtain ⟨hincreasing, hbottom⟩ := h
  rw [← hframe.openBlocks] at hincreasing hbottom
  exact ⟨hincreasing, hbottom⟩

theorem Stacked.apply (hs : s.Numbered) (h : s.Stacked) (op : Operation) : (op.apply s).Stacked := by
  cases op with
  | enter =>
    refine ⟨List.pairwise_cons.mpr ⟨fun b hb => ?_, h.increasing⟩, ?_⟩
    · obtain ⟨c, hc, rfl⟩ := List.mem_map.mp hb
      have hscope : c ∈ s.scopes := List.mem_append_right _ (List.mem_reverse.mpr hc)
      exact List.mem_range.mp (hs.mem_iff.mp (List.mem_map_of_mem hscope))
    · have hbottom : (s.nextBlock :: s.openBlocks).getLast? = s.openBlocks.getLast? := List.getLast?_cons_cons
      exact hbottom.trans h.bottom
  | exit =>
    rw [Operation.apply, exitBlock]
    split
    · exact h
    · rename_i around outer houter
      have hopen : s.openBlocks = s.inner.block :: around.block :: outer.map Scope.block := by
        rw [openBlocks, openScopes, houter]
        rfl
      obtain ⟨hincreasing, hbottom⟩ := h
      rw [hopen] at hincreasing hbottom
      exact ⟨(List.pairwise_cons.mp hincreasing).2, List.getLast?_cons_cons.symm.trans hbottom⟩
  | _ => exact h.of_frame (Operation.frame rfl s)

theorem Numbered.lookupInBlock_eq_some_iff (h : s.Numbered) :
    s.lookupInBlock b x = some id ↔ ∃ c ∈ s.scopes, c.block = b ∧ c.find? x = some id := by
  have hnodup : (s.scopes.map Scope.block).Nodup := h.symm.nodup List.nodup_range
  rw [lookupInBlock, Option.bind_eq_some_iff]
  constructor
  · rintro ⟨c, hc, hfind⟩
    exact ⟨c, List.mem_of_find?_eq_some hc, by simpa using List.find?_some hc, hfind⟩
  · rintro ⟨c, hc, hblock, hfind⟩
    obtain ⟨c', hc'⟩ : ∃ c', s.scopes.find? (·.block == b) = some c' :=
      Option.isSome_iff_exists.mp (List.find?_isSome.mpr ⟨c, hc, beq_iff_eq.mpr hblock⟩)
    have hblock' : c'.block = b := by simpa using List.find?_some hc'
    have hsame := List.inj_on_of_nodup_map hnodup (List.mem_of_find?_eq_some hc') hc (hblock'.trans hblock.symm)
    exact ⟨c', hc', hsame ▸ hfind⟩

def Operation.Binds (op : Operation) (s : SymbolTable) (b : Nat) (x : String) (id : SymbolId) : Prop :=
  op = .insert x id ∧ s.currentBlock = b ∧ ∃ s', s.insert x id = .ok s'

theorem scopes_insert {s' : SymbolTable} (h : s.insert x id = .ok s') :
    s.inner.find? x = none ∧ s.scopes = s.archive.toList ++ s.outer.reverse ++ [s.inner] ∧
      s'.scopes = s.archive.toList ++ s.outer.reverse ++ [s.inner.bind x id] := by
  unfold insert at h
  split at h
  · cases h
  · rename_i hnone
    cases h
    exact ⟨hnone, by simp [scopes, openScopes], by simp [scopes, openScopes]⟩

theorem Numbered.lookupInBlock_apply (h : s.Numbered) (op : Operation) :
    (op.apply s).lookupInBlock b x = some id ↔ s.lookupInBlock b x = some id ∨ op.Binds s b x id := by
  have hnone (hop : ∀ name id, op ≠ .insert name id) : ¬op.Binds s b x id := fun hbinds => hop x id hbinds.1
  rw [(h.apply op).lookupInBlock_eq_some_iff, h.lookupInBlock_eq_some_iff]
  cases op with
  | enter =>
    rw [or_iff_left (hnone (by simp)), Operation.apply, scopes_enterBlock]
    simp only [List.mem_append, or_and_right, exists_or, or_iff_left_iff_imp]
    rintro ⟨c, hc, -, hfind⟩
    rw [List.mem_singleton.mp hc] at hfind
    cases hfind
  | exit =>
    rw [or_iff_left (hnone (by simp)), Operation.apply]
    simp only [(scopes_exitBlock s).mem_iff]
  | push y | find name => exact (or_iff_left (hnone (by simp))).symm
  | useTag tag =>
    have hscopes : (s.structOrPlaceholder tag).2.scopes = s.scopes := by
      unfold structOrPlaceholder
      split <;> rfl
    rw [or_iff_left (hnone (by simp)), Operation.apply, hscopes]
  | insert name id' =>
    rw [Operation.apply]
    cases hs : s.insert name id' with
    | error existing =>
      refine (or_iff_left ?_).symm
      rintro ⟨hop, -, s', hs'⟩
      cases hop
      rw [hs] at hs'
      cases hs'
    | ok s' =>
      obtain ⟨hfree, hbefore, hafter⟩ := scopes_insert hs
      show (∃ c ∈ s'.scopes, _) ↔ _
      rw [hbefore, hafter]
      simp only [List.mem_append, List.mem_singleton, or_and_right, exists_or, exists_eq_left, or_assoc, Scope.find?_bind]
      refine or_congr_right (or_congr_right ?_)
      show s.inner.block = b ∧ _ ↔ _
      by_cases hname : x = name
      · subst hname
        rw [hfree, if_pos rfl, Option.none_or]
        constructor
        · rintro ⟨hb, hid⟩
          cases hid
          exact .inr ⟨rfl, hb, s', hs⟩
        · rintro (⟨-, hid⟩ | ⟨hop, hb, -⟩)
          · cases hid
          · cases hop
            exact ⟨hb, rfl⟩
      · rw [if_neg hname, Option.or_none, or_iff_left]
        rintro ⟨hop, -⟩
        cases hop
        exact hname rfl

theorem Numbered.lookup_eq (h : s.Numbered) (x : String) :
    s.lookup x = s.openBlocks.findSome? (s.lookupInBlock · x) := by
  have hopen : ∀ c ∈ s.openScopes, c.find? x = s.lookupInBlock c.block x := by
    intro c hc
    have hscope : c ∈ s.scopes := List.mem_append_right _ (List.mem_reverse.mpr hc)
    refine Option.ext fun id => ?_
    rw [h.lookupInBlock_eq_some_iff]
    refine ⟨fun hid => ⟨c, hscope, rfl, hid⟩, ?_⟩
    rintro ⟨c', hc', hblock, hid⟩
    exact List.inj_on_of_nodup_map (h.symm.nodup List.nodup_range) hc' hscope hblock ▸ hid
  rw [lookup, openBlocks, List.findSome?_map, ← List.head?_filterMap, ← List.head?_filterMap]
  exact congrArg List.head? (List.filterMap_congr hopen)

/-- Every block that is opened is closed again, and no other is closed. -/
inductive Balanced : List Operation → Prop
  | nil : Balanced []
  | cons {op : Operation} {ops : List Operation} (hop : op.isLocal = true) (h : Balanced ops) : Balanced (op :: ops)
  | block {body ops : List Operation} (hbody : Balanced body) (h : Balanced ops) :
    Balanced (.enter :: (body ++ .exit :: ops))

theorem Balanced.frame (h : Balanced ops) (s : SymbolTable) : Frame s (ops.foldl Operation.apply s) := by
  induction h generalizing s with
  | nil => exact .refl s
  | cons hop _ ih => exact (Operation.frame hop s).trans (ih _)
  | block _ _ ihbody ih =>
    rw [List.foldl_cons, List.foldl_append, List.foldl_cons]
    exact (ihbody s.enterBlock).closed.trans (ih _)

theorem Balanced.openScopes {body : List Operation} (h : Balanced body) (ops : List Operation) :
    (ofOperations (ops ++ (.enter :: body ++ [.exit]))).openScopes = (ofOperations ops).openScopes := by
  have houter := (h.frame (ofOperations ops).enterBlock).outer
  rw [ofOperations, List.foldl_append, List.foldl_append]
  show (exitBlock (body.foldl Operation.apply (ofOperations ops).enterBlock)).2.openScopes = _
  rw [exitBlock, houter]
  rfl

theorem numbered_ofOperations (ops : List Operation) : (ofOperations ops).Numbered := by
  induction ops using List.reverseRecOn with
  | nil => exact numbered_empty
  | append_singleton ops op ih => exact ofOperations_concat ops op ▸ ih.apply op

theorem stacked_ofOperations (ops : List Operation) : (ofOperations ops).Stacked := by
  induction ops using List.reverseRecOn with
  | nil => exact ⟨List.pairwise_singleton _ _, rfl⟩
  | append_singleton ops op ih => exact ofOperations_concat ops op ▸ ih.apply (numbered_ofOperations ops) op

theorem archive_ofOperations (ops later : List Operation) :
    (ofOperations ops).archive.toList <+: (ofOperations (ops ++ later)).archive.toList := by
  induction later using List.reverseRecOn with
  | nil => simpa only [List.append_nil] using List.prefix_refl _
  | append_singleton later op ih =>
    rw [← List.append_assoc, ofOperations_concat]
    exact ih.trans (archive_apply _ op)

theorem lookupInBlock_ofOperations :
    (ofOperations ops).lookupInBlock b x = some id ↔
      ∃ before after, ops = before ++ .insert x id :: after ∧ (ofOperations before).currentBlock = b ∧
        ∃ s, (ofOperations before).insert x id = .ok s := by
  induction ops using List.reverseRecOn with
  | nil =>
    refine iff_of_false ?_ ?_
    · rw [(numbered_ofOperations []).lookupInBlock_eq_some_iff]
      rintro ⟨c, hc, -, hfind⟩
      rw [List.mem_singleton.mp hc] at hfind
      cases hfind
    · rintro ⟨before, after, h, -⟩
      exact List.append_ne_nil_of_right_ne_nil before (List.cons_ne_nil _ after) h.symm
  | append_singleton ops op ih =>
    rw [ofOperations_concat, (numbered_ofOperations ops).lookupInBlock_apply, ih]
    constructor
    · rintro (⟨before, after, rfl, hbinds⟩ | ⟨rfl, hbinds⟩)
      · exact ⟨before, after ++ [op], by simp, hbinds⟩
      · exact ⟨ops, [], rfl, hbinds⟩
    · rintro ⟨before, after, h, hbinds⟩
      rcases List.eq_nil_or_concat after with rfl | ⟨after, last, rfl⟩
      · obtain ⟨rfl, hop⟩ := List.append_inj' h rfl
        cases hop
        exact .inr ⟨rfl, hbinds⟩
      · rw [List.concat_eq_append, ← List.cons_append, ← List.append_assoc] at h
        exact .inl ⟨before, after, (List.append_inj' h rfl).1, hbinds⟩

/-- Whatever was done to a table, the blocks that were opened are numbered without gaps and each has one scope, those still
    open in the order in which they were opened. Closed scopes and bindings stay. A name stands for its binding in the
    innermost open block that has one, a block has the bindings that were made in it, a name is bound if and only if the
    innermost block does not have it yet, and a block that was opened and closed again leaves every name with the binding
    it had. -/
theorem ofOperations_keeps (ops : List Operation) :
    ((ofOperations ops).scopes.map Scope.block).Perm (List.range (ofOperations ops).nextBlock) ∧
      ((ofOperations ops).openBlocks.reverse.head? = some globalBlock ∧
        (ofOperations ops).openBlocks.reverse.Pairwise (· < ·)) ∧
      (∀ later, (ofOperations ops).archive.toList <+: (ofOperations (ops ++ later)).archive.toList ∧
        ∀ b x id, (ofOperations ops).lookupInBlock b x = some id →
          (ofOperations (ops ++ later)).lookupInBlock b x = some id) ∧
      (∀ x id, (ofOperations ops).lookup x = some id ↔
        ∃ inside b outside, (ofOperations ops).openBlocks = inside ++ b :: outside ∧
          (ofOperations ops).lookupInBlock b x = some id ∧ ∀ b' ∈ inside, (ofOperations ops).lookupInBlock b' x = none) ∧
      (∀ b x id, (ofOperations ops).lookupInBlock b x = some id ↔
        ∃ before after, ops = before ++ .insert x id :: after ∧ (ofOperations before).currentBlock = b ∧
          ∃ s, (ofOperations before).insert x id = .ok s) ∧
      (∀ x id, match (ofOperations ops).insert x id with
        | .ok s => (ofOperations ops).lookupLocal x = none ∧ ofOperations (ops ++ [.insert x id]) = s ∧ s.lookup x = some id
        | .error existing => (ofOperations ops).lookupLocal x = some existing ∧
            ofOperations (ops ++ [.insert x id]) = ofOperations ops) ∧
      ∀ body, Balanced body → ∀ x,
        (ofOperations (ops ++ (.enter :: body ++ [.exit]))).lookup x = (ofOperations ops).lookup x ∧
          (ofOperations (ops ++ (.enter :: body ++ [.exit]))).lookupLocal x = (ofOperations ops).lookupLocal x := by
  have hstacked := stacked_ofOperations ops
  refine ⟨numbered_ofOperations ops, ⟨?_, ?_⟩, fun later => ⟨archive_ofOperations ops later, fun b x id h => ?_⟩,
    fun x id => ?_, fun b x id => lookupInBlock_ofOperations, fun x id => ?_, fun body hbody x => ?_⟩
  · rw [List.head?_reverse]
    exact hstacked.bottom
  · exact List.pairwise_reverse.mpr hstacked.increasing
  · obtain ⟨before, after, rfl, hbinds⟩ := lookupInBlock_ofOperations.mp h
    exact lookupInBlock_ofOperations.mpr ⟨before, after ++ later, by simp, hbinds⟩
  · rw [(numbered_ofOperations ops).lookup_eq, List.findSome?_eq_some_iff]
  · rw [ofOperations_concat, Operation.apply]
    cases hs : (ofOperations ops).insert x id with
    | ok s =>
      refine ⟨?_, rfl, lookup_of_insert_eq_ok hs⟩
      unfold insert at hs
      split at hs
      · cases hs
      · assumption
    | error existing =>
      refine ⟨?_, rfl⟩
      unfold insert at hs
      split at hs
      · cases hs
        assumption
      · cases hs
  · have hopen := hbody.openScopes ops
    refine ⟨?_, congrArg (·.find? x) (List.cons.inj hopen).1⟩
    rw [lookup, lookup, hopen]

/-- A name that is bound inside and outside a block, and refused once. -/
example : (ofOperations [.insert "x" ⟨0⟩, .enter, .insert "x" ⟨1⟩, .insert "x" ⟨2⟩]).lookup "x" = some ⟨1⟩ := by decide

end OcCompiler.SymbolTable
