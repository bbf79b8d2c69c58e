import OcCompiler.Proofs.Scopes
import OcCompiler.Proofs.TreeShape
import OcCompiler.Workspace

/-! What a visit leaves as it was, whatever the state in which it starts: the tree, the open blocks, and all scopes but
    the innermost open one. Behind a whole analysis each block that was opened is found exactly once. -/

namespace OcCompiler

open Analysis

section Folds

variable {ε α β : Type} {f : β → α → Except ε β}

theorem rel_of_foldlM {R : β → β → Prop} (hrefl : ∀ b, R b b) (htrans : ∀ {b c d}, R b c → R c d → R b d) {xs : List α}
    (hf : ∀ {b x c}, x ∈ xs → f b x = .ok c → R b c) {b c : β} (h : xs.foldlM f b = .ok c) : R b c := by
  induction xs generalizing b with
  | nil =>
    cases h
    exact hrefl _
  | cons x xs ih =>
    rw [List.foldlM_cons] at h
    obtain ⟨d, hd, h⟩ := bind_eq_ok_iff.mp h
    exact htrans (hf List.mem_cons_self hd) (ih (fun hx => hf (List.mem_cons_of_mem _ hx)) h)

theorem foldlM_ends {P : β → Prop} {xs : List α} (hf : ∀ x ∈ xs, ∀ b, P b → ∃ c, f b x = .ok c ∧ P c) {b : β} (hb : P b) :
    ∃ c, xs.foldlM f b = .ok c ∧ P c := by
  induction xs generalizing b with
  | nil => exact ⟨b, rfl, hb⟩
  | cons x xs ih =>
    obtain ⟨hx, hxs⟩ := List.forall_mem_cons.mp hf
    obtain ⟨c, hc, hpc⟩ := hx b hb
    obtain ⟨d, hd, hpd⟩ := ih hxs hpc
    refine ⟨d, ?_, hpd⟩
    rw [List.foldlM_cons, hc]
    exact hd

theorem mapM_ends {f : α → Except ε β} {xs : List α} (hf : ∀ x ∈ xs, ∃ y, f x = .ok y) : ∃ ys, xs.mapM f = .ok ys := by
  induction xs with
  | nil => exact ⟨[], rfl⟩
  | cons x xs ih =>
    obtain ⟨⟨y, hy⟩, hxs⟩ := List.forall_mem_cons.mp hf
    obtain ⟨ys, hys⟩ := ih hxs
    refine ⟨y :: ys, ?_⟩
    rw [List.mapM_cons, hy, ok_bind, hys]
    rfl

theorem exists_of_mem_mapM {f : α → Except ε β} {xs : List α} {ys : List β} (h : xs.mapM f = .ok ys) {y : β} (hy : y ∈ ys) :
    ∃ x ∈ xs, f x = .ok y := by
  have hall := forall₂_of_mapM h
  clear h
  induction hall with
  | nil => cases hy
  | cons hx _ ih =>
    rcases List.mem_cons.mp hy with rfl | hy
    · exact ⟨_, List.mem_cons_self, hx⟩
    · obtain ⟨x, hmem, hx⟩ := ih hy
      exact ⟨x, List.mem_cons_of_mem _ hmem, hx⟩

end Folds

namespace SymbolTable

variable {s s' s'' : SymbolTable}

/-- What happens to the symbol table on a visit: changes after which the scopes are as they were, apart from bindings
    that are new in the innermost one. -/
structure Passes (s s' : SymbolTable) : Prop where
  steps : Steps s s'
  frame : Frame s s'

theorem Passes.refl (s : SymbolTable) : Passes s s := ⟨.refl s, .refl s⟩

theorem Passes.trans (h : Passes s s') (h' : Passes s' s'') : Passes s s'' :=
  ⟨h.steps.trans h'.steps, h.frame.trans h'.frame⟩

theorem Local.passes (h : Local s s') : Passes s s' := ⟨h.steps, h.frame⟩

theorem Passes.closed (h : Passes s.enterBlock s') : Passes s s'.exitBlock.2 :=
  ⟨(Step.enterBlock.steps.trans h.steps).step .exitBlock, h.frame.closed⟩

def Numbered (s : SymbolTable) : Prop := (s.scopes.map Scope.block).Perm (List.range s.nextBlock)

theorem numbered_empty : Numbered {} := .refl _

theorem Step.numbered (h : Step s s') (hs : s.Numbered) : s'.Numbered := by
  cases h with
  | useTag tag =>
    unfold structOrPlaceholder
    split <;> exact hs
  | bind h =>
    unfold insert at h
    split at h
    · cases h
    · cases h
      simpa [Numbered, scopes, openScopes, Scope.bind] using hs
  | enterBlock =>
    rw [Numbered, scopes_enterBlock, List.map_append]
    show (_ ++ [s.nextBlock]).Perm (List.range (s.nextBlock + 1))
    rw [List.range_succ]
    exact hs.append_right _
  | exitBlock =>
    have hnext : s.exitBlock.2.nextBlock = s.nextBlock := by
      unfold SymbolTable.exitBlock
      split <;> rfl
    rw [Numbered, hnext]
    exact ((scopes_exitBlock s).map _).trans hs
  | _ => exact hs

def TagsKnown (s : SymbolTable) : Prop := ∀ p ∈ s.structs, p.2.index < s.size

theorem tagsKnown_empty : TagsKnown {} := nofun

theorem TagsKnown.structOrPlaceholder (h : s.TagsKnown) (tag : Lexeme) :
    (s.structOrPlaceholder tag).1.index < (s.structOrPlaceholder tag).2.size ∧ (s.structOrPlaceholder tag).2.TagsKnown := by
  unfold SymbolTable.structOrPlaceholder
  split
  · rename_i id hid
    exact ⟨h _ (mem_of_lookup hid), h⟩
  · have hsize (x : Symbol) : s.size < (s.push x).2.size := by
      rw [size_push]
      exact Nat.lt_succ_self _
    refine ⟨hsize _, fun p hp => ?_⟩
    rcases List.mem_append.mp hp with hp | hp
    · exact Nat.lt_trans (h p hp) (hsize _)
    · rw [List.mem_singleton.mp hp]
      exact hsize _

theorem Step.tagsKnown (h : Step s s') (hs : s.TagsKnown) : s'.TagsKnown := by
  cases h with
  | declare x type roles =>
    intro p hp
    rw [size_push]
    exact Nat.lt_succ_of_lt (hs p hp)
  | useTag tag => exact (hs.structOrPlaceholder tag).2
  | bind h =>
    unfold insert at h
    split at h
    · cases h
    · cases h
      exact hs
  | exitBlock =>
    unfold SymbolTable.exitBlock
    split <;> exact hs
  | openBody | addField | setParams | settle =>
    intro p hp
    rw [size_modify]
    exact hs p hp
  | _ => exact hs

end SymbolTable

open SymbolTable (Local Passes Plain TagsKnown)

/-! ### What a visit does to the scopes -/

namespace Analysis

variable {t : Tree} {n : NodeId} {a b : Analysis} {opened : Bool} {depth : Nat}

theorem plain_defineField {struct : SymbolId} {name : String} {decl : NodeId}
    (h : defineField t struct name depth a decl = .ok b) : Plain a.symbols b.symbols := by
  obtain ⟨d, -, h⟩ := bind_eq_ok_iff.mp h
  dsimp only at h
  split at h
  · cases h
    exact (a.plain_define d rfl).trans (plain_addField _ struct (a.define_lt d _) depth)
  · cases h

theorem plain_defineStruct {accepted : Bool} (h : a.defineStruct t n = .ok (accepted, b)) : Plain a.symbols b.symbols := by
  obtain ⟨name, -, h⟩ := bind_eq_ok_iff.mp h
  have hopen := a.plain_openStruct name (t.lexeme name)
  split at h
  · rename_i c hc
    cases h
    rwa [hc] at hopen
  · rename_i id c hc
    obtain ⟨d, hd, h⟩ := bind_eq_ok_iff.mp h
    cases h
    rw [hc] at hopen
    exact hopen.trans (rel_of_foldlM (R := fun a b => Plain a.symbols b.symbols) (fun _ => .refl _) Plain.trans
      (fun _ => plain_defineField) hd)

theorem local_defineFunction {roles : Roles} (h : a.defineFunction t n roles = .ok b) :
    ∃ s, Local a.symbols s ∧ Local s.enterBlock b.symbols := by
  obtain ⟨decl, -, h⟩ := bind_eq_ok_iff.mp h
  obtain ⟨paramList, -, h⟩ := bind_eq_ok_iff.mp h
  obtain ⟨d, -, h⟩ := bind_eq_ok_iff.mp h
  obtain ⟨params, -, h⟩ := bind_eq_ok_iff.mp h
  obtain ⟨s, hs, hopen⟩ := a.local_openFunction d paramList params roles
  refine ⟨s, hs, ?_⟩
  dsimp only at h
  split at h
  · cases h
    exact hopen
  · obtain ⟨body, -, h⟩ := bind_eq_ok_iff.mp h
    split at h
    · cases h
      exact hopen.trans (SymbolTable.Step.recordBlank.local rfl rfl rfl rfl)
    · cases h
      exact hopen

theorem enter_opens (h : a.enter t n = .ok (opened, b)) :
    if opened then ∃ s, Local a.symbols s ∧ Local s.enterBlock b.symbols else Local a.symbols b.symbols := by
  have hplace : Local a.symbols (a.place n (t.tag n)).symbols := by
    rw [symbols_place]
    exact .refl _
  unfold enter at h
  split at h
  · obtain ⟨⟨accepted, c⟩, hc, h⟩ := bind_eq_ok_iff.mp h
    have hdefine := hplace.trans (plain_defineStruct hc).toLocal
    cases h
    cases accepted <;> exact hdefine
  · obtain ⟨c, hc, h⟩ := bind_eq_ok_iff.mp h
    obtain ⟨s, hs, hopen⟩ := local_defineFunction hc
    cases h
    exact ⟨s, hplace.trans hs, hopen⟩
  · obtain ⟨c, hc, h⟩ := bind_eq_ok_iff.mp h
    obtain ⟨s, hs, hopen⟩ := local_defineFunction hc
    cases h
    exact ⟨s, hplace.trans hs, hopen⟩
  · split at h <;> cases h
    · exact .refl _
    · exact ⟨a.symbols, .refl _, .refl _⟩
  · cases h
    exact hplace

theorem steps_enter (h : a.enter t n = .ok (opened, b)) : SymbolTable.Steps a.symbols b.symbols := by
  have hopens := enter_opens h
  cases opened with
  | false => exact hopens.steps
  | true =>
    obtain ⟨s, hs, hopen⟩ := hopens
    exact (hs.steps.step .enterBlock).trans hopen.steps

theorem plain_settle (h : a.settle t n = .ok b) : Plain a.symbols b.symbols := by
  unfold settle at h
  split at h
  · cases h
    rw [reference, symbols_refer]
    exact .refl _
  · obtain ⟨name, -, h⟩ := bind_eq_ok_iff.mp h
    have hstruct := a.plain_useStruct name (t.lexeme name) false
    generalize a.useStruct name (t.lexeme name) false = c at h hstruct
    cases h
    exact hstruct
  · obtain ⟨base, -, h⟩ := bind_eq_ok_iff.mp h
    rw [← Except.ok.inj h]
    split
    · exact a.plain_useStruct _ _ _
    · exact .refl _
  · cases h
    exact .refl _
  · obtain ⟨decl, -, h⟩ := bind_eq_ok_iff.mp h
    obtain ⟨d, -, h⟩ := bind_eq_ok_iff.mp h
    have hdefine : Plain a.symbols (a.define d { var := true, lvalue := true }).2.symbols := a.plain_define d rfl
    generalize a.define d { var := true, lvalue := true } = defined at h hdefine
    rw [← symbols_queueGlobal defined.2 n] at hdefine
    cases h
    exact hdefine
  · cases h
    exact .refl _

theorem symbols_check (h : a.check t n = .ok b) : b.symbols = a.symbols := by
  obtain ⟨v, -, h⟩ := bind_eq_ok_iff.mp h
  dsimp only at h
  split at h
  · obtain ⟨c, hc, h⟩ := bind_eq_ok_iff.mp h
    obtain ⟨field, -, rfl⟩ := map_eq_ok_iff.mp hc
    rw [← Except.ok.inj h, symbols_apply]
    rfl
  · rw [← Except.ok.inj h, symbols_apply]

theorem passes_visitWithin (h : visitWithin t depth n a = .ok b) : Passes a.symbols b.symbols := by
  induction depth generalizing n a b with
  | zero =>
    cases h
    exact .refl _
  | succ depth ih =>
    obtain ⟨⟨opened, c⟩, henter, h⟩ := bind_eq_ok_iff.mp h
    obtain ⟨d, hchildren, h⟩ := bind_eq_ok_iff.mp h
    obtain ⟨e, hleave, hcheck⟩ := bind_eq_ok_iff.mp h
    obtain ⟨f, hsettle, hleave⟩ := bind_eq_ok_iff.mp hleave
    have hopens := enter_opens henter
    have hinside : Passes c.symbols f.symbols :=
      (rel_of_foldlM (R := fun a b => Passes a.symbols b.symbols) (fun _ => .refl _) Passes.trans
        (fun _ => ih) hchildren).trans (plain_settle hsettle).toLocal.passes
    rw [symbols_check hcheck]
    cases hleave
    cases opened with
    | false => exact hopens.passes.trans hinside
    | true =>
      obtain ⟨s, hs, hopen⟩ := hopens
      exact hs.passes.trans (hopen.passes.trans hinside).closed

end Analysis

/-! ### What a visit needs of the tree -/

def Tag.leastChildren : Tag → Nat
  | .function => 3
  | .prototype | .varDecl | .binary _ | .index | .newArray | .select => 2
  | .struct | .whileLoop | .ifThen | .ifElse | .unary _ | .newString | .returnValue | .newStruct | .call => 1
  | _ => 0

namespace Tree

variable {t : Tree} {n : NodeId}

def Shaped (t : Tree) : Prop := ∀ n, t.Fits n ∨ t.tag n = .released ∧ t.children n = []

theorem WellShaped.shaped {tokens : List Token} (h : t.WellShaped tokens) : t.Shaped := by
  intro n
  by_cases htag : t.tag n = .released
  · refine .inr ⟨htag, ?_⟩
    by_cases hn : n.index < t.size
    · exact (h.released_free n hn htag).1
    · rw [children, node_eq_absent (Nat.le_of_not_lt hn)]
      rfl
  · have hn : n.index < t.size := by
      by_contra hout
      exact htag (by rw [tag, node_eq_absent (Nat.le_of_not_lt hout)]; rfl)
    exact .inl (h.fits n ((h.mem_walk n).mpr ⟨hn, htag⟩))

theorem Shaped.fits (h : t.Shaped) (hne : t.tag n ≠ .released) : t.Fits n :=
  (h n).resolve_right fun hfree => hne hfree.1

theorem Fits.leastChildren_le (h : t.Fits n) : (t.tag n).leastChildren ≤ (t.children n).length := by
  unfold Fits Suits at h
  split at h <;> simp_all [Tag.leastChildren]

theorem Fits.child (h : t.Fits n) {i : Nat} (hi : i < (t.tag n).leastChildren) : ∃ c, t.child n i = .ok c := by
  have hlt := Nat.lt_of_lt_of_le hi h.leastChildren_le
  refine ⟨(t.children n)[i], ?_⟩
  rw [Tree.child, List.getElem?_eq_getElem hlt]

theorem exists_baseType {tag : Tag} (h : tag.isBase = true) (text : String) : ∃ b, tag.baseType? text = some b := by
  unfold Tag.isBase at h
  split at h
  · exact ⟨_, rfl⟩
  · exact ⟨_, rfl⟩
  · cases h

theorem IsDecl.declParts {nameTag : Tag} (h : t.IsDecl nameTag n) :
    ∃ parts, t.declParts n = .ok parts ∧ (t.tag parts.base).isBase = true ∧ t.tag parts.name = nameTag := by
  unfold IsDecl at h
  split at h
  · rename_i base name htag hchildren
    exact ⟨⟨base, name, true⟩, by simp [Tree.declParts, htag, Tree.child, hchildren], h.1.1, h.2.1⟩
  · rename_i tag name hchildren
    have htag : t.tag n ≠ .array := by
      intro htag
      rw [htag] at h
      cases h.1
    exact ⟨⟨n, name, false⟩, by simp [Tree.declParts, htag, Tree.child, hchildren], h.1, h.2.1⟩
  · cases h

theorem IsDecl.declaration {nameTag : Tag} (h : t.IsDecl nameTag n) :
    (∃ parts, t.declParts n = .ok parts) ∧ ∃ d, t.declaration n = .ok d := by
  obtain ⟨parts, hparts, hbase, -⟩ := h.declParts
  obtain ⟨b, hb⟩ := exists_baseType hbase (t.text parts.base)
  refine ⟨⟨parts, hparts⟩, ?_⟩
  rw [Tree.declaration, hparts, ok_bind]
  simp only [hb]
  exact ⟨_, rfl⟩

theorem Fits.decl (h : t.Fits n) (htag : t.tag n = .function ∨ t.tag n = .prototype ∨ t.tag n = .varDecl) :
    ∃ decl, t.child n 0 = .ok decl ∧ t.IsDecl .declName decl := by
  unfold Fits Suits at h
  split at h <;> simp_all [Tree.child]

theorem Fits.paramList (h : t.Fits n) (htag : t.tag n = .function ∨ t.tag n = .prototype) :
    ∃ params, t.child n 1 = .ok params ∧ t.tag params = .paramList := by
  unfold Fits Suits at h
  split at h <;> simp_all [Tree.child]

theorem Fits.base (h : t.Fits n) (htag : t.tag n = .newArray) :
    ∃ base, t.child n 0 = .ok base ∧ (t.tag base).isBase = true := by
  unfold Fits Suits at h
  split at h <;> simp_all [Tree.child, IsBase]

theorem Fits.fields (h : t.Fits n) (htag : t.tag n = .struct) : ∀ f ∈ (t.children n).tail, t.IsDecl .field f := by
  unfold Fits Suits at h
  split at h <;> simp_all

theorem Fits.params (h : t.Fits n) (htag : t.tag n = .paramList) : ∀ d ∈ t.children n, t.IsDecl .declName d := by
  rw [Fits, htag] at h
  exact h

end Tree

/-! ### Visits that come to their end -/

namespace Analysis

variable {t : Tree} {n : NodeId} {a : Analysis}

theorem returns_ends (hshape : t.Shaped) (body : NodeId) : ∃ sites, returns t body = .ok sites := by
  refine mapM_ends fun m hm => ?_
  have htag := of_decide_eq_true (List.mem_filter.mp hm).2
  unfold returnSite
  split
  · exact ⟨_, rfl⟩
  · rename_i hvoid
    have hvalue := htag.resolve_right hvoid
    obtain ⟨c, hc⟩ := (hshape.fits (by rw [hvalue]; exact Tag.noConfusion)).child (n := m) (i := 0) (by rw [hvalue]; decide)
    rw [hc]
    exact ⟨_, rfl⟩

theorem verdict_ends (hshape : t.Shaped) (n : NodeId) (a : Analysis) : ∃ v, a.verdict t n = .ok v := by
  have hchild (i : Nat) (hi : i < (t.tag n).leastChildren) : ∃ c, t.child n i = .ok c := by
    refine (hshape.fits fun htag => ?_).child hi
    rw [htag] at hi
    cases hi
  have hone (f : NodeId → Verdict) (hi : 0 < (t.tag n).leastChildren) : ∃ v, (do return f (← t.child n 0)) = .ok v := by
    obtain ⟨c, hc⟩ := hchild 0 hi
    exact ⟨f c, by rw [hc]; rfl⟩
  have htwo (f : NodeId → NodeId → Verdict) (hi : 1 < (t.tag n).leastChildren) :
      ∃ v, (do return f (← t.child n 0) (← t.child n 1)) = .ok v := by
    obtain ⟨c, hc⟩ := hchild 0 (Nat.lt_of_succ_lt hi)
    obtain ⟨d, hd⟩ := hchild 1 hi
    exact ⟨f c d, by rw [hc, hd]; rfl⟩
  unfold verdict
  dsimp only
  split <;> rename_i htag
  · obtain ⟨decl, hdecl, hshapes⟩ := (hshape.fits (by rw [htag]; exact Tag.noConfusion)).decl (.inr (.inr htag))
    obtain ⟨value, hvalue⟩ := hchild 1 (by rw [htag]; decide)
    obtain ⟨parts, hparts⟩ := hshapes.declaration.1
    simp only [hdecl, hvalue, hparts, ok_bind]
    exact ⟨_, rfl⟩
  · exact hone _ (by rw [htag]; decide)
  · exact hone _ (by rw [htag]; decide)
  · exact hone _ (by rw [htag]; decide)
  · obtain ⟨decl, hdecl, hshapes⟩ := (hshape.fits (by rw [htag]; exact Tag.noConfusion)).decl (.inl htag)
    obtain ⟨body, hbody⟩ := hchild 2 (by rw [htag]; decide)
    obtain ⟨parts, hparts⟩ := hshapes.declaration.1
    obtain ⟨sites, hsites⟩ := returns_ends hshape body
    simp only [hdecl, hbody, hparts, hsites, ok_bind]
    split <;> exact ⟨_, rfl⟩
  · exact htwo _ (by rw [htag]; exact Nat.lt_succ_self 1)
  · exact hone _ (by rw [htag]; exact Nat.zero_lt_one)
  · exact hone _ (by rw [htag]; decide)
  · obtain ⟨base, hbase, hisBase⟩ := (hshape.fits (by rw [htag]; exact Tag.noConfusion)).base htag
    obtain ⟨length, hlength⟩ := hchild 1 (by rw [htag]; decide)
    obtain ⟨element, helement⟩ := Tree.exists_baseType hisBase (t.text base)
    simp only [hbase, hlength, helement, ok_bind]
    exact ⟨_, rfl⟩
  · exact hone _ (by rw [htag]; decide)
  · exact htwo _ (by rw [htag]; decide)
  · exact htwo _ (by rw [htag]; decide)
  · exact ⟨_, rfl⟩

theorem check_ends (hshape : t.Shaped) (n : NodeId) (a : Analysis) : ∃ b, a.check t n = .ok b := by
  obtain ⟨v, hv⟩ := verdict_ends hshape n a
  rw [check, hv, ok_bind]
  dsimp only
  split
  · rename_i htag
    obtain ⟨field, hfield⟩ := (hshape.fits (by rw [htag]; exact Tag.noConfusion)).child (i := 1) (by rw [htag]; decide)
    rw [hfield]
    exact ⟨_, rfl⟩
  · exact ⟨_, rfl⟩

theorem settle_ends (hshape : t.Shaped) (n : NodeId) (a : Analysis) : ∃ b, a.settle t n = .ok b := by
  unfold settle
  split <;> rename_i htag
  · exact ⟨_, rfl⟩
  · obtain ⟨name, hname⟩ := (hshape.fits (by rw [htag]; exact Tag.noConfusion)).child (i := 0) (by rw [htag]; decide)
    rw [hname]
    exact ⟨_, rfl⟩
  · obtain ⟨base, hbase⟩ := (hshape.fits (by rw [htag]; exact Tag.noConfusion)).child (i := 0) (by rw [htag]; decide)
    rw [hbase]
    exact ⟨_, rfl⟩
  · exact ⟨_, rfl⟩
  · obtain ⟨decl, hdecl, hshapes⟩ := (hshape.fits (by rw [htag]; exact Tag.noConfusion)).decl (.inr (.inr htag))
    obtain ⟨d, hd⟩ := hshapes.declaration.2
    simp only [hdecl, hd, ok_bind]
    exact ⟨_, rfl⟩
  · exact ⟨_, rfl⟩

theorem defineStruct_ends (hfits : t.Fits n) (htag : t.tag n = .struct) (hs : a.symbols.TagsKnown) :
    ∃ r, a.defineStruct t n = .ok r := by
  obtain ⟨name, hname⟩ := hfits.child (i := 0) (by rw [htag]; decide)
  rw [defineStruct, hname, ok_bind]
  split
  · exact ⟨_, rfl⟩
  · rename_i id b hb
    -- As long as the body is open, every field can be added to it.
    let Open (c : Analysis) : Prop := id.index < c.symbols.size ∧ (c.symbols.get id).isComplete = true
    have hfield (f : NodeId) (hf : f ∈ (t.children n).tail) (c : Analysis) (hc : Open c) :
        ∃ c', defineField t id (t.text name) (b.symbols.depth + 1) c f = .ok c' ∧ Open c' := by
      obtain ⟨d, hd⟩ := (hfits.fields htag f hf).declaration.2
      have hext := c.define_extends d { field := true }
      have hopen : ((c.define d { field := true }).2.symbols.get id).isComplete = true := by
        rw [hext.get id hc.1]
        exact hc.2
      refine ⟨_, ?_, isComplete_addField (Nat.lt_of_lt_of_le hc.1 hext.size) hopen (b.symbols.depth + 1)
        (c.define d { field := true }).1.symbol⟩
      simp only [defineField, hd, ok_bind, hopen, if_true]
      rfl
    obtain ⟨c, hc, -⟩ := foldlM_ends hfield (isComplete_openStruct (hs.structOrPlaceholder (t.lexeme name)).1 hb)
    rw [hc]
    exact ⟨_, rfl⟩

theorem defineFunction_ends (hshape : t.Shaped) (roles : Roles) (htag : t.tag n = .function ∨ t.tag n = .prototype)
    (hroles : roles.prototype = false → t.tag n = .function) (a : Analysis) : ∃ b, a.defineFunction t n roles = .ok b := by
  have hfits : t.Fits n := hshape.fits (by rcases htag with htag | htag <;> rw [htag] <;> exact Tag.noConfusion)
  obtain ⟨decl, hdecl, hisDecl⟩ := hfits.decl (htag.imp_right .inl)
  obtain ⟨params, hparams, hlist⟩ := hfits.paramList htag
  obtain ⟨d, hd⟩ := hisDecl.declaration.2
  obtain ⟨ds, hds⟩ := mapM_ends fun p hp => ((hshape.fits (by rw [hlist]; exact Tag.noConfusion)).params hlist p hp).declaration.2
  simp only [defineFunction, hdecl, hparams, hd, hds, ok_bind]
  cases hproto : roles.prototype with
  | true => exact ⟨_, rfl⟩
  | false =>
    obtain ⟨body, hbody⟩ := hfits.child (i := 2) (by rw [hroles hproto]; decide)
    simp only [hbody, ok_bind, Bool.false_eq_true, if_false]
    split <;> exact ⟨_, rfl⟩

theorem enter_ends (hshape : t.Shaped) (n : NodeId) (hs : a.symbols.TagsKnown) : ∃ r, a.enter t n = .ok r := by
  unfold enter
  split <;> rename_i htag
  · have hs' : (a.place n (t.tag n)).symbols.TagsKnown := by
      rw [symbols_place]
      exact hs
    obtain ⟨r, hr⟩ := defineStruct_ends (hshape.fits (by rw [htag]; exact Tag.noConfusion)) htag hs'
    rw [hr]
    exact ⟨_, rfl⟩
  · obtain ⟨b, hb⟩ := defineFunction_ends hshape { function := true } (.inl htag) (fun _ => htag)
      (a.place n (t.tag n))
    rw [hb]
    exact ⟨_, rfl⟩
  · obtain ⟨b, hb⟩ := defineFunction_ends hshape { function := true, prototype := true } (.inr htag)
      Bool.noConfusion (a.place n (t.tag n))
    rw [hb]
    exact ⟨_, rfl⟩
  · split <;> exact ⟨_, rfl⟩
  · exact ⟨_, rfl⟩

theorem visitWithin_ends (hshape : t.Shaped) (depth : Nat) (n : NodeId) (hs : a.symbols.TagsKnown) :
    ∃ b, visitWithin t depth n a = .ok b ∧ b.symbols.TagsKnown := by
  have hknown {depth : Nat} {n : NodeId} {a b : Analysis} (h : visitWithin t depth n a = .ok b)
      (hs : a.symbols.TagsKnown) : b.symbols.TagsKnown :=
    (passes_visitWithin h).steps.keep SymbolTable.Step.tagsKnown hs
  suffices hends : ∃ b, visitWithin t depth n a = .ok b by
    obtain ⟨b, hb⟩ := hends
    exact ⟨b, hb, hknown hb hs⟩
  induction depth generalizing n a with
  | zero => exact ⟨a, rfl⟩
  | succ depth ih =>
    obtain ⟨⟨opened, b⟩, henter⟩ := enter_ends hshape n hs
    have hchild (m : NodeId) (_ : m ∈ t.children n) (c : Analysis) (hc : c.symbols.TagsKnown) :
        ∃ d, visitWithin t depth m c = .ok d ∧ d.symbols.TagsKnown := by
      obtain ⟨d, hd⟩ := ih m hc
      exact ⟨d, hd, hknown hd hc⟩
    obtain ⟨c, hchildren, -⟩ := foldlM_ends hchild ((steps_enter henter).keep SymbolTable.Step.tagsKnown hs)
    obtain ⟨d, hsettle⟩ := settle_ends hshape n c
    obtain ⟨e, hcheck⟩ := check_ends hshape n (if opened then d.exitBlock else d)
    refine ⟨e, ?_⟩
    simp only [visitWithin, henter, hchildren, leave, hsettle, ok_bind]
    exact hcheck

end Analysis

namespace Workspace

/-- A visit of any node of a well-shaped tree, in any state that knows its struct tags, comes to its end. It leaves the
    tree as it was and the same blocks open as before; all scopes that there were have their old bindings, and only the
    innermost open one may have new ones behind them. So after a whole analysis only the global block is open, and each
    block from the first to the last that was opened has exactly one scope. -/
theorem visit_frame {tokens : List Token} (w : Workspace) (hshape : w.tree.WellShaped tokens) (n : NodeId) :
    (w.analysis.symbols.TagsKnown → ∃ w', w.analyze (fun t a => a.visit t n) = .ok w') ∧
      (∀ w', w.analyze (fun t a => a.visit t n) = .ok w' →
        w'.tree = w.tree ∧ w.analysis.symbols.Frame w'.analysis.symbols) ∧
      ∀ log, ∃ a, Analysis.ofTree w.tree log = .ok a ∧ a.symbols.openBlocks = [globalBlock] ∧
        (a.symbols.scopes.map Scope.block).Perm (List.range a.symbols.nextBlock) := by
  refine ⟨fun hs => ?_, fun w' h => ?_, fun log => ?_⟩
  · obtain ⟨b, hb, -⟩ := visitWithin_ends hshape.shaped w.tree.size n hs
    refine ⟨w.setAnalysis b, ?_⟩
    rw [analyze, visit, hb]
    rfl
  · obtain ⟨b, hb, h⟩ := bind_eq_ok_iff.mp h
    cases h
    exact ⟨rfl, (passes_visitWithin hb).frame⟩
  · obtain ⟨a, ha, -⟩ := visitWithin_ends hshape.shaped w.tree.size .root (a := { log }) SymbolTable.tagsKnown_empty
    have hpasses := passes_visitWithin ha
    exact ⟨a, ha, hpasses.frame.openBlocks, hpasses.steps.keep SymbolTable.Step.numbered SymbolTable.numbered_empty⟩

/-- A function with a block of its own in its body, read while block 4 is open and binds a name: it is bound behind
    that name, and its two blocks are in the archive. -/
theorem visit_frame_inside_block :
    ∃ tokens, ∃ w w' : Workspace, w.tree.WellShaped tokens ∧ w.analysis.symbols.openBlocks = [4, 0] ∧
      w.analyze (fun t a => a.visit t .root) = .ok w' ∧ w'.tree = w.tree ∧
      w'.analysis.symbols.openBlocks = w.analysis.symbols.openBlocks ∧
      w.analysis.symbols.inner.bindings <+: w'.analysis.symbols.inner.bindings ∧
      w'.analysis.symbols.inner.bindings.map Prod.fst = ["x", "f"] ∧
      w'.analysis.symbols.archive.toList.map Scope.block = [6, 5] := by
  let start : Analysis :=
    { symbols :=
        { entries := #[{ name := "x", loc := {}, block := 4, attrs := .typed .int { var := true } }]
          inner := { block := 4, bindings := [("x", ⟨0⟩)] }, outer := [{ block := globalBlock }], nextBlock := 5 } }
  have hread : Tree.passes "int f(int y) \x7b \x7b int x = y; \x7d return x; \x7d" (fun _ t =>
      (analyze ⟨t, start⟩ fun t a => a.visit t .root).toOption.any fun w' =>
        w'.analysis.symbols.inner.bindings.map Prod.fst = ["x", "f"] ∧
        w'.analysis.symbols.archive.toList.map Scope.block = [6, 5]) = true := by
    decide +kernel
  obtain ⟨s, root, t, -, h, hread⟩ := Tree.exists_of_passes hread
  obtain ⟨w', hw', hread⟩ := (Option.any_eq_true _ _).mp hread
  have hw' := eq_ok_of_toOption hw'
  have hshape := Tree.wellShaped_of_parse h (List.Subset.refl _)
  obtain ⟨htree, hkept⟩ := (visit_frame ⟨t, start⟩ hshape .root).2.1 w' hw'
  exact ⟨_, ⟨t, start⟩, w', hshape, rfl, hw', htree, hkept.openBlocks, hkept.inner, of_decide_eq_true hread⟩

end Workspace

end OcCompiler
