import OcCompiler.Symbol.Table
import Mathlib.Data.List.Nodup
import Mathlib.Data.List.Perm.Basic

/-! What holds of every symbol table that an analysis makes, and how its symbols change: a symbol keeps its name and its
    type, and all but struct tags keep their block and their place. -/

namespace OcCompiler

def Roles.isBindable (r : Roles) : Bool := r.var || r.function

def Attributes.settled (a : Attributes) : Attributes := { a with roles := { a.roles with prototype := false } }

/-- How a symbol may change: a struct tag may be given its body, and a prototype may be defined. -/
structure Symbol.Keeps (x y : Symbol) : Prop where
  name : y.name = x.name
  attrs : y.attrs = x.attrs ∨ x.attrs.roles.prototype = true ∧ y.attrs = x.attrs.settled
  block : x.attrs.roles.isBindable = true → y.block = x.block
  loc : x.attrs.roles.isBindable = true → y.loc = x.loc

namespace Symbol.Keeps

variable {x y z : Symbol}

theorem refl (x : Symbol) : Keeps x x := ⟨rfl, .inl rfl, fun _ => rfl, fun _ => rfl⟩

theorem type (h : Keeps x y) : y.attrs.type = x.attrs.type := by
  rcases h.attrs with h | ⟨-, h⟩ <;> rw [h]
  rfl

theorem bindable (h : Keeps x y) : y.attrs.roles.isBindable = x.attrs.roles.isBindable := by
  rcases h.attrs with h | ⟨-, h⟩ <;> rw [h]
  rfl

theorem attrs_eq (h : Keeps x y) (hx : x.attrs.roles.prototype = false) : y.attrs = x.attrs := by
  rcases h.attrs with h | ⟨hp, -⟩
  · exact h
  · simp [hx] at hp

theorem trans (h : Keeps x y) (h' : Keeps y z) : Keeps x z where
  name := h'.name.trans h.name
  attrs := by
    rcases h.attrs with hy | ⟨hp, hy⟩
    · rcases h'.attrs with hz | ⟨hp', hz⟩
      · exact .inl (hz.trans hy)
      · exact .inr ⟨hy ▸ hp', hy ▸ hz⟩
    · refine .inr ⟨hp, ?_⟩
      rcases h'.attrs with hz | ⟨-, hz⟩ <;> rw [hz, hy]
      rfl
  block hx := (h'.block (h.bindable.trans hx)).trans (h.block hx)
  loc hx := (h'.loc (h.bindable.trans hx)).trans (h.loc hx)

theorem settle (x : Symbol) : Keeps x { x with attrs := x.attrs.settled } where
  name := rfl
  attrs := by
    cases hp : x.attrs.roles.prototype with
    | true => exact .inr ⟨rfl, rfl⟩
    | false =>
      obtain ⟨name, loc, block, ⟨type, roles⟩, fields, params⟩ := x
      obtain ⟨function, prototype, rest⟩ := roles
      cases hp
      exact .inl rfl
  block _ := rfl
  loc _ := rfl

end Symbol.Keeps

namespace SymbolTable

variable {s s' s'' : SymbolTable}

/-- What holds of every symbol table that an analysis makes. -/
structure Sound (s : SymbolTable) : Prop where
  structs : ∀ p ∈ s.structs, p.2.index < s.size ∧ (s.get p.2).attrs = .typed (.struct p.1) {}
  bound : ∀ c ∈ s.scopes, ∀ p ∈ c.bindings, p.2.index < s.size ∧ (s.get p.2).name = p.1 ∧
    (s.get p.2).block = c.block ∧ (s.get p.2).attrs.roles.isBindable = true
  names : ∀ c ∈ s.scopes, (c.bindings.map (·.1)).Nodup
  blocks : (s.scopes.map (·.block)).Nodup
  below : ∀ c ∈ s.scopes, c.block < s.nextBlock

def Bound (s : SymbolTable) (name : String) (id : SymbolId) : Prop := ∃ c ∈ s.scopes, (name, id) ∈ c.bindings

structure Evolves (s s' : SymbolTable) : Prop where
  sound : s'.Sound
  size : s.size ≤ s'.size
  keeps : ∀ id : SymbolId, id.index < s.size → (s.get id).Keeps (s'.get id)
  bound : ∀ name id, s.Bound name id → s'.Bound name id

theorem Sound.refl (h : s.Sound) : s.Evolves s :=
  ⟨h, Nat.le_refl _, fun _ _ => .refl _, fun _ _ hb => hb⟩

theorem Evolves.trans (h : s.Evolves s') (h' : s'.Evolves s'') : s.Evolves s'' where
  sound := h'.sound
  size := Nat.le_trans h.size h'.size
  keeps id hid := (h.keeps id hid).trans (h'.keeps id (Nat.lt_of_lt_of_le hid h.size))
  bound name id hb := h'.bound name id (h.bound name id hb)

theorem sound_empty : Sound {} := by
  constructor <;> simp [scopes, openScopes, globalBlock]

section Symbols

variable {s : SymbolTable} {m : SymbolId}

@[simp] theorem size_push (s : SymbolTable) (x : Symbol) : (s.push x).2.size = s.size + 1 := by
  simp [size, push]

@[simp] theorem size_modify (s : SymbolTable) (id : SymbolId) (f : Symbol → Symbol) : (s.modify id f).size = s.size := by
  simp [size, modify]

theorem get_push_old (x : Symbol) (hm : m.index < s.size) : (s.push x).2.get m = s.get m := by
  rw [get_push, if_neg]
  rintro rfl
  exact Nat.lt_irrefl _ hm

theorem get_push_new (x : Symbol) : (s.push x).2.get ⟨s.size⟩ = x := by
  rw [get_push]
  exact if_pos rfl

theorem get_modify {id : SymbolId} (hid : id.index < s.size) (f : Symbol → Symbol) (m : SymbolId) :
    (s.modify id f).get m = if m = id then f (s.get id) else s.get m := by
  obtain ⟨i⟩ := id
  obtain ⟨j⟩ := m
  simp only [get, modify, SymbolId.mk.injEq, Array.getD_eq_getD_getElem?, Array.getElem?_modify]
  by_cases same : j = i
  · subst same
    obtain ⟨x, found⟩ : ∃ x, s.entries[j]? = some x := ⟨_, Array.getElem?_eq_getElem hid⟩
    simp [found]
  · simp [same, Ne.symm same]

theorem get_modify_of_ne {id m : SymbolId} (h : m ≠ id) (f : Symbol → Symbol) : (s.modify id f).get m = s.get m := by
  obtain ⟨i⟩ := id
  obtain ⟨j⟩ := m
  have hij : i ≠ j := fun heq => h (heq ▸ rfl)
  simp [get, modify, Array.getD_eq_getD_getElem?, Array.getElem?_modify, hij]

theorem get_modify_out {id : SymbolId} (h : s.size ≤ id.index) (f : Symbol → Symbol) : (s.modify id f).get id = s.get id := by
  have hnone : s.entries[id.index]? = none := Array.getElem?_eq_none h
  simp [get, modify, Array.getD_eq_getD_getElem?, Array.getElem?_modify, hnone]

theorem Sound.evolves_of_keeps {s' : SymbolTable} (h : s.Sound) (hscopes : s'.scopes = s.scopes)
    (hstructs : s'.structs = s.structs) (hnext : s'.nextBlock = s.nextBlock) (hsize : s.size ≤ s'.size)
    (hkeeps : ∀ id : SymbolId, id.index < s.size → (s.get id).Keeps (s'.get id)) : s.Evolves s' where
  sound :=
    { structs := fun p hp => by
        obtain ⟨hin, hattrs⟩ := h.structs p (hstructs ▸ hp)
        refine ⟨Nat.lt_of_lt_of_le hin hsize, ?_⟩
        rw [(hkeeps p.2 hin).attrs_eq (by rw [hattrs]; rfl), hattrs]
      bound := fun c hc p hp => by
        obtain ⟨hin, hname, hblock, hrole⟩ := h.bound c (hscopes ▸ hc) p hp
        have hk := hkeeps p.2 hin
        exact ⟨Nat.lt_of_lt_of_le hin hsize, hk.name.trans hname, (hk.block hrole).trans hblock,
          hk.bindable.trans hrole⟩
      names := fun c hc => h.names c (hscopes ▸ hc)
      blocks := by rw [hscopes]; exact h.blocks
      below := fun c hc => by rw [hnext]; exact h.below c (hscopes ▸ hc) }
  size := hsize
  keeps := hkeeps
  bound _ _ := fun ⟨c, hc, hb⟩ => ⟨c, hscopes ▸ hc, hb⟩

theorem Sound.push (h : s.Sound) (x : Symbol) : s.Evolves (s.push x).2 :=
  h.evolves_of_keeps rfl rfl rfl (by simp) fun id hid => by rw [get_push_old x hid]; exact .refl _

theorem Sound.modify (h : s.Sound) (id : SymbolId) (f : Symbol → Symbol) (hf : (s.get id).Keeps (f (s.get id))) :
    s.Evolves (s.modify id f) := by
  refine h.evolves_of_keeps rfl rfl rfl (by simp) fun m hm => ?_
  by_cases hid : id.index < s.size
  · rw [get_modify hid]
    split
    · rename_i hmid
      rw [hmid]
      exact hf
    · exact .refl _
  · have hm' : m.index ≠ id.index := by omega
    simp only [get, SymbolTable.modify, Array.getD_eq_getD_getElem?, Array.getElem?_modify, if_neg (Ne.symm hm')]
    exact .refl _

theorem Sound.record (h : s.Sound) (depth : Nat) (id : SymbolId) : s.Evolves (s.record depth id) :=
  h.evolves_of_keeps rfl rfl rfl (Nat.le_refl _) fun _ _ => .refl _

theorem Sound.recordBlank (h : s.Sound) : s.Evolves s.recordBlank :=
  h.evolves_of_keeps rfl rfl rfl (Nat.le_refl _) fun _ _ => .refl _

end Symbols

section Structs

variable {s : SymbolTable}

theorem mem_of_lookup {β : Type} {l : List (String × β)} {x : String} {y : β} (h : l.lookup x = some y) :
    (x, y) ∈ l := by
  obtain ⟨before, after, rfl, -⟩ := List.lookup_eq_some_iff.mp h
  simp

theorem struct?_structOrPlaceholder (s : SymbolTable) (tag : Lexeme) :
    (s.structOrPlaceholder tag).2.struct? tag.text = some (s.structOrPlaceholder tag).1 := by
  unfold SymbolTable.structOrPlaceholder
  split
  · assumption
  · rename_i hnone
    show List.lookup tag.text (s.structs ++ _) = _
    rw [List.lookup_append, show s.structs.lookup tag.text = none from hnone]
    simp

theorem Sound.structOrPlaceholder (h : s.Sound) (tag : Lexeme) :
    s.Evolves (s.structOrPlaceholder tag).2 ∧
      (s.structOrPlaceholder tag).1.index < (s.structOrPlaceholder tag).2.size ∧
      ((s.structOrPlaceholder tag).2.get (s.structOrPlaceholder tag).1).attrs = .typed (.struct tag.text) {} := by
  unfold SymbolTable.structOrPlaceholder
  split
  · rename_i id hid
    obtain ⟨hin, hattrs⟩ := h.structs _ (mem_of_lookup hid)
    exact ⟨h.refl, hin, hattrs⟩
  · let x : Symbol := ⟨tag.text, tag.loc, globalBlock, .typed (.struct tag.text) {}, none, none⟩
    have hpush := h.push x
    have hnew : ((s.push x).2.get (s.push x).1).attrs = .typed (.struct tag.text) {} := by
      rw [get_push, if_pos rfl]
    have hin : (s.push x).1.index < (s.push x).2.size := by rw [size_push]; exact Nat.lt_succ_self _
    refine ⟨⟨⟨fun p hp => ?_, hpush.sound.bound, hpush.sound.names, hpush.sound.blocks, hpush.sound.below⟩,
      hpush.size, hpush.keeps, hpush.bound⟩, hin, hnew⟩
    rcases List.mem_append.mp hp with hp | hp
    · exact hpush.sound.structs p hp
    · rw [List.mem_singleton.mp hp]
      exact ⟨hin, hnew⟩

end Structs

structure Extends (s s' : SymbolTable) : Prop where
  size : s.size ≤ s'.size
  get : ∀ id : SymbolId, id.index < s.size → s'.get id = s.get id

theorem Extends.refl (s : SymbolTable) : s.Extends s := ⟨Nat.le_refl _, fun _ _ => rfl⟩

theorem Extends.trans (h : s.Extends s') (h' : s'.Extends s'') : s.Extends s'' where
  size := Nat.le_trans h.size h'.size
  get id hid := (h'.get id (Nat.lt_of_lt_of_le hid h.size)).trans (h.get id hid)

theorem push_extends (s : SymbolTable) (x : Symbol) : s.Extends (s.push x).2 where
  size := by simp
  get _ hid := get_push_old x hid

theorem structOrPlaceholder_extends (s : SymbolTable) (tag : Lexeme) : s.Extends (s.structOrPlaceholder tag).2 := by
  unfold SymbolTable.structOrPlaceholder
  split
  · exact .refl s
  · have h := s.push_extends ⟨tag.text, tag.loc, globalBlock, .typed (.struct tag.text) {}, none, none⟩
    exact ⟨h.size, h.get⟩

theorem Extends.of_insert {name : String} {id : SymbolId} (h : s.insert name id = .ok s') :
    s.Extends s' := by
  unfold SymbolTable.insert at h
  split at h
  · cases h
  · cases h
    exact ⟨Nat.le_refl _, fun _ _ => rfl⟩

section Scopes

variable {s : SymbolTable}

theorem scopes_enterBlock (s : SymbolTable) : s.enterBlock.scopes = s.scopes ++ [{ block := s.nextBlock }] := by
  simp [scopes, openScopes, enterBlock]

theorem Sound.enterBlock (h : s.Sound) : s.Evolves s.enterBlock where
  sound := by
    have hscopes := scopes_enterBlock s
    refine ⟨h.structs, fun c hc => ?_, fun c hc => ?_, ?_, fun c hc => ?_⟩
    · rw [hscopes, List.mem_append, List.mem_singleton] at hc
      rcases hc with hc | rfl
      · exact h.bound c hc
      · simp
    · rw [hscopes, List.mem_append, List.mem_singleton] at hc
      rcases hc with hc | rfl
      · exact h.names c hc
      · simp
    · rw [hscopes, List.map_append, List.nodup_append]
      refine ⟨h.blocks, by simp, ?_⟩
      rintro b hb b' hb' rfl
      obtain ⟨c, hc, rfl⟩ := List.mem_map.mp hb
      have := h.below c hc
      simp only [List.map_cons, List.map_nil, List.mem_singleton] at hb'
      omega
    · rw [hscopes, List.mem_append, List.mem_singleton] at hc
      rcases hc with hc | rfl
      · exact Nat.lt_succ_of_lt (h.below c hc)
      · exact Nat.lt_succ_self _
  size := Nat.le_refl _
  keeps _ _ := .refl _
  bound _ _ := fun ⟨c, hc, hb⟩ => ⟨c, scopes_enterBlock s ▸ List.mem_append_left _ hc, hb⟩

theorem scopes_exitBlock (s : SymbolTable) : s.exitBlock.2.scopes.Perm s.scopes := by
  unfold SymbolTable.exitBlock
  split
  · exact .refl _
  · rename_i around outer houter
    simp only [scopes, openScopes, houter, Array.toList_push, List.reverse_cons, List.append_assoc]
    refine List.Perm.append_left _ ?_
    exact List.perm_append_comm.trans (by simp)

theorem Sound.exitBlock (h : s.Sound) : s.Evolves s.exitBlock.2 := by
  have hperm := scopes_exitBlock s
  have hentries : s.exitBlock.2.entries = s.entries ∧ s.exitBlock.2.structs = s.structs ∧
      s.exitBlock.2.nextBlock = s.nextBlock := by
    unfold SymbolTable.exitBlock
    split <;> exact ⟨rfl, rfl, rfl⟩
  obtain ⟨hentries, hstructs, hnext⟩ := hentries
  have hget (id : SymbolId) : s.exitBlock.2.get id = s.get id := by rw [get, hentries]; rfl
  have hsize : s.exitBlock.2.size = s.size := by rw [size, hentries]; rfl
  refine ⟨⟨fun p hp => ?_, fun c hc p hp => ?_, fun c hc => ?_, ?_, fun c hc => ?_⟩, Nat.le_of_eq hsize.symm, fun id _ => ?_,
    fun _ _ hb => ?_⟩
  · rw [hsize, hget]
    exact h.structs p (hstructs ▸ hp)
  · rw [hsize, hget]
    exact h.bound c (hperm.mem_iff.mp hc) p hp
  · exact h.names c (hperm.mem_iff.mp hc)
  · exact (hperm.map _).nodup_iff.mpr h.blocks
  · rw [hnext]
    exact h.below c (hperm.mem_iff.mp hc)
  · rw [hget]
    exact .refl _
  · obtain ⟨c, hc, hb⟩ := hb
    exact ⟨c, hperm.mem_iff.mpr hc, hb⟩

theorem mem_scopes_inner (s : SymbolTable) : s.inner ∈ s.scopes := by
  simp [scopes, openScopes]

theorem Sound.insert (h : s.Sound) {name : String} {id : SymbolId} {s' : SymbolTable} (hs' : s.insert name id = .ok s')
    (hin : id.index < s.size) (hname : (s.get id).name = name) (hblock : (s.get id).block = s.currentBlock)
    (hrole : (s.get id).attrs.roles.isBindable = true) : s.Evolves s' := by
  unfold SymbolTable.insert at hs'
  split at hs'
  · cases hs'
  · rename_i hfree
    cases hs'
    -- The scopes are the old ones with the innermost replaced.
    have hold (c : Scope) (hc : c ∈ ({ s with inner := s.inner.bind name id } : SymbolTable).scopes) :
        c ∈ s.scopes ∨ c = s.inner.bind name id := by
      simp only [scopes, openScopes, List.mem_append, List.mem_reverse, List.mem_cons] at hc ⊢
      rcases hc with hc | rfl | hc
      · exact .inl (.inl hc)
      · exact .inr rfl
      · exact .inl (.inr (.inr hc))
    have hblocks : ({ s with inner := s.inner.bind name id } : SymbolTable).scopes.map (·.block) =
        s.scopes.map (·.block) := by
      simp [scopes, openScopes, Scope.bind]
    have hbound (c : Scope) (hc : c ∈ s.scopes) : ∃ c' ∈ ({ s with inner := s.inner.bind name id } : SymbolTable).scopes,
        c.bindings ⊆ c'.bindings := by
      simp only [scopes, openScopes, List.mem_append, List.mem_reverse, List.mem_cons] at hc
      rcases hc with hc | rfl | hc
      · exact ⟨c, by simp [scopes, hc], List.Subset.refl _⟩
      · exact ⟨s.inner.bind name id, by simp [scopes, openScopes], List.subset_append_left _ _⟩
      · exact ⟨c, by simp [scopes, openScopes, hc], List.Subset.refl _⟩
    refine ⟨⟨h.structs, fun c hc p hp => ?_, fun c hc => ?_, hblocks ▸ h.blocks, fun c hc => ?_⟩, Nat.le_refl _,
      fun _ _ => .refl _, fun _ _ hb => ?_⟩
    · rcases hold c hc with hc | rfl
      · exact h.bound c hc p hp
      · rcases List.mem_append.mp hp with hp | hp
        · exact h.bound _ (mem_scopes_inner s) p hp
        · rw [List.mem_singleton.mp hp]
          exact ⟨hin, hname, hblock, hrole⟩
    · rcases hold c hc with hc | rfl
      · exact h.names c hc
      · simp only [Scope.bind, List.map_append, List.map_cons, List.map_nil]
        refine List.nodup_append.mpr ⟨h.names _ (mem_scopes_inner s), by simp, ?_⟩
        rintro x hx y hy rfl
        simp only [List.mem_singleton] at hy
        subst hy
        obtain ⟨p, hp, rfl⟩ := List.mem_map.mp hx
        rw [Scope.find?, List.lookup_eq_none_iff] at hfree
        exact absurd (hfree p hp) (by simp)
    · rcases hold c hc with hc | rfl
      · exact h.below c hc
      · exact h.below s.inner (mem_scopes_inner s)
    · obtain ⟨c, hc, hb⟩ := hb
      obtain ⟨c', hc', hsub⟩ := hbound c hc
      exact ⟨c', hc', hsub hb⟩

end Scopes

end SymbolTable

end OcCompiler
