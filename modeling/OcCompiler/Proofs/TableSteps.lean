import OcCompiler.Proofs.Scopes

/-! An analysis is a number of changes of its symbol table. What each of them keeps, a whole analysis keeps: every symbol
    has a type, and the fields of a struct are symbols of the table. -/

namespace OcCompiler

namespace SymbolTable

/-- Every symbol has a type, and the fields of every struct are symbols of the table. -/
structure Typed (s : SymbolTable) : Prop where
  types : ∀ x ∈ s.entries, x.attrs.type.isSome = true
  fields : ∀ x ∈ s.entries, ∀ p ∈ x.fields.getD [], p.2.index < s.size

section Typed

variable {s s' : SymbolTable} {id : SymbolId} {x : Symbol}

theorem typed_empty : Typed {} where
  types x hx := absurd hx (Array.not_mem_empty x)
  fields x hx := absurd hx (Array.not_mem_empty x)

theorem get_mem_entries (h : id.index < s.size) : s.get id ∈ s.entries := by
  have hfound : s.entries[id.index]? = some (s.get id) := by
    rw [size] at h
    simp [get, h]
  exact Array.mem_of_getElem? hfound

theorem Typed.type (h : s.Typed) (hid : id.index < s.size) : ∃ τ, (s.get id).attrs.type = some τ :=
  Option.isSome_iff_exists.mp (h.types _ (get_mem_entries hid))

theorem Sound.lookup_lt (h : s.Sound) {x : String} (hid : s.lookup x = some id) : id.index < s.size := by
  obtain ⟨c, hc, hfind⟩ := List.exists_of_findSome?_eq_some hid
  exact (h.bound c (List.mem_append_right _ (List.mem_reverse.mpr hc)) _ (mem_of_lookup hfind)).1

theorem Typed.field (h : s.Typed) {struct field : SymbolId} (hstruct : struct.index < s.size) {name : String}
    (hfield : (s.get struct).field? name = some field) : ∃ τ, (s.get field).attrs.type = some τ := by
  obtain ⟨fields, hfields, hlookup⟩ := Option.bind_eq_some_iff.mp hfield
  have hin := h.fields _ (get_mem_entries hstruct) (name, field) (by rw [hfields]; exact mem_of_lookup hlookup)
  exact h.type hin

theorem Typed.of_entries (h : s.Typed) (heq : s'.entries = s.entries) : s'.Typed := by
  have hsize : s'.size = s.size := congrArg Array.size heq
  refine ⟨?_, ?_⟩
  · rw [heq]
    exact h.types
  · rw [heq, hsize]
    exact h.fields

theorem Typed.push (h : s.Typed) (htype : x.attrs.type.isSome = true) (hfields : x.fields = none) :
    (s.push x).2.Typed := by
  refine ⟨fun y hy => ?_, fun y hy p hp => ?_⟩
  · rcases Array.mem_push.mp hy with hy | rfl
    · exact h.types y hy
    · exact htype
  · rw [size_push]
    rcases Array.mem_push.mp hy with hy | rfl
    · exact Nat.lt_succ_of_lt (h.fields y hy p hp)
    · rw [hfields] at hp
      cases hp

theorem Typed.modify (h : s.Typed) (id : SymbolId) {f : Symbol → Symbol} (htype : ∀ x, (f x).attrs.type = x.attrs.type)
    (hfields : ∀ x ∈ s.entries, ∀ p ∈ (f x).fields.getD [], p.2.index < s.size) : (s.modify id f).Typed := by
  have hmem {y : Symbol} (hy : y ∈ (s.modify id f).entries) : y ∈ s.entries ∨ ∃ x ∈ s.entries, f x = y := by
    obtain ⟨i, hi, rfl⟩ := Array.mem_iff_getElem.mp hy
    simp only [SymbolTable.modify, Array.getElem_modify]
    split
    · exact .inr ⟨_, Array.getElem_mem _, rfl⟩
    · exact .inl (Array.getElem_mem _)
  refine ⟨fun y hy => ?_, fun y hy p hp => ?_⟩
  · rcases hmem hy with hy | ⟨x, hx, rfl⟩
    · exact h.types y hy
    · rw [htype]
      exact h.types x hx
  · rw [size_modify]
    rcases hmem hy with hy | ⟨x, hx, rfl⟩
    · exact h.fields y hy p hp
    · exact hfields x hx p hp

theorem mem_setField {name : String} {p : String × SymbolId}
    (hp : p ∈ (x.setField name id).fields.getD []) : p ∈ x.fields.getD [] ∨ p.2 = id := by
  simp only [Symbol.setField, Option.getD_some] at hp
  split at hp
  · obtain ⟨q, hq, rfl⟩ := List.mem_map.mp hp
    by_cases hkey : (q.1 == name) = true
    · exact .inr (if_pos hkey)
    · simp only [hkey, Bool.false_eq_true, if_false]
      exact .inl hq
  · rcases List.mem_append.mp hp with hp | hp
    · exact .inl hp
    · exact .inr (by rw [List.mem_singleton.mp hp])

theorem Step.typed (h : Step s s') (hs : s.Typed) : s'.Typed := by
  cases h with
  | declare x type roles => exact hs.push rfl rfl
  | useTag tag =>
    unfold structOrPlaceholder
    split
    · exact hs
    · exact (hs.push rfl rfl).of_entries rfl
  | bind hinsert =>
    unfold SymbolTable.insert at hinsert
    split at hinsert
    · cases hinsert
    · cases hinsert
      exact hs.of_entries rfl
  | openBody struct loc => exact hs.modify struct (fun _ => rfl) fun _ _ _ hp => nomatch hp
  | addField struct hfield =>
    refine hs.modify struct (fun _ => rfl) fun x hx p hp => ?_
    rcases mem_setField hp with hp | hp
    · exact hs.fields x hx p hp
    · rw [hp]
      exact hfield
  | setParams function params | settle function => exact hs.modify function (fun _ => rfl) hs.fields
  | enterBlock => exact hs.of_entries rfl
  | exitBlock =>
    unfold SymbolTable.exitBlock
    split <;> exact hs.of_entries rfl
  | record depth id => exact hs.of_entries rfl
  | recordBlank => exact hs.of_entries rfl

theorem Steps.typed (h : Steps s s') (hs : s.Typed) : s'.Typed := h.keep Step.typed hs

end Typed

end SymbolTable

end OcCompiler
