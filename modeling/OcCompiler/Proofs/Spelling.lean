import OcCompiler.Oil.Module

/-! The texts that oil gives to labels, registers and variables tell them apart. A number in a text ends at the first
    underscore behind it, so what stands behind the underscore can be read off as well. -/

namespace OcCompiler

theorem toList_repr (n : Nat) : n.repr.toList = Nat.toDigits 10 n := by
  rw [Nat.repr_eq_ofList_toDigits, String.toList_ofList]

theorem isDigit_of_mem_repr {n : Nat} {c : Char} (h : c ∈ n.repr.toList) : c.isDigit = true :=
  Nat.isDigit_of_mem_toDigits (by decide) (by decide) (toList_repr n ▸ h)

theorem eq_of_repr_eq {m n : Nat} (h : m.repr.toList = n.repr.toList) : m = n := by
  rw [toList_repr, toList_repr] at h
  rw [← Nat.ofDigitChars_ten_toDigits (n := m), h, Nat.ofDigitChars_ten_toDigits]

theorem cut_inj {α : Type} {x : α} {as bs cs ds : List α} (has : x ∉ as) (hbs : x ∉ bs) (h : as ++ x :: cs = bs ++ x :: ds) :
    as = bs ∧ cs = ds := by
  induction as generalizing bs with
  | nil =>
    cases bs with
    | nil => exact ⟨rfl, (List.cons.inj h).2⟩
    | cons b bs => exact absurd (List.mem_cons.mpr (.inl (List.cons.inj h).1)) hbs
  | cons a as ih =>
    cases bs with
    | nil => exact absurd (List.mem_cons.mpr (.inl (List.cons.inj h).1.symm)) has
    | cons b bs =>
      obtain ⟨rfl, hrest⟩ := List.cons.inj h
      obtain ⟨rfl, rfl⟩ := ih (fun hx => has (.tail _ hx)) (fun hx => hbs (.tail _ hx)) hrest
      exact ⟨rfl, rfl⟩

theorem repr_append_inj {m n : Nat} {c : Char} {s t : String} (hc : c.isDigit = false)
    (h : m.repr ++ (String.singleton c ++ s) = n.repr ++ (String.singleton c ++ t)) : m = n ∧ s = t := by
  have hfree (k : Nat) : c ∉ k.repr.toList := fun hmem => by simp [isDigit_of_mem_repr hmem] at hc
  have hchars : m.repr.toList ++ c :: s.toList = n.repr.toList ++ c :: t.toList := by
    simpa using congrArg String.toList h
  obtain ⟨hdigits, hrest⟩ := cut_inj (hfree m) (hfree n) hchars
  exact ⟨eq_of_repr_eq hdigits, String.toList_inj.mp hrest⟩

theorem repr_underscore_inj {m n : Nat} {s t : String} (h : m.repr ++ ("_" ++ s) = n.repr ++ ("_" ++ t)) : m = n ∧ s = t :=
  repr_append_inj (c := '_') rfl h

theorem Location.text_inj {a b : Location} (h : a.text = b.text) : a = b := by
  obtain ⟨file, line, column⟩ := a
  obtain ⟨file', line', column'⟩ := b
  simp only [text, String.append_assoc] at h
  obtain ⟨rfl, hrest⟩ := repr_append_inj (c := '.') rfl h
  obtain ⟨rfl, hcolumn⟩ := repr_append_inj (c := '.') rfl hrest
  rw [eq_of_repr_eq (congrArg String.toList hcolumn)]

theorem Location.labelSuffix_inj {a b : Location} (h : a.labelSuffix = b.labelSuffix) : a = b := by
  obtain ⟨file, line, column⟩ := a
  obtain ⟨file', line', column'⟩ := b
  simp only [labelSuffix, String.append_assoc] at h
  obtain ⟨rfl, hrest⟩ := repr_underscore_inj h
  obtain ⟨rfl, hcolumn⟩ := repr_underscore_inj hrest
  rw [eq_of_repr_eq (congrArg String.toList hcolumn)]

namespace Oil

theorem Label.text_inj {a b : Label} (h : a.text = b.text) : a = b := by
  obtain ⟨kind, loc⟩ := a
  obtain ⟨kind', loc'⟩ := b
  have hchars := congrArg String.toList h
  -- the words of two kinds differ in their first letters
  have hkind : kind = kind' := by
    cases kind <;> cases kind' <;> simp [Label.text, LabelKind.text] at hchars ⊢
  subst hkind
  rw [Label.text, Label.text, String.append_right_inj] at h
  exact congrArg (Label.mk kind) (Location.labelSuffix_inj h)

theorem Register.text_inj {a b : Register} (h : a.text = b.text) : a = b := by
  obtain ⟨kind, number⟩ := a
  obtain ⟨kind', number'⟩ := b
  have hchars := congrArg String.toList h
  have hkind : kind = kind' := by
    cases kind <;> cases kind' <;> simp [Register.text, RegisterKind.letter] at hchars ⊢
  subst hkind
  rw [Register.text, Register.text, String.append_right_inj] at h
  exact congrArg (Register.mk kind) (eq_of_repr_eq (congrArg String.toList h))

theorem Variable.text_inj {a b : Variable} (h : a.text = b.text) : a = b := by
  have hglobal {name name' : String} {block : Nat} : globalName name ≠ "_" ++ block.repr ++ "_" ++ name' := by
    intro heq
    have hchars := congrArg String.toList heq
    cases hrepr : block.repr.toList with
    | nil => exact Nat.repr_ne_empty (String.toList_inj.mp hrepr)
    | cons c cs =>
      have hdigit : c.isDigit = true := isDigit_of_mem_repr (n := block) (by simp [hrepr])
      obtain ⟨rfl, -⟩ : '_' = c ∧ _ := by simpa [globalName, hrepr] using hchars
      exact absurd hdigit (by decide)
  obtain ⟨name, block⟩ := a
  obtain ⟨name', block'⟩ := b
  simp only [Variable.text] at h
  split at h <;> rename_i hblock <;> split at h <;> rename_i hblock'
  · rw [globalName, globalName, String.append_right_inj] at h
    rw [h, hblock, hblock']
  · exact absurd h hglobal
  · exact absurd h.symm hglobal
  · simp only [String.append_assoc, String.append_right_inj] at h
    obtain ⟨rfl, rfl⟩ := repr_underscore_inj h
    rfl

theorem Register.text_ne_variable (r : Register) (v : Variable) : r.text ≠ v.text := by
  intro h
  have hv : v.text.toList.head? = some '_' := by
    unfold Variable.text
    split <;> simp [globalName]
  have hr : r.text.toList.head? ≠ some '_' := by
    obtain ⟨kind, number⟩ := r
    cases kind <;> simp [Register.text, RegisterKind.letter]
  exact hr (h ▸ hv)

end Oil

end OcCompiler
