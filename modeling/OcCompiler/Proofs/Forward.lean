import OcCompiler.Proofs.GrammarSound

/-! Reading goes forward. Whatever comes of it, success or failure, no more is left than was there at the start. -/

namespace OcCompiler

variable {n : Nat} {c r : Cursor} {t : Token} {k : TokenKind}

namespace Cursor

/-- At most `n` tokens are left, and the end of the file is among them. -/
structure Behind (n : Nat) (c : Cursor) : Prop where
  length : c.ahead.length ≤ n
  closed : c.Closed

theorem Behind.spans {ts : List Token} (h : c.Behind n) (hts : c.Spans ts r) : r.Behind (n - ts.length) := by
  have hlength := h.length
  rw [hts.ahead, List.length_append] at hlength
  exact ⟨Nat.le_sub_of_add_le' hlength, hts.closed⟩

theorem Behind.mono {m : Nat} (h : c.Behind m) (hm : m ≤ n) : c.Behind n := ⟨Nat.le_trans h.length hm, h.closed⟩

theorem Behind.passes (h : c.Behind (n + 1)) (ht : c.Passes t r) (hkind : t.kind ≠ .endOfFile) : r.Behind n :=
  h.spans (ht.spans h.closed hkind)

theorem Behind.accept? [k.Inner] {found : c.Shorter} (h : c.Behind n) (hsome : c.accept? k = some (t, found)) :
    found.1.Behind n :=
  (h.spans ((accept?_eq_some_iff.mp hsome).spans h.closed)).mono (Nat.sub_le ..)

end Cursor

section Leaves

variable {α β : Type} {P Q : Cursor → Prop} {p : Except Failure (α × { r : Cursor // P r })}

def Leaves (n : Nat) : Except Failure (α × { r : Cursor // P r }) → Prop
  | .ok (_, r) => r.1.Behind n
  | .error f => f.stop.Behind n

theorem Leaves.bind {f : α × { r : Cursor // P r } → Except Failure (β × { r : Cursor // Q r })} (hp : Leaves n p)
    (hf : ∀ x r near, r.Behind n → Leaves n (f (x, ⟨r, near⟩))) : Leaves n (p >>= f) := by
  match p, hp with
  | .error _, hp => exact hp
  | .ok (x, ⟨r, near⟩), hp => exact hf x r near hp

theorem Cursor.Behind.leaves {rule : Grammar.Kinds → Prop} {keeps : List Token → α → Prop} (h : c.Behind n)
    (hp : c.Closed → Follows c rule keeps p) : Leaves n p := by
  match p, hp h.closed with
  | .ok _, ⟨_, hts, _⟩ => exact (h.spans hts).mono (Nat.sub_le ..)
  | .error _, ⟨_, hts, _⟩ => exact (h.spans hts).mono (Nat.sub_le ..)

end Leaves

namespace Parse

variable {level : Nat}

theorem leaves_operand_of_new {near : r.size < c.size} (hnext : c.next? = some (t, ⟨r, near⟩))
    (hlead : lead? t.kind = some .new) (hexpect : ∀ (k : TokenKind) [k.Inner], r.kind = k → Leaves n (r.expect k))
    (helement : Leaves n (typeName r)) : Leaves n (operand c) := by
  rw [operand, hnext]
  simp only [hlead]
  split
  · rename_i hcond
    refine (hexpect _ hcond.1).bind fun _ _ _ h => (h.leaves .expect).bind fun _ _ _ h => ?_
    exact (h.leaves follows_expr).bind fun _ _ _ h => (h.leaves .expect).bind fun _ _ _ h => h
  · split
    · rename_i hcond
      refine (hexpect _ hcond.1).bind fun _ _ _ h => (h.leaves .expect).bind fun _ _ _ h => ?_
      exact (h.leaves .expect).bind fun _ _ _ h => h
    · refine helement.bind fun _ _ _ h => (h.leaves .expect).bind fun _ _ _ h => ?_
      exact (h.leaves follows_expr).bind fun _ _ _ h => (h.leaves .expect).bind fun _ _ _ h => h

/-! ### Names and types

Where a name or the name of a type is at hand, it is passed. -/

section Base

variable (h : c.Behind (n + 1))
include h

theorem leaves_expect_of_kind (hkind : c.kind = k) (hk : k ≠ .endOfFile) : Leaves n (c.expect k) := by
  unfold Cursor.expect
  split
  · rename_i found hsome
    have htakes := Cursor.accept?_eq_some_iff.mp hsome
    exact h.passes htakes.1 (htakes.2 ▸ hk)
  · rename_i hnone
    exact absurd hkind (Cursor.kind_ne_of_accept? hnone hk)

theorem leaves_typeName_of_base (hbase : Grammar.Base c.kind) : Leaves n (typeName c) := by
  have hkind : c.kind ≠ .endOfFile := fun hend => nomatch hend ▸ hbase
  obtain ⟨t, r, hpass⟩ := Cursor.exists_passes hkind
  rw [hpass.kind] at hbase hkind
  have hr := h.passes hpass hkind
  obtain ⟨near, hnext⟩ := hpass
  unfold typeName
  rw [hnext]
  dsimp only
  generalize t.kind = kind at hbase
  cases hbase with
  | scalar | struct => exact hr

theorem leaves_expr_of_name (hkind : c.kind = .name) : Leaves n (expr level c) := by
  obtain ⟨t, r, hpass⟩ := Cursor.exists_passes (c := c) (by simp [hkind])
  have hlead : lead? t.kind = some .name := by rw [← hpass.kind, hkind]; rfl
  have hr := h.passes hpass (by simp [← hpass.kind, hkind])
  obtain ⟨near, hnext⟩ := hpass
  have hoperand : Leaves n (operand c) := by
    rw [operand, hnext]
    simp only [hlead]
    exact hr
  rw [expr]
  exact hoperand.bind fun _ _ _ h => (h.leaves (follows_climb _ _)).bind fun _ _ _ h => h

theorem leaves_decl_of_base (hbase : Grammar.Base c.kind) : Leaves n (decl c) := by
  refine (leaves_typeName_of_base h hbase).bind fun _ _ _ h => ?_
  dsimp only
  split
  · rename_i hsome
    exact ((h.accept? hsome).leaves .expect).bind fun _ _ _ h => h
  · exact (h.leaves .expect).bind fun _ _ _ h => h

theorem leaves_plainStmt_of_base (hbase : Grammar.Base c.kind) : Leaves n (plainStmt c) := by
  unfold plainStmt
  split
  · exact (leaves_decl_of_base h hbase).bind fun _ _ _ h => (h.leaves follows_varDecl).bind fun _ _ _ h => h
  · rename_i hstarts
    have hname : c.kind = .name := by
      generalize hkind : c.kind = kind at hbase
      cases hbase with
      | scalar => exact absurd (by simp [Cursor.startsDecl, hkind, TokenKind.isScalar]) hstarts
      | struct => rfl
    exact (leaves_expr_of_name h hname).bind fun _ _ _ h => (h.leaves .expect).bind fun _ _ _ h => h

theorem leaves_item_of_base (hbase : Grammar.Base c.kind) : Leaves n (item c) := by
  unfold item
  split
  · rename_i hsome
    have hkind := (Cursor.accept?_eq_some_iff.mp hsome).kind
    rw [hkind] at hbase
    cases hbase
  · dsimp only
    split
    · refine (leaves_decl_of_base h hbase).bind fun _ _ _ h => ?_
      dsimp only
      split
      · rename_i hsome
        exact ((h.accept? hsome).leaves (follows_function · (Cursor.accept?_eq_some_iff.mp hsome).2)).bind fun _ _ _ h => h
      · exact (h.leaves follows_varDecl).bind fun _ _ _ h => h
    · have hlead : stmtLead? c.kind = none := by
        generalize c.kind = kind at hbase
        cases hbase <;> rfl
      refine Leaves.bind (p := stmt c) ?_ fun _ _ _ h => h
      rw [stmt, hlead]
      split
      all_goals simp_all [leaves_plainStmt_of_base]

end Base

end Parse

end OcCompiler
