import OcCompiler.Proofs.Structured

/-! When a part of a goto program does what a behaviour says: each way to run has a run of the code, and each run of the
    code that comes to an end starts with a way to run. The second direction is by induction on the number of steps. -/

namespace OcCompiler

open Oil

variable {V : Type} {M : Meaning V} {code start middle finish : List Instruction}

def Oil.Cells.store (μ : Cells V) : Store V := fun v => μ v.text

def Leads (M : Meaning V) (code start : List Instruction) (μ : Cells V) (finish : List Instruction) (μ' : Cells V) : Prop :=
  ∀ n r ν, Runs M code n finish μ' r ν → ∃ n', Runs M code n' start μ r ν

theorem Leads.refl (μ : Cells V) : Leads M code start μ start μ := fun n _ _ h => ⟨n, h⟩

theorem Leads.trans {μ μ₁ μ₂ : Cells V} (h : Leads M code start μ middle μ₁) (h' : Leads M code middle μ₁ finish μ₂) :
    Leads M code start μ finish μ₂ := by
  intro n r ν hruns
  obtain ⟨n', hruns⟩ := h' n r ν hruns
  exact h n' r ν hruns

/-- The code from `start` up to `finish` does what the behaviour says. -/
structure Realizes (M : Meaning V) (code start finish : List Instruction) (B : Behaviour V) : Prop where
  next : ∀ {μ : Cells V} {τ : Store V}, B μ.store .next τ → ∃ μ', μ'.store = τ ∧ Leads M code start μ finish μ'
  returns : ∀ {μ : Cells V} {τ : Store V} {v : Option V}, B μ.store (.returns v) τ →
    ∃ n ν, ν.store = τ ∧ Runs M code n start μ v ν
  back : ∀ {n : Nat} {μ ν : Cells V} {r : Option V}, Runs M code n start μ r ν →
    B μ.store (.returns r) ν.store ∨ ∃ n' μ', n' ≤ n ∧ B μ.store .next μ'.store ∧ Runs M code n' finish μ' r ν

/-- The code from `start` on carries out a test, which leads to one of two places. -/
structure Tests (M : Meaning V) (code start yes no : List Instruction) (test : Store V → Option (Bool × Store V)) : Prop where
  forth : ∀ {μ : Cells V} {b : Bool} {τ : Store V}, test μ.store = some (b, τ) →
    ∃ μ', μ'.store = τ ∧ Leads M code start μ (if b then yes else no) μ'
  back : ∀ {n : Nat} {μ ν : Cells V} {r : Option V}, Runs M code n start μ r ν →
    ∃ b n' μ', n' < n ∧ test μ.store = some (b, μ'.store) ∧ Runs M code n' (if b then yes else no) μ' r ν

namespace Realizes

variable {A B : Behaviour V}

theorem skip : Realizes M code start start .skip where
  next := by
    rintro μ τ ⟨-, rfl⟩
    exact ⟨μ, rfl, .refl μ⟩
  returns := by
    rintro μ τ v ⟨h, -⟩
    cases h
  back {n μ _ _} hruns := .inr ⟨n, μ, Nat.le_refl n, ⟨rfl, rfl⟩, hruns⟩

theorem leads_of_step {μ μ' : Cells V} (h : step? M code μ start = some (finish, μ')) : Leads M code start μ finish μ' :=
  fun n _ _ hruns => ⟨n + 1, .step h hruns⟩

theorem step (h : ∀ μ, step? M code μ start = some (finish, μ)) : Realizes M code start finish .skip where
  next := by
    rintro μ τ ⟨-, rfl⟩
    exact ⟨μ, rfl, leads_of_step (h μ)⟩
  returns := by
    rintro μ τ v ⟨h, -⟩
    cases h
  back {n μ _ _} hruns := by
    obtain ⟨n', rfl, hrest⟩ := (runs_step_iff (h μ)).mp hruns
    exact .inr ⟨n', μ, Nat.le_succ n', ⟨rfl, rfl⟩, hrest⟩

theorem label (l : Label) : Realizes M code (.label l :: finish) finish .skip := step fun _ => rfl

theorem jump {l : Label} (h : behind? l.text code = some finish) : Realizes M code (.jump l :: start) finish .skip :=
  step fun μ => by rw [step?, h]; rfl

theorem seq (hA : Realizes M code start middle A) (hB : Realizes M code middle finish B) :
    Realizes M code start finish (A.seq B) where
  next := by
    rintro μ τ (⟨σ, hfirst, hsecond⟩ | ⟨r, h, -⟩)
    · obtain ⟨μ₁, rfl, hleads⟩ := hA.next hfirst
      obtain ⟨μ₂, hstore, hleads'⟩ := hB.next hsecond
      exact ⟨μ₂, hstore, hleads.trans hleads'⟩
    · cases h
  returns := by
    rintro μ τ v (⟨σ, hfirst, hsecond⟩ | ⟨r, -, hfirst⟩)
    · obtain ⟨μ₁, rfl, hleads⟩ := hA.next hfirst
      obtain ⟨n, ν, hstore, hruns⟩ := hB.returns hsecond
      obtain ⟨n', hruns⟩ := hleads n v ν hruns
      exact ⟨n', ν, hstore, hruns⟩
    · exact hA.returns hfirst
  back := by
    intro n μ ν r hruns
    rcases hA.back hruns with hfirst | ⟨n₁, μ₁, hle, hfirst, hruns⟩
    · exact .inl (.inr ⟨r, rfl, hfirst⟩)
    · rcases hB.back hruns with hsecond | ⟨n₂, μ₂, hle', hsecond, hruns⟩
      · exact .inl (.inl ⟨_, hfirst, hsecond⟩)
      · exact .inr ⟨n₂, μ₂, Nat.le_trans hle' hle, .inl ⟨_, hfirst, hsecond⟩, hruns⟩

theorem andThen (hA : Realizes M code start middle A) (h : Realizes M code middle finish .skip) :
    Realizes M code start finish A := by
  rw [← A.seq_skip]
  exact hA.seq h

theorem behind (h : Realizes M code start middle .skip) (hA : Realizes M code middle finish A) :
    Realizes M code start finish A := by
  rw [← A.skip_seq]
  exact h.seq hA

theorem leave : Realizes M code (.returnVoid :: start) finish .leave where
  next := by
    rintro μ τ ⟨h, -⟩
    cases h
  returns := by
    rintro μ τ v ⟨h, rfl⟩
    cases h
    exact ⟨0, μ, rfl, .done rfl⟩
  back hruns := by
    cases hruns with
    | done h =>
      cases h
      exact .inl ⟨rfl, rfl⟩
    | step h => cases h

variable {yes no : List Instruction} {test : Store V → Option (Bool × Store V)}

theorem choose (ht : Tests M code start yes no test) (hA : Realizes M code yes finish A) (hB : Realizes M code no finish B) :
    Realizes M code start finish (.choose test A B) := by
  -- Either branch starts where the test leads to and does what it says.
  have hbranch (b : Bool) : Realizes M code (if b then yes else no) finish (if b then A else B) := by
    cases b
    · exact hB
    · exact hA
  constructor
  · rintro μ τ ⟨b, σ, htest, hrun⟩
    obtain ⟨μ₁, rfl, hleads⟩ := ht.forth htest
    obtain ⟨μ₂, hstore, hleads'⟩ := (hbranch b).next hrun
    exact ⟨μ₂, hstore, hleads.trans hleads'⟩
  · rintro μ τ v ⟨b, σ, htest, hrun⟩
    obtain ⟨μ₁, rfl, hleads⟩ := ht.forth htest
    obtain ⟨n, ν, hstore, hruns⟩ := (hbranch b).returns hrun
    obtain ⟨n', hruns⟩ := hleads n v ν hruns
    exact ⟨n', ν, hstore, hruns⟩
  · intro n μ ν r hruns
    obtain ⟨b, n₁, μ₁, hlt, htest, hruns⟩ := ht.back hruns
    rcases (hbranch b).back hruns with hrun | ⟨n₂, μ₂, hle, hrun, hruns⟩
    · exact .inl ⟨b, _, htest, hrun⟩
    · exact .inr ⟨n₂, μ₂, Nat.le_trans hle (Nat.le_of_lt hlt), ⟨b, _, htest, hrun⟩, hruns⟩

theorem loop (ht : Tests M code start yes no test) (hA : Realizes M code yes start A) :
    Realizes M code start no (.loop test A) where
  next := by
    intro μ τ hrun
    generalize hσ : μ.store = σ at hrun
    generalize hx : Exit.next = x at hrun
    induction hrun generalizing μ with
    | stop htest =>
      subst hσ
      exact ht.forth htest
    | again htest hbody _ ih =>
      subst hσ
      obtain ⟨μ₁, rfl, hleads⟩ := ht.forth htest
      obtain ⟨μ₂, hstore, hleads'⟩ := hA.next hbody
      obtain ⟨μ₃, hstore', hleads''⟩ := ih hstore hx
      exact ⟨μ₃, hstore', (hleads.trans hleads').trans hleads''⟩
    | leave => cases hx
  returns := by
    intro μ τ v hrun
    generalize hσ : μ.store = σ at hrun
    generalize hx : Exit.returns v = x at hrun
    induction hrun generalizing μ with
    | stop => cases hx
    | again htest hbody _ ih =>
      subst hσ
      obtain ⟨μ₁, rfl, hleads⟩ := ht.forth htest
      obtain ⟨μ₂, hstore, hleads'⟩ := hA.next hbody
      obtain ⟨n, ν, hstore', hruns⟩ := ih hstore hx
      obtain ⟨n', hruns⟩ := (hleads.trans hleads') n v ν hruns
      exact ⟨n', ν, hstore', hruns⟩
    | leave htest hbody =>
      subst hσ
      cases hx
      obtain ⟨μ₁, rfl, hleads⟩ := ht.forth htest
      obtain ⟨n, ν, hstore, hruns⟩ := hA.returns hbody
      obtain ⟨n', hruns⟩ := hleads n v ν hruns
      exact ⟨n', ν, hstore, hruns⟩
  back := by
    intro n
    -- What is left to run after each round is shorter, because the test takes a step.
    induction n using Nat.strongRecOn with
    | ind n ih =>
      intro μ ν r hruns
      obtain ⟨b, n₁, μ₁, hlt, htest, hruns⟩ := ht.back hruns
      cases b with
      | false => exact .inr ⟨n₁, μ₁, Nat.le_of_lt hlt, .stop htest, hruns⟩
      | true =>
        rcases hA.back hruns with hbody | ⟨n₂, μ₂, hle, hbody, hruns⟩
        · exact .inl (.leave htest hbody)
        · have hlt' := Nat.lt_of_le_of_lt hle hlt
          rcases ih n₂ hlt' hruns with hrest | ⟨n₃, μ₃, hle', hrest, hruns⟩
          · exact .inl (.again htest hbody hrest)
          · exact .inr ⟨n₃, μ₃, Nat.le_trans hle' (Nat.le_of_lt hlt'), .again htest hbody hrest, hruns⟩

end Realizes

/-- Code without jumps that leaves the value of a computation to an operand, and in the variables its store. It gets
    stuck if there is no value. -/
structure Computes (M : Meaning V) (is : List Instruction) (o : Operand) (f : Store V → Option (V × Store V)) : Prop where
  straight : ∀ i ∈ is, i.isStraight = true
  effects : ∀ μ : Cells V, Option.Rel (fun p μ' => μ'.store = p.2 ∧ μ'.read? M o.text = some p.1) (f μ.store)
    (effects? M is μ)

namespace Computes

variable {is rest : List Instruction} {o : Operand} {f : Store V → Option (V × Store V)} {μ μ' : Cells V}

theorem forth {v : V} {τ : Store V} (h : Computes M is o f) (hf : f μ.store = some (v, τ)) :
    ∃ μ', effects? M is μ = some μ' ∧ μ'.store = τ ∧ μ'.read? M o.text = some v := by
  have hrel := h.effects μ
  rw [hf] at hrel
  generalize effects? M is μ = result at hrel
  cases hrel with
  | @some _ μ' hμ' => exact ⟨μ', rfl, hμ'⟩

theorem back (h : Computes M is o f) (heffects : effects? M is μ = some μ') :
    ∃ v, f μ.store = some (v, μ'.store) ∧ μ'.read? M o.text = some v := by
  have hrel := h.effects μ
  rw [heffects] at hrel
  generalize f μ.store = result at hrel
  cases hrel with
  | @some p _ hμ' =>
    obtain ⟨hstore, hread⟩ := hμ'
    exact ⟨p.1, by rw [hstore], hread⟩

theorem leads (h : Computes M is o f) (heffects : effects? M is μ = some μ') : Leads M code (is ++ finish) μ finish μ' :=
  fun n _ _ hruns => ⟨n + is.length, (runs_straight_iff h.straight).mpr ⟨n, μ', rfl, heffects, hruns⟩⟩

theorem evaluate (h : Computes M is o f) : Realizes M code (is ++ finish) finish (.evaluate f) where
  next := by
    rintro μ τ ⟨v, hf, -⟩
    obtain ⟨μ', heffects, hstore, -⟩ := h.forth hf
    exact ⟨μ', hstore, h.leads heffects⟩
  returns := by
    rintro μ τ v ⟨w, -, h⟩
    cases h
  back := by
    intro n μ ν r hruns
    obtain ⟨n', μ', rfl, heffects, hruns⟩ := (runs_straight_iff h.straight).mp hruns
    obtain ⟨v, hf, -⟩ := h.back heffects
    exact .inr ⟨n', μ', Nat.le_add_right n' _, ⟨v, hf, rfl⟩, hruns⟩

theorem giveBack (h : Computes M is o f) : Realizes M code (is ++ .returnValue o :: rest) finish (.giveBack f) where
  next := by
    rintro μ τ ⟨v, -, h⟩
    cases h
  returns := by
    rintro μ τ w ⟨v, hf, hx⟩
    cases hx
    obtain ⟨μ', heffects, hstore, hread⟩ := h.forth hf
    have hend : Runs M code 0 (.returnValue o :: rest) μ' (some v) μ' := .done (by rw [result?, hread]; rfl)
    obtain ⟨n', hruns⟩ := h.leads heffects 0 _ _ hend
    exact ⟨n', μ', hstore, hruns⟩
  back := by
    intro n μ ν r hruns
    obtain ⟨n', μ', rfl, heffects, hruns⟩ := (runs_straight_iff h.straight).mp hruns
    obtain ⟨v, hf, hread⟩ := h.back heffects
    cases hruns with
    | done hresult =>
      rw [result?, hread] at hresult
      cases hresult
      exact .inl ⟨v, hf, rfl⟩
    | step hstep => cases hstep

theorem tests {l : Label} {yes no : List Instruction} (h : Computes M is o f) (hl : behind? l.text code = some no) :
    Tests M code (is ++ .jumpUnless o l :: yes) yes no fun σ => (f σ).map fun p => (M.holds p.1, p.2) := by
  have hstep {μ : Cells V} {v : V} (hread : μ.read? M o.text = some v) :
      step? M code μ (.jumpUnless o l :: yes) = some (if M.holds v then yes else no, μ) := by
    simp only [step?, hread, hl, bind, Option.bind]
    split <;> rfl
  constructor
  · intro μ b τ htest
    obtain ⟨⟨v, σ⟩, hf, heq⟩ := Option.map_eq_some_iff.mp htest
    cases heq
    obtain ⟨μ', heffects, hstore, hread⟩ := h.forth hf
    exact ⟨μ', hstore, (h.leads heffects).trans (Realizes.leads_of_step (hstep hread))⟩
  · intro n μ ν r hruns
    obtain ⟨n', μ', rfl, heffects, hruns⟩ := (runs_straight_iff h.straight).mp hruns
    obtain ⟨v, hf, hread⟩ := h.back heffects
    obtain ⟨n₁, rfl, hrest⟩ := (runs_step_iff (hstep hread)).mp hruns
    refine ⟨M.holds v, n₁, μ', Nat.lt_add_right _ (Nat.lt_succ_self n₁), ?_, hrest⟩
    rw [hf]
    rfl

end Computes

end OcCompiler
