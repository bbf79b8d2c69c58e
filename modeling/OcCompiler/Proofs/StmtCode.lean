import OcCompiler.Proofs.ExprCode

/-! The code of a statement does what the statement says, wherever it stands in a body whose labels are all different.
    -/

namespace OcCompiler

open Oil

variable {V : Type} {M : Meaning V} {ρ : Lexeme → Option Variable} {c : Context} {code : List Instruction}

mutual

theorem Stmt.realizes (s : Stmt) (hnodup : (Oil.labels code).Nodup) {k next number block : Nat} {outer : List Nat}
    {rest : List Instruction} (hcore : s.isCore = true) (hnames : c.Follows ρ (s.nameSteps block outer number k))
    (hspelled : ∀ t ∈ s.tokens, t.Spelled) (hcode : (s.emitted c k next).code ++ rest <:+ code) :
    Realizes M code ((s.emitted c k next).code ++ rest) rest (s.behaviour M ρ) := by
  -- Every part of the code stands before an end of the body.
  have hpast {is js : List Instruction} (h : is ++ js <:+ code) : js <:+ code := (List.suffix_append is js).trans h
  have hpast₁ {i : Instruction} {js : List Instruction} (h : i :: js <:+ code) : js <:+ code := (List.suffix_cons i js).trans h
  cases s with
  | block brace body =>
    rw [nameSteps] at hnames
    rw [tokens] at hspelled
    rw [behaviour]
    exact Stmt.realizesAll body hnodup hcore hnames (List.forall_mem_cons.mp hspelled).2 hcode
  | empty semicolon =>
    rw [behaviour]
    exact .skip
  | varDecl d equals init =>
    rw [nameSteps, Context.Follows, List.forall_mem_append] at hnames
    rw [tokens, List.forall_mem_append] at hspelled
    have hx : ρ d.name = some (c.variableAt ⟨k + 1⟩ d.name) := hnames.2 _ (List.mem_singleton_self _)
    have hinit := init.computes (M := M) next hcore hnames.1 (List.forall_mem_cons.mp hspelled.2).2
    rw [behaviour, funext (Expr.eval_assign hx equals init), emitted]
    split
    · exact (hinit.assign (.inl rfl)).evaluate
    · exact (hinit.assign (.inr ⟨_, rfl⟩)).evaluate
  | whileLoop mark cond body =>
    obtain ⟨hpure, hbody⟩ := Bool.and_eq_true_iff.mp hcore
    rw [nameSteps, Context.Follows, List.forall_mem_append] at hnames
    rw [tokens] at hspelled
    obtain ⟨hcond, hspelled⟩ := List.forall_mem_append.mp (List.forall_mem_cons.mp hspelled).2
    simp only [emitted, List.cons_append, List.append_assoc, List.nil_append] at hcode ⊢
    have hinside := hpast₁ (hpast (hpast₁ hcode))
    have hloop := behind?_eq_some hnodup hcode
    have hexit := behind?_eq_some hnodup (hpast₁ (hpast hinside))
    have hvalue := (cond.pureCode (M := M) next hpure hnames.1 hcond).computes
    have hround := (Stmt.realizes body hnodup hbody hnames.2 hspelled hinside).andThen (.jump hloop)
    rw [behaviour]
    exact (Realizes.label _).behind (.loop (hvalue.tests hexit) hround)
  | ifThen mark cond yes =>
    obtain ⟨hpure, hyes⟩ := Bool.and_eq_true_iff.mp hcore
    rw [nameSteps, Context.Follows, List.forall_mem_append] at hnames
    rw [tokens] at hspelled
    obtain ⟨hcond, hspelled⟩ := List.forall_mem_append.mp (List.forall_mem_cons.mp hspelled).2
    simp only [emitted, List.cons_append, List.append_assoc, List.nil_append] at hcode ⊢
    have hinside := hpast₁ (hpast hcode)
    have hjoin := behind?_eq_some hnodup (hpast hinside)
    have hvalue := (cond.pureCode (M := M) next hpure hnames.1 hcond).computes
    have hbranch := (Stmt.realizes yes hnodup hyes hnames.2 hspelled hinside).andThen (.label _)
    rw [behaviour]
    exact .choose (hvalue.tests hjoin) hbranch .skip
  | ifElse mark cond yes no =>
    obtain ⟨hcore, hno⟩ := Bool.and_eq_true_iff.mp hcore
    obtain ⟨hpure, hyes⟩ := Bool.and_eq_true_iff.mp hcore
    rw [nameSteps, Context.Follows, List.forall_mem_append, List.forall_mem_append] at hnames
    rw [tokens] at hspelled
    obtain ⟨hcond, hspelled⟩ := List.forall_mem_append.mp (List.forall_mem_cons.mp hspelled).2
    rw [List.forall_mem_append] at hspelled
    simp only [emitted, List.cons_append, List.append_assoc, List.nil_append] at hcode ⊢
    have hinside := hpast₁ (hpast hcode)
    have hlabel := hpast₁ (hpast hinside)
    have hotherwise := behind?_eq_some hnodup hlabel
    have hjoin := behind?_eq_some hnodup (hpast (hpast₁ hlabel))
    have hvalue := (cond.pureCode (M := M) next hpure hnames.1 hcond).computes
    have hbranch := (Stmt.realizes yes hnodup hyes hnames.2.1 hspelled.1 hinside).andThen (.jump hjoin)
    have hbranch' := (Stmt.realizes no hnodup hno hnames.2.2 hspelled.2 (hpast₁ hlabel)).andThen (.label _)
    rw [behaviour]
    exact .choose (hvalue.tests hotherwise) hbranch hbranch'
  | returnValue mark value =>
    rw [nameSteps] at hnames
    rw [tokens] at hspelled
    rw [behaviour, emitted, List.append_assoc]
    exact (value.pureCode next hcore hnames (List.forall_mem_cons.mp hspelled).2).computes.giveBack
  | returnVoid mark =>
    rw [behaviour]
    exact .leave
  | expr e =>
    rw [nameSteps] at hnames
    rw [tokens] at hspelled
    rw [behaviour]
    exact (e.computes next hcore hnames hspelled).evaluate

theorem Stmt.realizesAll (ss : List Stmt) (hnodup : (Oil.labels code).Nodup) {k next number block : Nat} {outer : List Nat}
    {rest : List Instruction} (hcore : isCoreAll ss = true) (hnames : c.Follows ρ (nameStepsAll block outer number k ss))
    (hspelled : ∀ t ∈ tokensAll ss, t.Spelled) (hcode : (emittedAll c k next ss).code ++ rest <:+ code) :
    Realizes M code ((emittedAll c k next ss).code ++ rest) rest (behaviourAll M ρ ss) := by
  match ss with
  | [] =>
    rw [behaviourAll]
    exact .skip
  | s :: ss =>
    obtain ⟨hs, hss⟩ := Bool.and_eq_true_iff.mp hcore
    rw [nameStepsAll, Context.Follows, List.forall_mem_append] at hnames
    rw [tokensAll, List.forall_mem_append] at hspelled
    rw [emittedAll, List.append_assoc] at hcode ⊢
    rw [behaviourAll]
    exact (Stmt.realizes s hnodup hs hnames.1 hspelled.1 hcode).seq
      (Stmt.realizesAll ss hnodup hss hnames.2 hspelled.2 ((List.suffix_append _ _).trans hcode))

end

theorem Stmt.realizesEach {ps : List (Nat × Stmt)} (hnodup : (Oil.labels code).Nodup) {next : Nat}
    {rest : List Instruction} (hcore : isCoreAll (ps.map (·.2)) = true)
    (hnames : ∀ p ∈ ps, ∃ block outer number, c.Follows ρ (p.2.nameSteps block outer number p.1))
    (hspelled : ∀ p ∈ ps, ∀ t ∈ p.2.tokens, t.Spelled) (hcode : (emittedEach c next ps).code ++ rest <:+ code) :
    Realizes M code ((emittedEach c next ps).code ++ rest) rest (behaviourAll M ρ (ps.map (·.2))) := by
  induction ps generalizing next with
  | nil =>
    rw [List.map_nil, behaviourAll]
    exact .skip
  | cons p ps ih =>
    obtain ⟨hp, hps⟩ := Bool.and_eq_true_iff.mp hcore
    obtain ⟨⟨block, outer, number, hname⟩, hnames⟩ := List.forall_mem_cons.mp hnames
    obtain ⟨hspell, hspelled⟩ := List.forall_mem_cons.mp hspelled
    rw [emittedEach, List.append_assoc] at hcode ⊢
    rw [List.map_cons, behaviourAll]
    exact (p.2.realizes hnodup hp hname hspell hcode).seq
      (ih hps hnames hspelled ((List.suffix_append _ _).trans hcode))

end OcCompiler
