import OcCompiler.Proofs.Mentions
import OcCompiler.Proofs.SingleDeclarations

/-! Variables in oil are declared before they are used. Blocks are flattened, but a name in use stands for a declaration
    that came before it: it is global, or a parameter, or an instruction before declares it. -/

namespace OcCompiler

open Oil NameStep

namespace NameDecl

variable {ds : List NameDecl} {d : NameDecl} {blocks : List Nat} {x : String}

def oilName (d : NameDecl) : Variable := ⟨d.name.text, d.block⟩

theorem block_of_binding (h : binding ds blocks x = some d) : d.block ∈ blocks := by
  obtain ⟨block, hblock, h⟩ := List.exists_of_findSome?_eq_some h
  rwa [(first_mem h).2.1]

theorem first_of_binding (h : binding ds blocks x = some d) : first ds d.block d.name.text = some d := by
  obtain ⟨block, -, h⟩ := List.exists_of_findSome?_eq_some h
  obtain ⟨-, rfl, rfl⟩ := first_mem h
  exact h

end NameDecl

/-- Every name in use has the symbol of a declaration before it, and every declaration has one. -/
structure Analysis.Denotes (a : Analysis) (steps : List NameStep) : Prop where
  bound : ∀ before blocks x n after, steps = before ++ .refer blocks x n :: after →
    ∃ d id, NameDecl.binding (declared before) blocks x.text = some d ∧ (a.decoration n).block = d.block ∧
      (a.decoration n).symbol = some id ∧ a.IsSymbolOf d id
  marked : ∀ d ∈ declared steps, a.Marked d

theorem Program.denotes_of_quiet {items : List Item} (h : (analyze items #[]).log = #[]) :
    (analyze items #[]).Denotes (nameSteps items) := by
  obtain ⟨next, htracks⟩ := tracks items #[]
  refine ⟨fun before blocks x n after hsteps => ?_, htracks.marked⟩
  obtain ⟨d, id, hbinding, hdecor, hid⟩ := resolved_of_quiet h hsteps
  exact ⟨d, id, hbinding, by rw [hdecor], by rw [hdecor], hid⟩

/-! ### Code that declares its variables -/

namespace Oil.ReadsDeclared

variable {α : Type} {reads declares : Instruction → List α} {known known' : List α} {code code' : List Instruction}

theorem mono (h : ReadsDeclared reads declares known code) (hsub : known ⊆ known') :
    ReadsDeclared reads declares known' code := by
  induction code generalizing known known' with
  | nil => trivial
  | cons i code ih => exact ⟨fun x hx => hsub (h.1 x hx), ih h.2 (append_subset_append hsub (List.Subset.refl _))⟩

theorem of_forall (hnone : code.flatMap declares = []) (h : ∀ i ∈ code, ∀ x ∈ reads i, x ∈ known) :
    ReadsDeclared reads declares known code := by
  induction code with
  | nil => trivial
  | cons i code ih =>
    obtain ⟨hi, hcode⟩ := List.forall_mem_cons.mp h
    rw [List.flatMap_cons, List.append_eq_nil_iff] at hnone
    refine ⟨hi, ?_⟩
    rw [hnone.1, List.append_nil]
    exact ih hnone.2 hcode

theorem still_append (h : ReadsDeclared reads declares known code) (hnone : code.flatMap declares = [])
    (h' : ReadsDeclared reads declares known code') : ReadsDeclared reads declares known (code ++ code') := by
  refine h.append ?_
  rwa [hnone, List.append_nil]

theorem still_cons {i : Instruction} (h : ∀ x ∈ reads i, x ∈ known) (hnone : declares i = [])
    (h' : ReadsDeclared reads declares known code) : ReadsDeclared reads declares known (i :: code) := by
  refine ⟨h, ?_⟩
  rwa [hnone, List.append_nil]

end Oil.ReadsDeclared

/-- Each instruction uses variables that are known or that an instruction before it declares. -/
abbrev Oil.UsesDeclared (known : List Variable) (code : List Instruction) : Prop :=
  ReadsDeclared Instruction.usedVars Instruction.newVars known code

theorem Oil.UsesDeclared.append_marks {known : List Variable} {code : List Instruction} (h : UsesDeclared known code)
    (marks : List Instruction) (hused : marks.flatMap Instruction.usedVars = []) (hnone : newVarsIn marks = []) :
    UsesDeclared known (code ++ marks) := by
  refine h.append (.of_forall hnone fun i hi v hv => ?_)
  rw [List.flatMap_eq_nil_iff.mp hused i hi] at hv
  cases hv

/-- Between the steps of a program, behind `before`, the variables of the blocks `block :: outer` are known, and so are all
    global names. Blocks from `next` on have no declarations yet. -/
structure InScope (steps : List NameStep) (known : List Variable) (block : Nat) (outer : List Nat) (next : Nat)
    (before : List NameStep) : Prop where
  globals : ∀ d ∈ declared steps, d.block = globalBlock → d.oilName ∈ known
  visible : ∀ d ∈ declared before, d.block ∈ block :: outer → d.oilName ∈ known
  below : ∀ d ∈ declared before, d.block < next
  around : ∀ b ∈ block :: outer, b < next

namespace InScope

variable {steps before : List NameStep} {known known' : List Variable} {block next : Nat} {outer : List Nat} {c : Context}

theorem mono (h : InScope steps known block outer next before) (hsub : known ⊆ known') :
    InScope steps known' block outer next before where
  globals d hd hblock := hsub (h.globals d hd hblock)
  visible d hd hblock := hsub (h.visible d hd hblock)
  below := h.below
  around := h.around

theorem append_refers {refers : List NameStep} (h : InScope steps known block outer next before)
    (hnone : declared refers = []) : InScope steps known block outer next (before ++ refers) := by
  have hdeclared : declared (before ++ refers) = declared before := by rw [declared_append, hnone, List.append_nil]
  exact ⟨h.globals, hdeclared ▸ h.visible, hdeclared ▸ h.below, h.around⟩

theorem enterBlock (h : InScope steps known block outer next before) :
    InScope steps known next (block :: outer) (next + 1) before where
  globals := h.globals
  visible d hd hblock := by
    rcases List.mem_cons.mp hblock with heq | hblock
    · exact absurd (h.below d hd) (heq ▸ Nat.lt_irrefl _)
    · exact h.visible d hd hblock
  below d hd := Nat.lt_succ_of_lt (h.below d hd)
  around := List.forall_mem_cons.mpr ⟨Nat.lt_succ_self next, fun b hb => Nat.lt_succ_of_lt (h.around b hb)⟩

theorem leaveBlock {next' : Nat} {inner : List NameStep} (h : InScope steps known block outer next before)
    (hinner : InScope steps known' next (block :: outer) next' (before ++ inner)) (hsub : known ⊆ known')
    (hblocks : ∀ d ∈ declared inner, next ≤ d.block) : InScope steps known' block outer next' (before ++ inner) where
  globals := hinner.globals
  visible := by
    rw [declared_append]
    refine List.forall_mem_append.mpr ⟨fun d hd hblock => hsub (h.visible d hd hblock), fun d hd hblock => ?_⟩
    exact absurd (h.around _ hblock) (Nat.not_lt.mpr (hblocks d hd))
  below := hinner.below
  around b hb := hinner.around b (List.mem_cons_of_mem _ hb)

theorem declare {d : NameDecl} (h : InScope steps known block outer next before) (hblock : d.block = block)
    (hknown : d.oilName ∈ known) : InScope steps known block outer next (before ++ [.declare d]) where
  globals := h.globals
  visible := by
    rw [Analysis.Tracks.declared_append_declare]
    exact List.forall_mem_append.mpr ⟨h.visible, List.forall_mem_singleton.mpr fun _ => hknown⟩
  below := by
    rw [Analysis.Tracks.declared_append_declare]
    exact List.forall_mem_append.mpr
      ⟨h.below, List.forall_mem_singleton.mpr (hblock ▸ h.around block List.mem_cons_self)⟩
  around := h.around

theorem known_of_mem (ha : c.analysis.Denotes steps) (h : InScope steps known block outer next before) {e : Expr} {k : Nat}
    (hsteps : before ++ e.nameSteps (block :: outer) k <+: steps) {p : Lexeme × NodeId}
    (hp : p ∈ (e.nameSteps (block :: outer) k).map mention) : c.variableAt p.2 p.1 ∈ known := by
  obtain ⟨s, hs, rfl⟩ := List.mem_map.mp hp
  obtain ⟨x, n, rfl⟩ := e.refer_of_mem _ hs
  obtain ⟨earlier, later, hmiddle⟩ := List.append_of_mem hs
  have hnone : declared earlier = [] := by
    have hall := e.declared_nameSteps (block :: outer) k
    rw [hmiddle, declared_append, List.append_eq_nil_iff] at hall
    exact hall.1
  obtain ⟨after, rfl⟩ := hsteps
  obtain ⟨d, id, hbinding, hblock, -, -⟩ := ha.bound (before ++ earlier) (block :: outer) x n (later ++ after) (by
    simp [hmiddle])
  rw [declared_append, hnone, List.append_nil] at hbinding
  have hname : c.variableAt n x = d.oilName := by
    rw [Context.variableAt, hblock, ← NameDecl.text_of_binding hbinding]
    rfl
  show c.variableAt n x ∈ known
  rw [hname]
  exact h.visible d (NameDecl.binding_mem hbinding) (NameDecl.block_of_binding hbinding)

theorem expr (ha : c.analysis.Denotes steps) (h : InScope steps known block outer next before) {e : Expr} {k : Nat}
    (hsteps : before ++ e.nameSteps (block :: outer) k <+: steps) (first : Nat) :
    UsesDeclared known (e.emitted c k first).code ∧ ∀ v ∈ (e.emitted c k first).value.vars, v ∈ known := by
  have hknown {ps : List (Lexeme × NodeId)} (hps : ps ⊆ (e.nameSteps (block :: outer) k).map mention) :
      ∀ v ∈ c.varsAt ps, v ∈ known := by
    intro v hv
    obtain ⟨p, hp, rfl⟩ := List.mem_map.mp hv
    exact h.known_of_mem ha hsteps (hps hp)
  refine ⟨.of_forall (e.newVarsIn_emitted k first) fun i hi v hv => ?_, ?_⟩
  · refine hknown (e.mentions_subset _ k) v ?_
    rw [← e.varsIn_emitted k first]
    exact List.mem_flatMap.mpr ⟨i, hi, i.vars_eq ▸ List.mem_append_right _ hv⟩
  · rw [e.vars_emitted]
    exact hknown (e.operandMentions_subset _ k)

end InScope

section Statements

variable {steps : List NameStep} {c : Context}

theorem InScope.test (ha : c.analysis.Denotes steps) {known : List Variable} {block next : Nat} {outer : List Nat}
    {before : List NameStep} (h : InScope steps known block outer next before) {cond : Expr} {k first : Nat}
    (hsteps : before ++ cond.nameSteps (block :: outer) k <+: steps) {l : Label} {code : List Instruction}
    (hcode : UsesDeclared known code) :
    UsesDeclared known ((cond.emitted c k first).code ++ .jumpUnless (cond.emitted c k first).value l :: code) := by
  obtain ⟨huses, hvars⟩ := h.expr ha hsteps first
  refine huses.still_append (cond.newVarsIn_emitted k first) (.still_cons ?_ rfl hcode)
  simpa [Instruction.usedVars, Instruction.arguments] using hvars

mutual

theorem Stmt.inScope (ha : c.analysis.Denotes steps) (s : Stmt) {known : List Variable} {block next : Nat} {outer : List Nat}
    {before : List NameStep} (h : InScope steps known block outer next before) {k : Nat}
    (hsteps : before ++ s.nameSteps block outer next k <+: steps) (first : Nat) :
    UsesDeclared known (s.emitted c k first).code ∧ InScope steps (known ++ newVarsIn (s.emitted c k first).code) block outer
      (next + s.blocks) (before ++ s.nameSteps block outer next k) := by
  cases s with
  | block brace body =>
    rw [nameSteps] at hsteps ⊢
    rw [emitted]
    obtain ⟨huses, hinner⟩ := Stmt.inScopeAll ha body h.enterBlock hsteps first
    refine ⟨huses, ?_⟩
    rw [blocks, show next + (blocksAll body + 1) = next + 1 + blocksAll body by omega]
    refine h.leaveBlock hinner (List.subset_append_left _ _) fun d hd => ?_
    rcases Stmt.block_of_memAll body hd with hblock | hblock <;> omega
  | empty | returnVoid =>
    rw [nameSteps, blocks, List.append_nil]
    exact ⟨by simp [emitted, ReadsDeclared, Instruction.usedVars, Instruction.arguments],
      h.mono (List.subset_append_left _ _)⟩
  | varDecl d equals init =>
    rw [nameSteps, ← List.append_assoc] at hsteps ⊢
    obtain ⟨huses, hvars⟩ := h.expr ha ((List.prefix_append _ _).trans hsteps) first
    have hmem : Decl.variableOf block (k, d) ∈ NameStep.declared steps := by
      obtain ⟨after, rfl⟩ := hsteps
      rw [declared_append, Analysis.Tracks.declared_append_declare]
      exact List.mem_append_left _ (List.mem_append_right _ (List.mem_singleton_self _))
    have hname : c.variableAt ⟨k + 1⟩ d.name = (Decl.variableOf block (k, d)).oilName :=
      congrArg (Variable.mk d.name.text) (ha.marked (Decl.variableOf block (k, d)) hmem).1
    have hbehind := h.append_refers (init.declared_nameSteps (block :: outer) (k + d.size + 1))
    rw [emitted, hname, newVarsIn_append, init.newVarsIn_emitted, List.nil_append]
    -- A global variable is known from the start, and any other is declared here.
    split
    · rename_i hglobal
      have hknown := h.globals _ hmem hglobal
      refine ⟨huses.still_append (init.newVarsIn_emitted _ _) (.singleton ?_), ?_⟩
      · simpa [Instruction.usedVars, Instruction.arguments] using And.intro hknown hvars
      · exact (hbehind.declare rfl hknown).mono (List.subset_append_left _ _)
    · refine ⟨huses.still_append (init.newVarsIn_emitted _ _) (.singleton ?_), ?_⟩
      · simpa [Instruction.usedVars, Instruction.arguments] using hvars
      · exact (hbehind.mono (List.subset_append_left _ _)).declare rfl (List.mem_append_right _ (List.mem_singleton_self _))
  | whileLoop mark cond body =>
    rw [nameSteps, ← List.append_assoc] at hsteps ⊢
    obtain ⟨hbody, hbehind⟩ := Stmt.inScope ha body (h.append_refers (cond.declared_nameSteps _ _)) hsteps
      (cond.emitted c (k + 1) first).next
    rw [emitted]
    refine ⟨.still_cons nofun rfl (h.test ha ((List.prefix_append _ _).trans hsteps) (hbody.append_marks _ rfl rfl)), ?_⟩
    simpa [Instruction.newVars, blocks] using hbehind
  | ifThen mark cond yes =>
    rw [nameSteps, ← List.append_assoc] at hsteps ⊢
    obtain ⟨hyes, hbehind⟩ := Stmt.inScope ha yes (h.append_refers (cond.declared_nameSteps _ _)) hsteps
      (cond.emitted c (k + 1) first).next
    rw [emitted]
    refine ⟨h.test ha ((List.prefix_append _ _).trans hsteps) (hyes.append_marks _ rfl rfl), ?_⟩
    simpa [Instruction.newVars, blocks] using hbehind
  | ifElse mark cond yes no =>
    rw [nameSteps, ← List.append_assoc, ← List.append_assoc] at hsteps ⊢
    have hcond := (List.prefix_append (before ++ cond.nameSteps (block :: outer) (k + 1)) _).trans
      ((List.prefix_append _ _).trans hsteps)
    obtain ⟨hyes, hbehind⟩ := Stmt.inScope ha yes (h.append_refers (cond.declared_nameSteps _ _))
      ((List.prefix_append _ _).trans hsteps) (cond.emitted c (k + 1) first).next
    obtain ⟨hno, hbehind'⟩ := Stmt.inScope ha no hbehind hsteps
      (yes.emitted c (k + 1 + cond.size) (cond.emitted c (k + 1) first).next).next
    rw [emitted]
    refine ⟨h.test ha hcond (hyes.append (.still_cons nofun rfl (.still_cons nofun rfl (hno.append_marks _ rfl rfl)))), ?_⟩
    simpa [Instruction.newVars, blocks, Nat.add_assoc] using hbehind'
  | returnValue mark value =>
    rw [nameSteps] at hsteps ⊢
    obtain ⟨huses, hvars⟩ := h.expr ha hsteps first
    rw [emitted, blocks]
    refine ⟨huses.still_append (value.newVarsIn_emitted _ _) (.singleton ?_), ?_⟩
    · simpa [Instruction.usedVars, Instruction.arguments] using hvars
    · exact (h.append_refers (value.declared_nameSteps _ _)).mono (List.subset_append_left _ _)
  | expr e =>
    rw [nameSteps] at hsteps ⊢
    rw [emitted, blocks]
    exact ⟨(h.expr ha hsteps first).1, (h.append_refers (e.declared_nameSteps _ _)).mono (List.subset_append_left _ _)⟩

theorem Stmt.inScopeAll (ha : c.analysis.Denotes steps) (ss : List Stmt) {known : List Variable} {block next : Nat}
    {outer : List Nat} {before : List NameStep} (h : InScope steps known block outer next before) {k : Nat}
    (hsteps : before ++ nameStepsAll block outer next k ss <+: steps) (first : Nat) :
    UsesDeclared known (emittedAll c k first ss).code ∧ InScope steps (known ++ newVarsIn (emittedAll c k first ss).code)
      block outer (next + blocksAll ss) (before ++ nameStepsAll block outer next k ss) := by
  match ss with
  | [] =>
    rw [nameStepsAll, List.append_nil]
    exact ⟨trivial, h.mono (List.subset_append_left _ _)⟩
  | s :: ss =>
    rw [nameStepsAll, ← List.append_assoc] at hsteps ⊢
    obtain ⟨huses, hbehind⟩ := Stmt.inScope ha s h ((List.prefix_append _ _).trans hsteps) first
    obtain ⟨huses', hbehind'⟩ := Stmt.inScopeAll ha ss hbehind hsteps (s.emitted c k first).next
    rw [emittedAll]
    refine ⟨ReadsDeclared.append huses huses', ?_⟩
    rw [newVarsIn_append, blocksAll, ← List.append_assoc, ← Nat.add_assoc]
    exact hbehind'

end

end Statements

/-- The steps of an item, with the number of its first block, behind those of the items before it. -/
structure Item.StepsAt (steps : List NameStep) (k : Nat) (i : Item) (before : List NameStep) (next : Nat) : Prop where
  behind : before ++ i.nameSteps next k <+: steps
  below : ∀ d ∈ NameStep.declared before, d.block < next
  next_pos : globalBlock < next

theorem Item.stepsAt_of_mem_placed {is : List Item} {k j next : Nat} {i : Item} (h : (j, i) ∈ placed k is)
    (hnext : globalBlock < next) : ∃ before next', StepsAt (nameStepsAll next k is) j i before next' := by
  suffices hmore : ∃ before next', StepsAt (nameStepsAll next k is) j i before next' ∧ next ≤ next' by
    obtain ⟨before, next', hsteps, -⟩ := hmore
    exact ⟨before, next', hsteps⟩
  induction is generalizing next k with
  | nil => cases h
  | cons i' is ih =>
    rw [nameStepsAll]
    rcases List.mem_cons.mp h with heq | h
    · cases heq
      exact ⟨[], next, ⟨List.prefix_append _ _, List.forall_mem_nil _, hnext⟩, Nat.le_refl _⟩
    · have hfurther : globalBlock < next + i'.blocks := by omega
      obtain ⟨before, next', ⟨hbehind, hbelow, hpos⟩, hle⟩ := ih h hfurther
      refine ⟨i'.nameSteps next k ++ before, next', ⟨?_, ?_, hpos⟩, by omega⟩
      · rw [List.append_assoc]
        exact (List.prefix_append_right_inj _).mpr hbehind
      · rw [declared_append]
        refine List.forall_mem_append.mpr ⟨fun d hd => ?_, hbelow⟩
        rcases Item.block_of_mem hd with ⟨hblock, -⟩ | hblock <;> omega

def NameStep.globalNames (steps : List NameStep) : List Variable :=
  ((declared steps).filter (·.block == globalBlock)).map NameDecl.oilName

theorem NameStep.mem_globalNames_iff {steps : List NameStep} {v : Variable} :
    v ∈ globalNames steps ↔ ∃ d ∈ declared steps, d.block = globalBlock ∧ d.oilName = v := by
  simp [globalNames, and_assoc]

section Items

variable {steps before : List NameStep} {known : List Variable} {c : Context} {k next : Nat}

theorem Item.StepsAt.inScope {i : Item} (h : i.StepsAt steps k before next) (hknown : globalNames steps ⊆ known) :
    InScope steps known globalBlock [] next before where
  globals d hd hblock := hknown (mem_globalNames_iff.mpr ⟨d, hd, hblock, rfl⟩)
  visible d hd hblock := by
    refine hknown (mem_globalNames_iff.mpr ⟨d, ?_, List.mem_singleton.mp hblock, rfl⟩)
    obtain ⟨after, rfl⟩ := h.behind
    rw [declared_append, declared_append]
    exact List.mem_append_left _ (List.mem_append_left _ hd)
  below := h.below
  around := List.forall_mem_singleton.mpr h.next_pos

theorem InScope.params {block : Nat} {outer : List Nat} (h : InScope steps known block outer next before) {ds : List Decl}
    (hknown : ∀ d ∈ NameStep.declared (Decl.paramSteps block k ds), d.oilName ∈ known) :
    InScope steps known block outer next (before ++ Decl.paramSteps block k ds) where
  globals := h.globals
  visible := by
    rw [declared_append]
    exact List.forall_mem_append.mpr ⟨h.visible, fun d hd _ => hknown d hd⟩
  below := by
    rw [declared_append]
    refine List.forall_mem_append.mpr ⟨h.below, fun d hd => ?_⟩
    rw [(Decl.of_mem_paramSteps hd).1]
    exact h.around block List.mem_cons_self
  around := h.around

theorem Item.EmittedAs.usesDeclared (ha : c.analysis.Denotes steps) {p : Nat × Item} {f : Function} (h : EmittedAs c p f)
    (hp : p.2.StepsAt steps p.1 before next) : UsesDeclared (globalNames steps ++ f.params.map (·.2)) f.body := by
  obtain ⟨d, paren, params, brace, body, first, hitem, hlowered, hbody⟩ := h.parts_emitted
  have hsteps := hp.behind
  rw [hitem, nameSteps, List.append_cons, ← List.append_assoc] at hsteps
  have hmem : ∀ e ∈ NameStep.declared (.declare (d.declared globalBlock p.1 { function := true }) ::
      Decl.paramSteps next (p.1 + d.size + 1) params), e ∈ NameStep.declared steps := by
    intro e he
    obtain ⟨after, rfl⟩ := hsteps
    rw [declared_append, declared_append, List.append_assoc before, declared_append, List.singleton_append]
    exact List.mem_append_left _ (List.mem_append_left _ (List.mem_append_right _ he))
  have hparams : ∀ e ∈ NameStep.declared (Decl.paramSteps next (p.1 + d.size + 1) params),
      e.oilName ∈ globalNames steps ++ f.params.map (·.2) := by
    intro e he
    refine List.mem_append_right _ ?_
    rw [hlowered, ← Decl.mentions_paramSteps params next]
    obtain ⟨s, hs, hdeclared⟩ := List.mem_filterMap.mp he
    cases s with
    | declare e' =>
      cases hdeclared
      refine List.mem_map.mpr ⟨(e.name, e.node), List.mem_map.mpr ⟨_, hs, rfl⟩, ?_⟩
      exact congrArg (Variable.mk e.name.text) (ha.marked e (hmem e (List.mem_cons_of_mem _ he))).1
    | refer => cases hdeclared
  have htop := hp.inScope (List.subset_append_left (globalNames steps) (f.params.map (·.2)))
  have hfunction := htop.declare (d := d.declared globalBlock p.1 { function := true }) rfl
    (List.mem_append_left _ (mem_globalNames_iff.mpr ⟨_, hmem _ List.mem_cons_self, rfl, rfl⟩))
  rw [hbody]
  exact (Stmt.inScopeAll ha body (hfunction.enterBlock.params hparams) hsteps first).1

theorem Stmt.usesDeclared_emittedEach (ha : c.analysis.Denotes steps) {ps : List (Nat × Stmt)}
    (hps : ∀ p ∈ ps, ∃ before next, (Item.stmt p.2).StepsAt steps p.1 before next) (first : Nat) :
    UsesDeclared (globalNames steps) (emittedEach c first ps).code := by
  induction ps generalizing first with
  | nil => trivial
  | cons p ps ih =>
    obtain ⟨⟨before, next, hp⟩, hps⟩ := List.forall_mem_cons.mp hps
    have huses := (Stmt.inScope ha p.2 (hp.inScope (List.Subset.refl _)) hp.behind first).1
    exact huses.append ((ih hps _).mono (List.subset_append_left _ _))

end Items

end OcCompiler
