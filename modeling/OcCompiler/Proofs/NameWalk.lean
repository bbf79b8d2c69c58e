import OcCompiler.Proofs.Binding

/-! How the analysis gets from one name to the next: it looks a name up, defines one, opens or closes a block, compares
    a definition with its prototype, or works on something else. Whatever each of these keeps is kept on the whole way.
    -/

namespace OcCompiler

open Analysis NameStep

/-- How far an analysis has come: the open blocks, the number of the next block, what was done with names so far, and the
    state. A pending symbol is a prototype whose definition is being read. -/
structure Stage where
  pending : Option SymbolId
  block : Nat
  outer : List Nat
  next : Nat
  steps : List NameStep
  analysis : Analysis

/-- The analysis gets to a stage from the stage `start`. -/
inductive Reaches (start : Stage) : Option SymbolId → Nat → List Nat → Nat → List NameStep → Analysis → Prop where
  | refl : Reaches start start.pending start.block start.outer start.next start.steps start.analysis
  | aside {pending block outer next steps a b k m} (h : Reaches start pending block outer next steps a)
    (hwork : Aside k m a b) (hspared : ∀ s ∈ steps, a.Spared b s) : Reaches start pending block outer next steps b
  | refer {block outer next steps a} (h : Reaches start none block outer next steps a) (x : Lexeme) {n : NodeId}
    (hout : Outside n.index (n.index + 1) steps) :
    Reaches start none block outer next (steps ++ [.refer (block :: outer) x n]) (a.refer n x)
  | enterBlock {pending block outer next steps a} (h : Reaches start pending block outer next steps a) :
    Reaches start pending next (block :: outer) (next + 1) steps a.enterBlock.2
  | exitBlock {pending block around outer next steps a} (h : Reaches start pending block (around :: outer) next steps a) :
    Reaches start pending around outer next steps a.exitBlock
  | define {pending block outer next steps a k m} {d : Declaration} (h : Reaches start pending block outer next steps a)
    (roles : Roles) (hfield : roles.field = false) (hbindable : roles.isBindable = true) (hd : d.Within k m)
    (hout : Outside k m steps) (hroles : pending = none ∨ roles.function = false ∧ roles.prototype = false) :
    Reaches start ((a.define d roles).1.prototype.or pending) block outer next
      (steps ++ [.declare ⟨block, d.name, d.nameNode, .typed d.type roles⟩]) (a.define d roles).2
  | matchPrototype {block outer next steps a definition prototype params}
    (h : Reaches start (some prototype) block outer next steps a) :
    Reaches start none block outer next steps (a.matchPrototype definition prototype params)

variable {head : List NameStep} {params : List Decl} {k : Nat} {d : Decl}
variable {start : Stage} {pending : Option SymbolId} {block next : Nat} {outer : List Nat} {steps : List NameStep}
  {a : Analysis}

namespace Reaches

variable {b : Analysis} {k m : Nat}

theorem elsewhere (h : Reaches start pending block outer next steps a) (hwork : Aside k m a b) (hout : Outside k m steps) :
    Reaches start pending block outer next steps b := h.aside hwork (hwork.toEffect.spared hout)

theorem tracks {old : List Diagnostic} (h : Reaches start pending block outer next steps a)
    (hstart : Tracks old start.pending start.block start.outer start.next start.steps start.analysis) :
    Tracks old pending block outer next steps a := by
  induction h with
  | refl => exact hstart
  | aside _ hwork hspared ih => exact ih.neutral_spared hwork.toNeutral hspared
  | refer _ x hout ih => exact ih.refer x hout
  | enterBlock _ ih => exact ih.enterBlock
  | exitBlock _ ih => exact ih.exitBlock
  | define _ roles hfield hbindable hd hout hroles ih => exact ih.define roles hfield hbindable hd hout hroles
  | matchPrototype _ ih => exact ih.matchPrototype

theorem defineParams (h : Reaches start pending block outer next steps a) (ds : List Decl)
    (hout : Outside k (k + Decl.sizes ds) steps) :
    Reaches start pending block outer next (steps ++ Decl.paramSteps block k ds)
      (Analysis.defineParams (Decl.declarations k ds) a).2 := by
  induction ds generalizing a k steps with
  | nil =>
    rw [Decl.paramSteps, List.append_nil]
    exact h
  | cons d ds ih =>
    have hd := d.two_le_size
    rw [Decl.sizes, ← Nat.add_assoc] at hout
    have hdefine := h.define .ofParam rfl rfl (d.declaration_within (Nat.le_refl k) (Nat.le_refl _))
      (hout.mono (Nat.le_refl _) (Nat.le_add_right _ _)) (.inr ⟨rfl, rfl⟩)
    rw [Tracks.prototype_define rfl, Option.none_or] at hdefine
    rw [Decl.paramSteps, List.append_cons]
    refine ih hdefine ((hout.mono (Nat.le_add_right _ _) (Nat.le_refl _)).append ?_)
    exact (Within.nil.cons (Nat.zero_le _) (Nat.lt_succ_self (k + 1))).before (Nat.add_le_add_left hd k) _

theorem openFunction (h : Reaches start none block outer next steps a) (d : Decl) (params : List Decl) (roles : Roles)
    (hfield : roles.field = false) (hbindable : roles.isBindable = true)
    (hout : Outside k (k + d.size + 1 + Decl.sizes params) steps) :
    Reaches start none next (block :: outer) (next + 1)
      (steps ++ .declare (d.declared block k roles) :: Decl.paramSteps next (k + d.size + 1) params)
      (a.openFunction (d.declaration k) ⟨k + d.size⟩ (Decl.declarations (k + d.size + 1) params) roles) := by
  have hd := d.two_le_size
  have hdefine := h.define roles hfield hbindable (d.declaration_within (Nat.le_refl k) (Nat.le_refl _))
    (hout.mono (Nat.le_refl k) (by omega)) (.inl rfl)
  have hname : Within k (k + d.size) [.declare (d.declared block k roles)] :=
    Within.nil.cons (Nat.le_succ k) (Nat.add_lt_add_left hd k)
  have hout' : Outside (k + d.size) (k + d.size + 1 + Decl.sizes params) (steps ++ [.declare (d.declared block k roles)]) :=
    (hout.mono (Nat.le_add_right _ _) (Nat.le_refl _)).append (hname.before (Nat.le_refl _) _)
  rw [openFunction_eq, List.append_cons]
  generalize a.define (d.declaration k) roles = defined at hdefine
  obtain ⟨⟨f, prototype⟩, a⟩ := defined
  rw [Option.or_none] at hdefine
  dsimp only [openParams]
  have hblock : Aside (k + d.size) (k + d.size + 1) a.enterBlock.2 (a.enterBlock.2.setBlock ⟨k + d.size⟩ a.enterBlock.1) :=
    aside_setBlock _ _ (Nat.le_refl _) (Nat.lt_succ_self _)
  have henter := hdefine.enterBlock.elsewhere hblock (hout'.mono)
  have hparams := henter.defineParams (k := k + d.size + 1) params (hout'.mono (Nat.le_succ _) (Nat.le_refl _))
  generalize Analysis.defineParams (Decl.declarations (k + d.size + 1) params) _ = r at hparams
  have hids : Aside 0 0 r.2 (r.2.setSymbols (r.2.symbols.modify f fun s => { s with params := some r.1 })) :=
    aside_modify _ f ⟨rfl, .inl rfl, fun _ => rfl, fun _ => rfl⟩ rfl rfl
  have hopened := hparams.elsewhere hids fun s _ => .inr (Nat.zero_le _)
  cases prototype with
  | none => exact hopened
  | some prototype => exact hopened.matchPrototype

end Reaches

mutual

theorem Expr.reaches (e : Expr) {k : Nat} {steps : List NameStep} {a : Analysis}
    (h : Reaches start none block outer next steps a) (hout : Outside k (k + e.size) steps) :
    Reaches start none block outer next (steps ++ e.nameSteps (block :: outer) k) (e.analyze k a) := by
  cases e with
  | name x =>
    rw [analyze, nameSteps]
    rw [size_name] at hout
    exact (h.elsewhere (a.aside_place _ (Nat.le_refl k) (Nat.lt_succ_self k)) hout).refer x hout
  | constant c lexeme =>
    rw [analyze, nameSteps, List.append_nil]
    rw [size_constant] at hout
    have hplace := h.elsewhere (a.aside_place (.constant c) (Nat.le_refl k) (Nat.lt_succ_self k)) hout
    dsimp only
    split
    · exact hplace.elsewhere (aside_queue _ _) hout
    · exact hplace
  | unary op mark operand =>
    rw [size_unary] at hout
    have htop : Outside k (k + 1) steps := hout.mono
    rw [analyze, nameSteps]
    have hplace := h.elsewhere (a.aside_place (.unary op) (Nat.le_refl k) (Nat.lt_succ_self k)) htop
    have hoperand := operand.reaches (k := k + 1) hplace (hout.mono)
    exact hoperand.elsewhere (aside_apply _ (operandVerdict_other _ _ _ _) (Nat.le_refl k) (Nat.lt_succ_self k))
      (htop.append_behind (operand.nameSteps_within _ _))
  | binary op left mark right =>
    rw [size_binary] at hout
    have htop : Outside (k + left.size) (k + left.size + 1) steps := hout.mono
    rw [analyze, nameSteps, ← List.append_assoc]
    have hplace := h.elsewhere (a.aside_place (.binary op) (Nat.le_refl (k + left.size)) (Nat.lt_succ_self _)) htop
    have hleft := left.reaches (k := k) hplace (hout.mono)
    have hwithin := left.nameSteps_within (block :: outer) k
    have hright := right.reaches (k := k + left.size + 1) hleft
      ((hout.mono).append_before hwithin)
    exact hright.elsewhere (aside_apply _ (binaryVerdict_other _ _ _ _ _))
      ((htop.append_before hwithin).append_behind (right.nameSteps_within _ _))
  | call callee paren args =>
    rw [size_call] at hout
    have hname : Outside k (k + 1) steps := hout.mono
    have htop : Outside (k + 1) (k + 2) steps := hout.mono
    rw [analyze, nameSteps, List.append_cons]
    have hplace := (h.elsewhere (a.aside_place .call (Nat.le_refl (k + 1)) (Nat.lt_succ_self _)) htop).elsewhere
      (aside_place _ .name (Nat.le_refl k) (Nat.lt_succ_self k)) hname
    have hcallee := hplace.refer callee hname
    have hwithin : Within k (k + 1) [.refer (block :: outer) callee ⟨k⟩] := Within.nil.cons (Nat.le_refl k) (Nat.lt_succ_self k)
    have hargs := Expr.reachesAll args (k := k + 2) hcallee
      ((hout.mono).append_before hwithin)
    exact hargs.elsewhere (aside_apply _ (callVerdict_other _ _ _ _))
      ((htop.append_before hwithin).append_behind (nameStepsAll_within args _ _))
  | index base bracket subscript =>
    rw [size_index] at hout
    have htop : Outside (k + base.size) (k + base.size + 1) steps := hout.mono
    rw [analyze, nameSteps, ← List.append_assoc]
    have hplace := h.elsewhere (a.aside_place .index (Nat.le_refl (k + base.size)) (Nat.lt_succ_self _)) htop
    have hbase := base.reaches (k := k) hplace (hout.mono)
    have hwithin := base.nameSteps_within (block :: outer) k
    have hsubscript := subscript.reaches (k := k + base.size + 1) hbase
      ((hout.mono).append_before hwithin)
    exact hsubscript.elsewhere (aside_apply _ (indexVerdict_other _ _ _ _))
      ((htop.append_before hwithin).append_behind (subscript.nameSteps_within _ _))
  | select object dot field =>
    rw [size_select] at hout
    have htop : Outside (k + object.size) (k + object.size + 2) steps := hout.mono
    rw [analyze, nameSteps]
    have hplace := h.elsewhere (a.aside_place .select (Nat.le_refl (k + object.size)) (Nat.lt_add_of_pos_right Nat.two_pos)) htop
    have hobject := object.reaches (k := k) hplace (hout.mono)
    have hout' := htop.append_before (object.nameSteps_within (block :: outer) k)
    have hfield := hobject.elsewhere (aside_place _ .field (Nat.le_succ _) (Nat.lt_succ_self _)) hout'
    exact (hfield.elsewhere (aside_decorate _ _ (Nat.le_succ _) (Nat.lt_succ_self _)) hout').elsewhere
      (aside_apply _ (selectVerdict_other _ _ _ _) (Nat.le_refl _) (Nat.lt_add_of_pos_right Nat.two_pos)) hout'
  | newStruct mark tag =>
    rw [analyze, nameSteps, List.append_nil]
    rw [size_newStruct] at hout
    have hk : k < k + 2 := Nat.lt_add_of_pos_right Nat.two_pos
    have hplace := (h.elsewhere (a.aside_place .newStruct (Nat.le_refl k) hk) hout).elsewhere
      (aside_place _ .typeName (Nat.le_succ k) (Nat.lt_succ_self _)) hout
    exact (hplace.elsewhere (aside_useStruct _ tag false (Nat.le_succ k) (Nat.lt_succ_self _)) hout).elsewhere
      (aside_decorate _ _ (Nat.le_refl k) hk) hout
  | newString mark count =>
    rw [size_newString] at hout
    have htop : Outside k (k + 1) steps := hout.mono
    rw [analyze, nameSteps]
    have hplace := h.elsewhere (a.aside_place .newString (Nat.le_refl k) (Nat.lt_succ_self k)) htop
    have hcount := count.reaches (k := k + 1) hplace (hout.mono)
    exact hcount.elsewhere (aside_apply _ (operandVerdict_other _ _ _ _) (Nat.le_refl k) (Nat.lt_succ_self k))
      (htop.append_behind (count.nameSteps_within _ _))
  | newArray element mark count =>
    rw [size_newArray] at hout
    have htop : Outside k (k + 2) steps := hout.mono
    have hk : k < k + 2 := Nat.lt_add_of_pos_right Nat.two_pos
    rw [analyze_newArray, nameSteps]
    have hplace := (h.elsewhere (a.aside_place .newArray (Nat.le_succ k) (Nat.lt_succ_self _)) htop).elsewhere
      (aside_place _ element.tag (Nat.le_refl k) hk) htop
    have hcount := count.reaches (k := k + 2) hplace (hout.mono)
    have hout' := htop.append_behind (count.nameSteps_within (block :: outer) (k + 2))
    have htype := hcount.elsewhere (aside_useTypeName _ element false (Nat.le_refl k) hk) hout'
    exact htype.elsewhere (aside_apply _ (newArrayVerdict_other _ _ _ _) (Nat.le_succ k) (Nat.lt_succ_self _)) hout'

theorem Expr.reachesAll (es : List Expr) {k : Nat} {steps : List NameStep} {a : Analysis}
    (h : Reaches start none block outer next steps a) (hout : Outside k (k + sizes es) steps) :
    Reaches start none block outer next (steps ++ nameStepsAll (block :: outer) k es) (analyzeAll k es a) := by
  match es with
  | [] =>
    rw [analyzeAll, nameStepsAll, List.append_nil]
    exact h
  | e :: es =>
    rw [sizes, ← Nat.add_assoc] at hout
    rw [analyzeAll, nameStepsAll, ← List.append_assoc]
    have he := e.reaches (k := k) h (hout.mono (Nat.le_refl _) (Nat.le_add_right _ _))
    exact Expr.reachesAll es he ((hout.mono (Nat.le_add_right _ _) (Nat.le_refl _)).append_before
      (e.nameSteps_within _ _) (Nat.le_refl _))

end

mutual

theorem Stmt.reaches (s : Stmt) {block next k : Nat} {outer : List Nat} {steps : List NameStep} {a : Analysis}
    (h : Reaches start none block outer next steps a) (hout : Outside k (k + s.size) steps) :
    Reaches start none block outer (next + s.blocks) (steps ++ s.nameSteps block outer next k) (s.analyze k a) := by
  cases s with
  | block brace body =>
    rw [size_block] at hout
    rw [analyze, nameSteps, blocks]
    have hblock : Aside k (k + 1) a.enterBlock.2 (a.enterBlock.2.setBlock ⟨k⟩ a.enterBlock.1) :=
      aside_setBlock _ _ (Nat.le_refl k) (Nat.lt_succ_self k)
    have henter := h.enterBlock.elsewhere hblock (hout.mono)
    have hbody := Stmt.reachesAll body (k := k + 1) henter (hout.mono)
    rw [Nat.add_comm _ 1, ← Nat.add_assoc]
    exact hbody.exitBlock
  | empty mark =>
    rw [size_empty] at hout
    rw [analyze, nameSteps, List.append_nil]
    exact h.elsewhere (a.aside_place _ (Nat.le_refl k) (Nat.lt_succ_self k)) hout
  | varDecl d equals init =>
    rw [size_varDecl] at hout
    have hd := d.two_le_size
    have htop : Outside (k + d.size) (k + d.size + 1) steps := hout.mono
    have hhead : Outside k (k + d.size) steps := hout.mono
    rw [analyze, nameSteps, ← List.append_assoc]
    have hplace := (h.elsewhere (a.aside_place .varDecl (Nat.le_refl (k + d.size)) (Nat.lt_succ_self _)) htop).elsewhere
      (d.aside_place _ .declName (Nat.le_refl k) (Nat.le_refl _)) hhead
    have hinit := init.reaches (k := k + d.size + 1) hplace (hout.mono)
    have hwithin := init.nameSteps_within (block :: outer) (k + d.size + 1)
    have hdefine := hinit.define { var := true, lvalue := true } rfl rfl
      (d.declaration_within (Nat.le_refl k) (Nat.le_refl _)) (hhead.append_behind hwithin (Nat.le_succ _)) (.inl rfl)
    rw [Tracks.prototype_define rfl] at hdefine
    have hname : Within k (k + d.size) [.declare (d.declared block k { var := true, lvalue := true })] :=
      Within.nil.cons (Nat.le_succ k) (Nat.add_lt_add_left hd k)
    have hout' := (htop.append_behind hwithin).append_before hname
    exact (hdefine.elsewhere (aside_queueGlobal _ _) hout').elsewhere
      (aside_apply _ (variableVerdict_other _ _ _ _ _)) hout'
  | whileLoop mark cond body =>
    rw [size_whileLoop] at hout
    have htop : Outside k (k + 1) steps := hout.mono
    rw [analyze, nameSteps, blocks, ← List.append_assoc]
    have hplace := h.elsewhere (a.aside_place .whileLoop (Nat.le_refl k) (Nat.lt_succ_self k)) htop
    have hcond := cond.reaches (k := k + 1) hplace (hout.mono)
    have hwithin := cond.nameSteps_within (block :: outer) (k + 1)
    have hbody := body.reaches (k := k + 1 + cond.size) hcond
      ((hout.mono).append_before hwithin)
    exact hbody.elsewhere (aside_apply _ (operandVerdict_other _ _ _ _) (Nat.le_refl k) (Nat.lt_succ_self k))
      ((htop.append_behind hwithin).append_behind (body.nameSteps_within _ _ _ _))
  | ifThen mark cond yes =>
    rw [size_ifThen] at hout
    have htop : Outside k (k + 1) steps := hout.mono
    rw [analyze, nameSteps, blocks, ← List.append_assoc]
    have hplace := h.elsewhere (a.aside_place .ifThen (Nat.le_refl k) (Nat.lt_succ_self k)) htop
    have hcond := cond.reaches (k := k + 1) hplace (hout.mono)
    have hwithin := cond.nameSteps_within (block :: outer) (k + 1)
    have hyes := yes.reaches (k := k + 1 + cond.size) hcond
      ((hout.mono).append_before hwithin)
    exact hyes.elsewhere (aside_apply _ (operandVerdict_other _ _ _ _) (Nat.le_refl k) (Nat.lt_succ_self k))
      ((htop.append_behind hwithin).append_behind (yes.nameSteps_within _ _ _ _))
  | ifElse mark cond yes no =>
    rw [size_ifElse] at hout
    have htop : Outside k (k + 1) steps := hout.mono
    rw [analyze, nameSteps, blocks, ← List.append_assoc, ← List.append_assoc, ← Nat.add_assoc]
    have hplace := h.elsewhere (a.aside_place .ifElse (Nat.le_refl k) (Nat.lt_succ_self k)) htop
    have hcond := cond.reaches (k := k + 1) hplace (hout.mono)
    have hwithin := cond.nameSteps_within (block :: outer) (k + 1)
    have hyes := yes.reaches (k := k + 1 + cond.size) hcond
      ((hout.mono).append_before hwithin)
    have hwithin' := yes.nameSteps_within block outer next (k + 1 + cond.size)
    have hno := no.reaches (k := k + 1 + cond.size + yes.size) hyes
      (((hout.mono).append_before hwithin).append_before hwithin')
    exact hno.elsewhere (aside_apply _ (operandVerdict_other _ _ _ _) (Nat.le_refl k) (Nat.lt_succ_self k))
      (((htop.append_behind hwithin).append_behind hwithin').append_behind
        (no.nameSteps_within _ _ _ _) (by omega))
  | returnValue mark value =>
    rw [size_returnValue] at hout
    rw [analyze, nameSteps]
    have hplace := h.elsewhere (a.aside_place .returnValue (Nat.le_refl k) (Nat.lt_succ_self k))
      (hout.mono)
    exact value.reaches hplace (hout.mono)
  | returnVoid mark =>
    rw [size_returnVoid] at hout
    rw [analyze, nameSteps, List.append_nil]
    exact h.elsewhere (a.aside_place _ (Nat.le_refl k) (Nat.lt_succ_self k)) hout
  | expr e =>
    rw [size_expr] at hout
    rw [analyze, nameSteps]
    exact e.reaches h hout

theorem Stmt.reachesAll (ss : List Stmt) {block next k : Nat} {outer : List Nat} {steps : List NameStep} {a : Analysis}
    (h : Reaches start none block outer next steps a) (hout : Outside k (k + sizes ss) steps) :
    Reaches start none block outer (next + blocksAll ss) (steps ++ nameStepsAll block outer next k ss) (analyzeAll k ss a) := by
  match ss with
  | [] =>
    rw [analyzeAll, nameStepsAll, List.append_nil]
    exact h
  | s :: ss =>
    rw [sizes, ← Nat.add_assoc] at hout
    rw [analyzeAll, nameStepsAll, blocksAll, ← List.append_assoc, ← Nat.add_assoc]
    have hs := s.reaches (k := k) h (hout.mono (Nat.le_refl _) (Nat.le_add_right _ _))
    exact Stmt.reachesAll ss hs ((hout.mono (Nat.le_add_right _ _) (Nat.le_refl _)).append_before
      (s.nameSteps_within _ _ _ _) (Nat.le_refl _))

end

theorem Decl.exists_of_mem_paramSteps {block : Nat} {ds : List Decl} {s : NameStep} (h : s ∈ paramSteps block k ds) :
    ∃ d, s = .declare d := by
  induction ds generalizing k with
  | nil => cases h
  | cons d ds ih =>
    rcases List.mem_cons.mp h with rfl | h
    · exact ⟨_, rfl⟩
    · exact ih h

theorem Reaches.placeHead
    (h : Reaches start none block outer next (steps ++ head) a) (hout : Outside k (k + d.size + 1 + Decl.sizes params) steps)
    (hhead : ∀ s ∈ head, ∃ d, s = .declare d) :
    Reaches start none block outer next (steps ++ head) (Item.placeHead k d params a) := by
  have hplace := Item.aside_placeHead a d params (Nat.le_refl k) (Nat.le_refl _)
  refine h.aside hplace fun s hs => ?_
  rcases List.mem_append.mp hs with hs | hs
  · exact hplace.toEffect.spared hout s hs
  · obtain ⟨e, rfl⟩ := hhead s hs
    exact fun hsymbol => Item.decoration_placeHead_of_symbol hsymbol k d params

theorem Reaches.enterBody
    (h : Reaches start none block outer next (steps ++ head) a) (hout : Outside k (k + d.size + 1 + Decl.sizes params + 1) steps)
    (hhead : ∀ s ∈ head, ∃ d, s = .declare d) (hwithin : Within k (k + d.size + 1 + Decl.sizes params) head) (n : NodeId)
    (body : List Stmt) : Reaches start none block outer next (steps ++ head) (Item.enterBody k n d params body a) := by
  have hall : Outside 0 0 (steps ++ head) := fun s _ => .inr (Nat.zero_le _)
  have hblank : Aside 0 0 a (if body.any Stmt.isVarDecl then a.setSymbols a.symbols.recordBlank else a) := by
    split
    · exact aside_setSymbols a (fun hs => hs.recordBlank) rfl rfl rfl (fun _ _ => rfl) fun _ _ => rfl
    · exact .refl _ _ _
  unfold Item.enterBody
  dsimp only
  generalize (if body.any Stmt.isVarDecl then a.setSymbols a.symbols.recordBlank else a) = b at hblank
  have hqueue := (h.elsewhere hblank hall).elsewhere
    (aside_queue b { b.queues with functions := b.queues.functions.push n }) hall
  have hplace := hqueue.placeHead (d := d) (hout.mono (Nat.le_refl k) (Nat.le_succ (k + d.size + 1 + Decl.sizes params))) hhead
  have hbody : Outside (k + d.size + 1 + Decl.sizes params) (k + d.size + 1 + Decl.sizes params + 1) (steps ++ head) :=
    (hout.mono).append_before hwithin
  exact hplace.elsewhere (aside_setBlock _ _ (Nat.le_refl _) (Nat.lt_succ_self _)) hbody

def Item.isStruct : Item → Bool
  | .struct .. => true
  | _ => false

section Item

variable {k : Nat} (h : Reaches start none globalBlock [] next steps a)
variable {params : List Decl} {d : Decl}

include h

theorem Item.reaches_function {paren brace : Lexeme} {body : List Stmt}
    (hout : Outside k (k + (d.size + 1 + Decl.sizes params + 1 + Stmt.sizes body + 1)) steps) :
    Reaches start none globalBlock [] (next + (Stmt.blocksAll body + 1))
      (steps ++ (Item.function d paren params brace body).nameSteps next k)
      ((Item.function d paren params brace body).analyze k a) := by
  have hd := d.two_le_size
  rw [analyze_function, nameSteps]
  generalize hm : k + d.size + 1 + Decl.sizes params + 1 = m
  have htop : Outside (m + Stmt.sizes body) (m + Stmt.sizes body + 1) steps := hout.mono
  have hplace := h.elsewhere (a.aside_place .function (Nat.le_refl (m + Stmt.sizes body)) (Nat.lt_succ_self _)) htop
  have hopen := hplace.openFunction d params { function := true } rfl rfl
    (hout.mono (Nat.le_refl k) (by omega))
  have hhead : ∀ s ∈ (.declare (d.declared globalBlock k { function := true }) ::
      Decl.paramSteps next (k + d.size + 1) params : List NameStep), ∃ d, s = .declare d :=
    List.forall_mem_cons.mpr ⟨⟨_, rfl⟩, fun s => Decl.exists_of_mem_paramSteps⟩
  have hwithin : Within k (k + d.size + 1 + Decl.sizes params) (.declare (d.declared globalBlock k { function := true }) ::
      Decl.paramSteps next (k + d.size + 1) params) :=
    ((Decl.paramSteps_within params next (k + d.size + 1)).mono).cons (Nat.le_succ k)
      (by show k + 1 < _; omega)
  have henter := hopen.enterBody (hout.mono (Nat.le_refl k) (by omega)) hhead hwithin ⟨m + Stmt.sizes body⟩ body
  have hbody := Stmt.reachesAll body (k := m) henter ((hout.mono).append_before hwithin)
  rw [Nat.add_comm _ 1, ← Nat.add_assoc, ← List.cons_append, ← List.append_assoc]
  exact hbody.exitBlock.elsewhere (aside_apply _ (functionVerdict_other _ _ _ _))
    ((htop.append_before hwithin).append_before (Stmt.nameStepsAll_within body _ _ _ m))

theorem Item.reaches_prototype {paren semicolon : Lexeme}
    (hout : Outside k (k + (d.size + 1 + Decl.sizes params + 1 + 1)) steps) :
    Reaches start none globalBlock [] (next + 1) (steps ++ (Item.prototype d paren params semicolon).nameSteps next k)
      ((Item.prototype d paren params semicolon).analyze k a) := by
  rw [analyze, nameSteps]
  have htop : Outside (k + d.size + 1 + Decl.sizes params + 1) (k + d.size + 1 + Decl.sizes params + 1 + 1) steps :=
    hout.mono
  have hplace := h.elsewhere (a.aside_place .prototype (Nat.le_refl (k + d.size + 1 + Decl.sizes params + 1)) (Nat.lt_succ_self _)) htop
  have hopen := hplace.openFunction d params { function := true, prototype := true } rfl rfl
    (hout.mono (Nat.le_refl k) (by omega))
  have hhead : ∀ s ∈ (.declare (d.declared globalBlock k { function := true, prototype := true }) ::
      Decl.paramSteps next (k + d.size + 1) params : List NameStep), ∃ d, s = .declare d :=
    List.forall_mem_cons.mpr ⟨⟨_, rfl⟩, fun s => Decl.exists_of_mem_paramSteps⟩
  exact (hopen.placeHead (hout.mono (Nat.le_refl k) (by omega)) hhead).exitBlock

theorem Item.reaches (i : Item) (hi : i.isStruct = false) (hout : Outside k (k + i.size) steps) :
    Reaches start none globalBlock [] (next + i.blocks) (steps ++ i.nameSteps next k) (i.analyze k a) := by
  cases i with
  | struct mark tag fields => cases hi
  | function d paren params brace body =>
    rw [size_function] at hout
    exact reaches_function h hout
  | prototype d paren params semicolon =>
    rw [size_prototype] at hout
    exact reaches_prototype h hout
  | stmt s =>
    rw [size_stmt] at hout
    rw [analyze, nameSteps, blocks]
    exact s.reaches h hout

end Item

end OcCompiler
