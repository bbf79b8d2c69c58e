import OcCompiler.Proofs.Labels
import OcCompiler.Proofs.Resolution
import OcCompiler.Proofs.VoidCalls
import Mathlib.Algebra.Ring.Nat

/-! Operands that are missing from oil. A call of a void function leaves no operand, so where its value is used the oil has
    a gap. There are exactly as many gaps as there are void calls that are not statements of their own. -/

namespace OcCompiler

open Oil NameStep

variable {d : NameDecl} {ps : List Position} {ds : List NameDecl} {items : List Item} {vs : List String} {c : Context} {block k next : Nat}

namespace Oil

def Computation.operands : Computation → List Operand
  | .binary _ _ left right => [left, right]
  | .unary _ _ operand => [operand]
  | .allocate count _ => [count]
  | .call callee args => callee :: args

def Place.operands : Place → List Operand
  | .element base index => [base, index]
  | .field base _ _ => [base]

/-- The operands whose texts are part of the text of an instruction. -/
def Instruction.operands : Instruction → List Operand
  | .label _ | .jump _ | .returnVoid => []
  | .jumpUnless condition _ => [condition]
  | .assign target value => [target, value]
  | .declare _ v value => [.var v, value]
  | .compute _ r value => .register r :: value.operands
  | .address _ r place => .register r :: place.operands
  | .perform callee args => callee :: args
  | .returnValue value => [value]

def Operand.gap (o : Operand) : Nat := if o.text = "" then 1 else 0

def gaps (operands : List Operand) : Nat := (operands.map Operand.gap).sum

/-- The number of operands in some code that have no text. -/
def gapsIn (code : List Instruction) : Nat := (code.map fun i => gaps i.operands).sum

@[simp] theorem gaps_nil : gaps [] = 0 := rfl

@[simp] theorem gaps_cons (o : Operand) (os : List Operand) : gaps (o :: os) = o.gap + gaps os := by simp [gaps]

@[simp] theorem gapsIn_nil : gapsIn [] = 0 := rfl

@[simp] theorem gapsIn_cons (i : Instruction) (code : List Instruction) : gapsIn (i :: code) = gaps i.operands + gapsIn code := by
  simp [gapsIn]

@[simp] theorem gapsIn_append (code code' : List Instruction) : gapsIn (code ++ code') = gapsIn code + gapsIn code' := by
  simp [gapsIn]

theorem Operand.gap_eq_zero_iff {o : Operand} : o.gap = 0 ↔ o.text ≠ "" := by
  unfold gap
  split <;> simp_all

theorem gaps_eq_zero_iff {os : List Operand} : gaps os = 0 ↔ ∀ o ∈ os, o.text ≠ "" := by
  induction os with
  | nil => simp
  | cons o os ih => simp [ih, Operand.gap_eq_zero_iff]

theorem gapsIn_eq_zero_iff {code : List Instruction} : gapsIn code = 0 ↔ ∀ i ∈ code, ∀ o ∈ i.operands, o.text ≠ "" := by
  induction code with
  | nil => simp
  | cons i code ih => simp [ih, gaps_eq_zero_iff]

theorem Register.text_ne_empty (r : Register) : r.text ≠ "" := by
  obtain ⟨kind, number⟩ := r
  cases kind <;> simp [Register.text, RegisterKind.letter]

theorem Variable.text_ne_empty (v : Variable) : v.text ≠ "" := by
  unfold Variable.text globalName
  split <;> simp

@[simp] theorem Operand.gap_var (v : Variable) : (Operand.var v).gap = 0 := gap_eq_zero_iff.mpr v.text_ne_empty

@[simp] theorem Operand.gap_register (r : Register) : (Operand.register r).gap = 0 := gap_eq_zero_iff.mpr r.text_ne_empty

@[simp] theorem Operand.gap_pointee (r : Register) : (Operand.pointee r).gap = 0 := gap_eq_zero_iff.mpr (by simp [text])

@[simp] theorem Operand.gap_nothing : Operand.nothing.gap = 1 := rfl

theorem Context.decimal_ne_empty (text : String) : decimal text ≠ "" := by
  unfold decimal
  split
  · simp
  · rename_i h
    simpa using h

theorem Context.gap_constant (c : Context) (q : Constant) {text : String} (h : text ≠ "") : (c.constant q text).gap = 0 := by
  refine Operand.gap_eq_zero_iff.mpr ?_
  unfold constant
  split
  · exact decimal_ne_empty text
  · exact h
  · split
    · exact Register.text_ne_empty _
    · exact h
  · simp [Operand.text]
  · simp [Operand.text]
  · simp [Operand.text]

end Oil

/-- The node of a name says correctly whether the name is that of a void function. -/
def Analysis.Marks (a : Analysis) (vs : List String) (p : Lexeme × NodeId) : Prop :=
  ∀ τ, a.NamesFunction p.2 τ → (τ.isVoid = true ↔ p.1.text ∈ vs)

namespace Expr

variable {vs : List String}

theorem mem_callsOf_of_isCallOf {e : Expr} (h : e.isCallOf vs = true) (p : Position) : p ∈ e.callsOf vs p := by
  cases e with
  | call callee paren args =>
    rw [isCallOf] at h
    rw [callsOf, if_pos h]
    exact List.mem_append_left _ List.mem_cons_self
  | _ => cases h

variable {c : Context} {blocks : List Nat}

mutual

theorem gaps_emitted (e : Expr) {k : Nat} (next : Nat) {p : Position} (hs : e.Settled c.analysis k)
    (hm : ∀ x ∈ references (e.nameSteps blocks k), c.analysis.Marks vs x)
    (ht : ∀ t ∈ e.tokens, t.kind ≠ .endOfFile → t.text ≠ "") (hp : .target ∉ e.callsOf vs p) :
    (e.emitted c k next).value.gap = (if e.isCallOf vs then 1 else 0) ∧
      gapsIn (e.emitted c k next).code + (e.emitted c k next).value.gap = (e.callsOf vs p).length := by
  cases e with
  | name x => simp [emitted, callsOf, isCallOf]
  | constant q lexeme =>
    have hkind : q.kind ≠ .endOfFile := by rcases q with l | b | _ <;> [skip; cases b; skip] <;> nofun
    have hconstant : (c.constant q lexeme.text).gap = 0 := c.gap_constant q (ht ⟨q.kind, lexeme⟩ (by simp [tokens]) hkind)
    simp [emitted, callsOf, isCallOf, hconstant]
  | newStruct mark tag =>
    have hone : (Operand.constant (.literal .int) "1").gap = 0 := rfl
    simp [emitted, callsOf, isCallOf, Instruction.operands, Computation.operands, hone]
  | unary _ _ e | select e | newString _ e | newArray _ _ e =>
    simp only [Settled, nameSteps, callsOf] at hs hm hp
    obtain ⟨-, hcount⟩ := gaps_emitted e next hs.1 hm (fun t h => ht t (by simp [tokens, h])) hp
    simp [emitted, callsOf, isCallOf, Instruction.operands, Computation.operands, Place.operands, ← hcount]
  | binary op left mark right =>
    simp only [Settled, nameSteps, references_append, tokens, callsOf, List.mem_append, List.mem_cons, not_or,
      or_imp, forall_and] at hs hm ht hp
    obtain ⟨hplace, hleft⟩ := gaps_emitted left next hs.1 hm.1 ht.1 hp.1
    obtain ⟨-, hright⟩ := gaps_emitted right (left.emitted c k next).next hs.2.1 hm.2 ht.2.2 hp.2
    rw [emitted, callsOf, List.length_append, ← hleft, ← hright]
    split
    · rename_i hop
      subst hop
      -- The target is the operand of the assignment as well, but it is no gap.
      have hnot : left.isCallOf vs = false := Bool.eq_false_iff.mpr fun hcall => hp.1 (mem_callsOf_of_isCallOf hcall _)
      rw [hnot] at hplace
      exact ⟨hplace, by simp [Instruction.operands, hplace]⟩
    · simp [isCallOf, Instruction.operands, Computation.operands]
      omega
  | call callee paren args =>
    simp only [Settled, tokens, callsOf, List.forall_mem_cons, List.mem_append, not_or] at hs ht hp
    obtain ⟨-, hargs, τ, hτ, hfunction⟩ := hs
    have hcallee : τ.isVoid = true ↔ callee.text ∈ vs := hm ⟨callee, ⟨k⟩⟩ (by simp [nameSteps, references, reference?]) τ hfunction
    have hm' : ∀ x ∈ references (nameStepsAll blocks (k + 2) args), c.analysis.Marks vs x :=
      fun x hx => hm x (by rw [nameSteps]; exact List.mem_cons_of_mem _ hx)
    rw [emitted, callsOf, List.length_append, ← gaps_emittedAll args next hargs hm' ht.2.2 hp.2, Context.found_eq hτ]
    split
    · rename_i hvoid
      simp [isCallOf, Instruction.operands, hcallee.mp hvoid]
      omega
    · rename_i hvoid
      simp [isCallOf, Instruction.operands, Computation.operands, mt hcallee.mpr hvoid]
  | index base bracket subscript =>
    simp only [Settled, nameSteps, references_append, tokens, callsOf, List.mem_append, List.mem_cons, not_or,
      or_imp, forall_and] at hs hm ht hp
    obtain ⟨-, hbase⟩ := gaps_emitted base next hs.1 hm.1 ht.1 hp.1
    obtain ⟨-, hsubscript⟩ := gaps_emitted subscript (base.emitted c k next).next hs.2.1 hm.2 ht.2.2 hp.2
    simp [emitted, callsOf, isCallOf, Instruction.operands, Place.operands, ← hbase, ← hsubscript]
    omega

theorem gaps_emittedAll (es : List Expr) {k : Nat} (next : Nat) (hs : SettledAll c.analysis k es)
    (hm : ∀ x ∈ references (nameStepsAll blocks k es), c.analysis.Marks vs x)
    (ht : ∀ t ∈ tokensAll es, t.kind ≠ .endOfFile → t.text ≠ "") (hp : .target ∉ callsOfAll vs es) :
    gapsIn (emittedAll c k next es).code + gaps (emittedAll c k next es).value = (callsOfAll vs es).length := by
  match es with
  | [] => rfl
  | e :: es =>
    simp only [SettledAll, nameStepsAll, references_append, tokensAll, callsOfAll, List.mem_append, not_or, or_imp,
      forall_and] at hs hm ht hp
    obtain ⟨-, he⟩ := gaps_emitted e next hs.1 hm.1 ht.1 hp.1
    have hes := gaps_emittedAll es (e.emitted c k next).next hs.2 hm.2 ht.2 hp.2
    simp [emittedAll, callsOfAll, ← he, ← hes]
    omega

end

mutual

theorem statement_notMem_callsOf (e : Expr) {p : Position} (hp : p ≠ .statement) : .statement ∉ e.callsOf vs p := by
  cases e with
  | name | constant | newStruct =>
    rw [callsOf]
    exact List.not_mem_nil
  | unary op mark e | select e dot field | newString mark e | newArray element mark e =>
    rw [callsOf]
    exact statement_notMem_callsOf e nofun
  | binary op left mark right =>
    have hleft : Position.left op ≠ .statement := by cases op <;> nofun
    have hright : Position.right op ≠ .statement := by cases op <;> nofun
    rw [callsOf, List.mem_append, not_or]
    exact ⟨statement_notMem_callsOf left hleft, statement_notMem_callsOf right hright⟩
  | call callee paren args =>
    rw [callsOf, List.mem_append, not_or]
    refine ⟨fun hmem => ?_, statement_notMem_callsOfAll args⟩
    split at hmem
    · exact hp (List.mem_singleton.mp hmem).symm
    · cases hmem
  | index base bracket subscript =>
    rw [callsOf, List.mem_append, not_or]
    exact ⟨statement_notMem_callsOf base nofun, statement_notMem_callsOf subscript nofun⟩

theorem statement_notMem_callsOfAll (es : List Expr) : .statement ∉ callsOfAll vs es := by
  match es with
  | [] =>
    rw [callsOfAll]
    exact List.not_mem_nil
  | e :: es =>
    rw [callsOfAll, List.mem_append, not_or]
    exact ⟨statement_notMem_callsOf e nofun, statement_notMem_callsOfAll es⟩

end

end Expr

def Position.used (ps : List Position) : Nat := ps.countP (· ≠ .statement)

@[simp] theorem Position.used_append (ps qs : List Position) : used (ps ++ qs) = used ps + used qs := List.countP_append

theorem Position.used_eq_length (h : .statement ∉ ps) : used ps = ps.length := by
  refine List.countP_eq_length.mpr fun p hp => ?_
  simpa using ne_of_mem_of_not_mem hp h

theorem Position.used_eq_zero_iff : used ps = 0 ↔ ∀ p ∈ ps, p = .statement := by
  simp [used, List.countP_eq_zero]

section Statements

variable {vs : List String} {c : Context}

theorem Expr.used_callsOf_statement (e : Expr) :
    Position.used (e.callsOf vs .statement) + (if e.isCallOf vs then 1 else 0) = (e.callsOf vs .statement).length := by
  -- Only a call can be a statement itself; in other expressions the position makes no difference.
  have hother (h : e.callsOf vs .statement = e.callsOf vs .operand) (hcall : e.isCallOf vs = false) :
      Position.used (e.callsOf vs .statement) + (if e.isCallOf vs then 1 else 0) = (e.callsOf vs .statement).length := by
    have hnot : Position.operand ≠ .statement := by decide
    rw [h, Position.used_eq_length (e.statement_notMem_callsOf hnot), hcall]
    rfl
  cases e with
  | call callee paren args =>
    rw [callsOf, isCallOf, Position.used_append, Position.used_eq_length (statement_notMem_callsOfAll args), List.length_append]
    split <;> simp [Position.used, Nat.add_comm]
  | name | constant | newStruct | unary | binary | index | select | newString | newArray =>
    exact hother (by rw [callsOf, callsOf]) rfl

mutual

theorem Stmt.gaps_emitted (s : Stmt) {k : Nat} (next : Nat) {number block : Nat} {outside : Bool} {outer : List Nat}
    (hs : s.Settled c.analysis k) (hm : ∀ x ∈ references (s.nameSteps block outer number k), c.analysis.Marks vs x)
    (ht : ∀ t ∈ s.tokens, t.kind ≠ .endOfFile → t.text ≠ "") (hp : .target ∉ s.callsOf vs outside) :
    gapsIn (s.emitted c k next).code = Position.used (s.callsOf vs outside) := by
  have hused (e : Expr) {p : Position} (hp : p ≠ .statement) : Position.used (e.callsOf vs p) = (e.callsOf vs p).length :=
    Position.used_eq_length (e.statement_notMem_callsOf hp)
  cases s with
    simp only [Settled, nameSteps, references_append, tokens, callsOf, List.mem_append, List.mem_cons, not_or,
      or_imp, forall_and] at hs hm ht hp
  | block brace body => exact Stmt.gaps_emittedAll body next hs hm ht.2 hp
  | empty | returnVoid => rfl
  | varDecl d equals init =>
    obtain ⟨-, hcount⟩ := init.gaps_emitted next hs.2 hm.1 ht.2.2 hp
    rw [emitted, callsOf, hused init (by decide), ← hcount]
    split <;> simp [Instruction.operands]
  | whileLoop mark cond body | ifThen mark cond body =>
    obtain ⟨-, hcond⟩ := cond.gaps_emitted next hs.1 hm.1 ht.2.1 hp.1
    have hbody := Stmt.gaps_emitted body (cond.emitted c (k + 1) next).next hs.2 hm.2 ht.2.2 hp.2
    rw [callsOf, Position.used_append, hused cond (by decide), ← hcond, ← hbody]
    simp [emitted, Instruction.operands, Nat.add_assoc]
  | ifElse mark cond yes no =>
    obtain ⟨-, hcond⟩ := cond.gaps_emitted next hs.1 hm.1 ht.2.1 hp.1
    have hyes := Stmt.gaps_emitted yes (cond.emitted c (k + 1) next).next hs.2.1 hm.2.1 ht.2.2.1 hp.2.1
    have hno := Stmt.gaps_emitted no (yes.emitted c (k + 1 + cond.size) (cond.emitted c (k + 1) next).next).next hs.2.2 hm.2.2 ht.2.2.2 hp.2.2
    rw [callsOf, Position.used_append, Position.used_append, hused cond (by decide), ← hcond, ← hyes, ← hno]
    simp [emitted, Instruction.operands, Nat.add_assoc]
  | returnValue mark value =>
    obtain ⟨-, hcount⟩ := value.gaps_emitted next hs hm ht.2 hp
    have hnot : Position.returned outside ≠ .statement := nofun
    rw [callsOf, hused value hnot, ← hcount]
    simp [emitted, Instruction.operands]
  | expr e =>
    obtain ⟨hvalue, hcount⟩ := e.gaps_emitted next hs hm ht hp
    rw [← e.used_callsOf_statement, hvalue] at hcount
    exact Nat.add_right_cancel hcount

theorem Stmt.gaps_emittedAll (ss : List Stmt) {k : Nat} (next : Nat) {number block : Nat} {outside : Bool}
    {outer : List Nat} (hs : SettledAll c.analysis k ss)
    (hm : ∀ x ∈ references (nameStepsAll block outer number k ss), c.analysis.Marks vs x)
    (ht : ∀ t ∈ tokensAll ss, t.kind ≠ .endOfFile → t.text ≠ "") (hp : .target ∉ callsOfAll vs outside ss) :
    gapsIn (emittedAll c k next ss).code = Position.used (callsOfAll vs outside ss) := by
  match ss with
  | [] => rfl
  | s :: ss =>
    simp only [SettledAll, nameStepsAll, references_append, tokensAll, callsOfAll, List.mem_append, not_or, or_imp,
      forall_and] at hs hm ht hp
    rw [emittedAll, callsOfAll, Position.used_append, ← Stmt.gaps_emitted s next hs.1 hm.1 ht.1 hp.1,
      ← Stmt.gaps_emittedAll ss _ hs.2 hm.2 ht.2 hp.2, gapsIn_append]

end

end Statements

mutual

theorem Stmt.declared_nameSteps (s : Stmt) {block next k : Nat} {outer : List Nat} :
    ∀ d ∈ NameStep.declared (s.nameSteps block outer next k), d.attrs.roles.function = false := by
  cases s with
  | block brace body =>
    rw [nameSteps]
    exact Stmt.declared_nameStepsAll body
  | empty | returnVoid =>
    rw [nameSteps]
    exact List.forall_mem_nil _
  | varDecl d equals init =>
    rw [nameSteps, declared_append, Expr.declared_nameSteps]
    exact List.forall_mem_singleton.mpr rfl
  | whileLoop mark cond body | ifThen mark cond body =>
    rw [nameSteps, declared_append, Expr.declared_nameSteps]
    exact Stmt.declared_nameSteps body
  | ifElse mark cond yes no =>
    rw [nameSteps, declared_append, declared_append, Expr.declared_nameSteps, List.nil_append]
    exact List.forall_mem_append.mpr ⟨Stmt.declared_nameSteps yes, Stmt.declared_nameSteps no⟩
  | returnValue mark value | expr e =>
    rw [nameSteps, Expr.declared_nameSteps]
    exact List.forall_mem_nil _

theorem Stmt.declared_nameStepsAll (ss : List Stmt) {block next k : Nat} {outer : List Nat} :
    ∀ d ∈ NameStep.declared (nameStepsAll block outer next k ss), d.attrs.roles.function = false := by
  match ss with
  | [] => exact List.forall_mem_nil _
  | s :: ss =>
    rw [nameStepsAll, declared_append]
    exact List.forall_mem_append.mpr ⟨Stmt.declared_nameSteps s, Stmt.declared_nameStepsAll ss⟩

end

theorem Decl.declared_paramSteps {ds : List Decl} :
    ∀ d ∈ NameStep.declared (paramSteps block k ds), d.attrs.roles.function = false := by
  induction ds generalizing k with
  | nil => exact List.forall_mem_nil _
  | cons d ds ih => exact List.forall_mem_cons.mpr ⟨rfl, ih⟩

theorem Item.declared_nameSteps {i : Item} (h : d ∈ NameStep.declared (i.nameSteps next k))
    (hfunction : d.attrs.roles.function = true) :
    ∃ decl, i.function? = some decl ∧
      ∃ announced, d = decl.declared globalBlock k { function := true, prototype := announced } := by
  cases i with
  | struct => cases h
  | function decl paren params brace body =>
    rcases List.mem_cons.mp h with rfl | h
    · exact ⟨decl, rfl, false, rfl⟩
    · rw [List.filterMap_append] at h
      rcases List.mem_append.mp h with h | h
      · cases (Decl.declared_paramSteps d h).symm.trans hfunction
      · cases (Stmt.declared_nameStepsAll body d h).symm.trans hfunction
  | prototype decl paren params semicolon =>
    rcases List.mem_cons.mp h with rfl | h
    · exact ⟨decl, rfl, true, rfl⟩
    · cases (Decl.declared_paramSteps d h).symm.trans hfunction
  | stmt s => cases (s.declared_nameSteps d h).symm.trans hfunction

theorem Item.declared_nameStepsAll {is : List Item}
    (h : d ∈ NameStep.declared (nameStepsAll next k is)) (hfunction : d.attrs.roles.function = true) :
    ∃ decl ∈ Program.functions is, ∃ announced j,
      d = decl.declared globalBlock j { function := true, prototype := announced } := by
  induction is generalizing next k with
  | nil => cases h
  | cons i is ih =>
    rw [nameStepsAll, declared_append] at h
    rcases List.mem_append.mp h with h | h
    · obtain ⟨decl, hi, announced, hd⟩ := declared_nameSteps h hfunction
      exact ⟨decl, List.mem_filterMap.mpr ⟨i, List.mem_cons_self, hi⟩, announced, k, hd⟩
    · obtain ⟨decl, hmem, hd⟩ := ih h
      obtain ⟨j, hj, hi⟩ := List.mem_filterMap.mp hmem
      exact ⟨decl, List.mem_filterMap.mpr ⟨j, List.mem_cons_of_mem _ hj, hi⟩, hd⟩

theorem NameDecl.function_attrsAfter :
    (d.attrsAfter ds).roles.function = d.attrs.roles.function := by
  unfold attrsAfter
  split <;> rfl

theorem Decl.attrsAfter_declared {d : Decl} {announced : Bool} :
    ∃ announced', (d.declared block k { function := true, prototype := announced }).attrsAfter ds =
      .typed d.type { function := true, prototype := announced' } := by
  unfold NameDecl.attrsAfter
  split
  · exact ⟨false, rfl⟩
  · exact ⟨announced, rfl⟩

/-- A node that counts as a function's name is that of a function of the program, has the type of what this gives back,
    and belongs to the global block. -/
theorem Program.function_of_mem_references {log : Log} {x : Lexeme} {n : NodeId}
    (h : (x, n) ∈ references (nameSteps items)) (hfunction : ((analyze items log).attrs n).roles.function = true) :
    ∃ decl ∈ functions items, decl.name.text = x.text ∧ ((analyze items log).decoration n).block = globalBlock ∧
      (analyze items log).NamesFunction n decl.type := by
  obtain ⟨step, hstep, href⟩ := List.mem_filterMap.mp h
  cases step with
  | declare => cases href
  | refer blocks y m =>
    cases href
    obtain ⟨earlier, later, hsteps⟩ := List.append_of_mem hstep
    obtain ⟨next, htracks⟩ := tracks items log
    have hresolved := htracks.resolved _ _ _ _ _ hsteps
    unfold Analysis.Resolves at hresolved
    unfold Analysis.NamesFunction
    rw [Analysis.attrs] at hfunction ⊢
    cases hbinding : NameDecl.binding (declared earlier) blocks x.text with
    | none =>
      rw [hbinding] at hresolved
      rw [show (analyze items log).decoration n = _ from hresolved] at hfunction
      cases hfunction
    | some d =>
      rw [hbinding] at hresolved
      obtain ⟨id, hdecor, -⟩ := hresolved
      rw [hdecor] at hfunction ⊢
      have hmem : d ∈ declared (nameSteps items) := by
        rw [hsteps, declared_append]
        exact List.mem_append_left _ (NameDecl.binding_mem hbinding)
      obtain ⟨decl, hdecl, announced, k, rfl⟩ :=
        Item.declared_nameStepsAll hmem (NameDecl.function_attrsAfter.symm.trans hfunction)
      exact ⟨decl, hdecl, NameDecl.text_of_binding hbinding, rfl, decl.attrsAfter_declared⟩

theorem Program.marks_of_wellFormed (h : WellFormed items) (log : Log) :
    ∀ p ∈ references (nameSteps items), (analyze items log).Marks (voidNames items) p := by
  rintro ⟨x, n⟩ hp τ ⟨announced, hattrs⟩
  obtain ⟨decl, hdecl, hname, -, announced', hattrs'⟩ := function_of_mem_references hp (by rw [hattrs]; rfl)
  obtain rfl : τ = decl.type := Option.some.inj (congrArg Attributes.type (hattrs.symm.trans hattrs'))
  rw [← hname]
  exact h.isVoid_iff hdecl

namespace Item

theorem used_callsOf_placed (vs : List String) (is : List Item) (k : Nat) :
    Position.used (is.flatMap (callsOf vs)) =
      (((placed k is).filter (·.2.isFunction)).map fun p => Position.used (p.2.callsOf vs)).sum +
        ((entry k is).map fun p => Position.used (p.2.callsOf vs true)).sum := by
  induction is generalizing k with
  | nil => rfl
  | cons i is ih =>
    have hrest := ih (k + i.size)
    cases i with
    | struct | prototype => simpa [entry, placed, callsOf, isFunction, stmt?, Position.used] using hrest
    | function d paren params brace body =>
      simp [entry, placed, callsOf, isFunction, stmt?, Nat.add_assoc] at hrest ⊢
      exact hrest
    | stmt s =>
      simp [entry, placed, callsOf, isFunction, stmt?] at hrest ⊢
      omega

end Item

structure Item.Ready (vs : List String) (c : Context) (j : Nat) (i : Item) : Prop where
  settled : i.Settled c.analysis j
  marks : ∃ number, ∀ x ∈ references (i.nameSteps number j), c.analysis.Marks vs x
  spelled : ∀ t ∈ i.tokens, t.kind ≠ .endOfFile → t.text ≠ ""
  target : .target ∉ i.callsOf vs

theorem Item.EmittedAs.gapsIn_body {p : Nat × Item} {f : Function} (h : EmittedAs c p f)
    (hp : Ready vs c p.1 p.2) : gapsIn f.body = Position.used (p.2.callsOf vs) := by
  obtain ⟨d, paren, params, brace, body, next, hitem, hbody, -⟩ := h.body_emitted
  obtain ⟨hsettled, ⟨number, hmarks⟩, hspelled, htarget⟩ := hp
  rw [hitem] at hsettled hmarks hspelled htarget ⊢
  rw [hbody]
  rw [nameSteps, references_declare, references_append, List.forall_mem_append] at hmarks
  exact Stmt.gaps_emittedAll body next hsettled.2.2 hmarks.2 (fun t ht => hspelled t (by simp [tokens, ht])) htarget

theorem Stmt.gaps_emittedEach {ps : List (Nat × Stmt)} (next : Nat) (hp : ∀ p ∈ ps, Item.Ready vs c p.1 (.stmt p.2)) :
    gapsIn (emittedEach c next ps).code = (ps.map fun p => Position.used (p.2.callsOf vs true)).sum := by
  induction ps generalizing next with
  | nil => rfl
  | cons p ps ih =>
    obtain ⟨⟨hsettled, ⟨number, hmarks⟩, hspelled, htarget⟩, hps⟩ := List.forall_mem_cons.mp hp
    rw [emittedEach, gapsIn_append, ih _ hps, Stmt.gaps_emitted p.2 next hsettled hmarks hspelled htarget]
    rfl

namespace Emission

variable {name text : String} {m : Module} (e : Emission name text m)

theorem ready {j : Nat} {i : Item} (h : (j, i) ∈ Item.placed 1 e.items) :
    i.Ready (Program.voidNames e.items) e.context j where
  settled := Item.settled_of_mem_placed e.settled h
  marks := by
    obtain ⟨number, hnumber⟩ := Item.nameSteps_of_mem_placed h
    exact ⟨number, fun x hx => Program.marks_of_wellFormed e.wellFormed #[] x (references_subset hnumber x hx)⟩
  spelled t ht hkind :=
    Program.text_ne_empty_of_mem_tokens e.lexed e.parsed (List.mem_flatMap.mpr ⟨i, Item.mem_of_mem_placed h, ht⟩) hkind
  target hmem := by cases e.wellFormed.isOpen_of_mem_voidCalls i (Item.mem_of_mem_placed h) _ hmem

theorem gapsIn_functions : m.functions.map (fun f => gapsIn f.body) =
    e.functionItems.map fun p => Position.used (p.2.callsOf (Program.voidNames e.items)) := by
  have hready (p : Nat × Item) (hp : p ∈ e.functionItems) : p.2.Ready (Program.voidNames e.items) e.context p.1 :=
    e.ready (List.mem_filter.mp hp).1
  have hall := (List.forall₂_and_left _ _).mpr ⟨hready, e.functions_emitted⟩
  have hgaps := hall.imp fun p f h => h.2.gapsIn_body h.1
  rw [← List.forall₂_eq_eq_eq, List.forall₂_map_left_iff, List.forall₂_map_right_iff]
  exact hgaps.flip

theorem gapsIn_entry : gapsIn m.entry =
    ((Item.entry 1 e.items).map fun p => Position.used (p.2.callsOf (Program.voidNames e.items) true)).sum := by
  obtain ⟨next, hentry, -⟩ := e.entry_emitted
  rw [hentry]
  refine Stmt.gaps_emittedEach next fun p hp => ?_
  obtain ⟨j, i, hi, s, rfl, rfl⟩ := Item.mem_entry_iff.mp hp
  exact e.ready hi

theorem gapsIn_bodies : (m.bodies.map gapsIn).sum = Position.used (Program.voidCalls e.items) := by
  rw [Program.voidCalls, Item.used_callsOf_placed _ _ 1, ← e.gapsIn_entry]
  rw [show (Item.placed 1 e.items).filter (·.2.isFunction) = e.functionItems from rfl, ← e.gapsIn_functions]
  simp [Module.bodies, Function.comp_def]

theorem isOpen_of_mem_voidCalls {p : Position} (h : p ∈ Program.voidCalls e.items) : p.isOpen = true := by
  obtain ⟨i, hi, hp⟩ := List.mem_flatMap.mp h
  exact e.wellFormed.isOpen_of_mem_voidCalls i hi p hp

end Emission

/-- In a module, an instruction has an empty operand for each void call that is not a statement of its own, and for
    nothing else. Such a call is an indexed value, the value of an assignment or the value of a return outside all
    functions. -/
theorem Compilation.empty_operands {name text : String} {last : Phase} {c : Compilation} {m : Module}
    (h : ofText name text last = .ok c) (hm : c.oil = some m) :
    ∃ s items, TokenStream.ofText name text = .ok s ∧ items = (Program.ofTokens s.tokens).items ∧
      (m.bodies.map gapsIn).sum = Position.used (Program.voidCalls items) ∧
      (∀ p ∈ Program.voidCalls items, p.isOpen = true) ∧
      ((∀ body ∈ m.bodies, ∀ i ∈ body, ∀ o ∈ i.operands, o.text ≠ "") ↔ ∀ p ∈ Program.voidCalls items, p = .statement) := by
  obtain ⟨e⟩ := emission_of_oil h hm
  refine ⟨e.stream, e.items, e.lexed, rfl, e.gapsIn_bodies, fun p => e.isOpen_of_mem_voidCalls, ?_⟩
  rw [← Position.used_eq_zero_iff, ← e.gapsIn_bodies, List.sum_eq_zero_iff_forall_eq_nat, List.forall_mem_map]
  exact forall₂_congr fun body _ => gapsIn_eq_zero_iff.symm

/-- Each kind of call that leaves an empty operand occurs, beside one that leaves none. -/
def Compilation.voidCalls : String := "void[] f(); void g(); g(); f()[0] = g(); return g();"

theorem Compilation.empty_operands_program :
    ∃ c m, ofText "t" voidCalls .emit = .ok c ∧ c.oil = some m ∧
      ∃ s items, TokenStream.ofText "t" voidCalls = .ok s ∧ items = (Program.ofTokens s.tokens).items ∧
        Program.voidCalls items = [.statement, .base, .assigned, .returned true] ∧
        (m.bodies.map gapsIn).sum = Position.used (Program.voidCalls items) ∧
        (∀ p ∈ Program.voidCalls items, p.isOpen = true) ∧
        ((∀ body ∈ m.bodies, ∀ i ∈ body, ∀ o ∈ i.operands, o.text ≠ "") ↔
          ∀ p ∈ Program.voidCalls items, p = .statement) := by
  have hcalls : (TokenStream.ofText "t" voidCalls).toOption.map
      (fun s => Program.voidCalls (Program.ofTokens s.tokens).items) =
        some [.statement, .base, .assigned, .returned true] := by
    decide +kernel
  obtain ⟨m, hm⟩ := Option.isSome_iff_exists.mp (show (module? "t" voidCalls).isSome = true by decide +kernel)
  obtain ⟨c, hc, hoil⟩ := module?_eq_some_iff.mp hm
  obtain ⟨s, items, hs, rfl, hresult⟩ := empty_operands hc hoil
  rw [hs] at hcalls
  exact ⟨c, m, hc, hoil, s, _, hs, rfl, Option.some.inj hcalls, hresult⟩

/-- An array of void may be indexed, and then an address is taken of nothing. -/
theorem Compilation.index_of_nothing :
    ∃ c m, ofText "t" "void[] f(); f()[0];" .emit = .ok c ∧ c.oil = some m ∧
      ∃ body ∈ m.bodies, ∃ i ∈ body, ∃ o ∈ i.operands, o.text = "" := by
  exact exists_module (by decide +kernel)

end OcCompiler
