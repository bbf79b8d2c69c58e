import OcCompiler.Proofs.Registers

/-! Variables in oil come from names in the program. Each construct mentions some names, in an order that depends on its
    shape alone, and what is emitted for it has exactly the variables of these names, in the same order. -/

namespace OcCompiler

open Oil

namespace Oil

def Operand.vars : Operand → List Variable
  | .var v => [v]
  | .register _ | .pointee _ | .constant _ _ | .nothing => []

/-- The variables whose names are part of the text of an instruction. -/
def Instruction.vars (i : Instruction) : List Variable := i.operands.flatMap Operand.vars

/-- The variables that the operands of an instruction mention. -/
def Instruction.usedVars (i : Instruction) : List Variable := i.arguments.flatMap Operand.vars

def Instruction.newVars : Instruction → List Variable
  | .declare _ v _ => [v]
  | _ => []

/-- The variables in some code, in the order of its text. -/
def varsIn (code : List Instruction) : List Variable := code.flatMap Instruction.vars

def newVarsIn (code : List Instruction) : List Variable := code.flatMap Instruction.newVars

@[simp] theorem Operand.vars_var (v : Variable) : (Operand.var v).vars = [v] := rfl

namespace Instruction

@[simp] theorem vars_label (l : Label) : (label l).vars = [] := rfl

@[simp] theorem vars_jump (l : Label) : (jump l).vars = [] := rfl

@[simp] theorem vars_jumpUnless (condition : Operand) (l : Label) :
    (jumpUnless condition l).vars = condition.vars := by
  simp [vars, operands]

@[simp] theorem vars_assign (target value : Operand) :
    (assign target value).vars = target.vars ++ value.vars := by
  simp [vars, operands]

@[simp] theorem vars_declare (storage : Storage) (v : Variable) (value : Operand) :
    (declare storage v value).vars = v :: value.vars := by
  simp [vars, operands]

@[simp] theorem vars_compute (storage : Storage) (r : Register) (value : Computation) :
    (compute storage r value).vars = value.operands.flatMap Operand.vars := rfl

@[simp] theorem vars_address (storage : Storage) (r : Register) (place : Place) :
    (address storage r place).vars = place.operands.flatMap Operand.vars := rfl

@[simp] theorem vars_perform (callee : Operand) (args : List Operand) :
    (perform callee args).vars = callee.vars ++ args.flatMap Operand.vars := rfl

@[simp] theorem vars_returnValue (value : Operand) : (returnValue value).vars = value.vars := by
  simp [vars, operands]

end Instruction

theorem Instruction.Working.newVars_eq_nil {i : Instruction} (h : i.Working) : i.newVars = [] := by
  cases i <;> first | rfl | cases h

theorem Instruction.vars_eq (i : Instruction) : i.vars = i.newVars ++ i.usedVars := by
  cases i <;> rfl

@[simp] theorem varsIn_append (code code' : List Instruction) :
    varsIn (code ++ code') = varsIn code ++ varsIn code' :=
  List.flatMap_append

@[simp] theorem varsIn_cons (i : Instruction) (code : List Instruction) :
    varsIn (i :: code) = i.vars ++ varsIn code :=
  List.flatMap_cons

@[simp] theorem varsIn_nil : varsIn [] = [] := rfl

@[simp] theorem newVarsIn_append (code code' : List Instruction) :
    newVarsIn (code ++ code') = newVarsIn code ++ newVarsIn code' :=
  List.flatMap_append

@[simp] theorem newVarsIn_cons (i : Instruction) (code : List Instruction) :
    newVarsIn (i :: code) = i.newVars ++ newVarsIn code :=
  List.flatMap_cons

@[simp] theorem newVarsIn_nil : newVarsIn [] = [] := rfl

def Context.varsAt (c : Context) (mentions : List (Lexeme × NodeId)) : List Variable :=
  mentions.map fun p => c.variableAt p.2 p.1

@[simp] theorem Context.varsAt_nil (c : Context) : c.varsAt [] = [] := rfl

@[simp] theorem Context.varsAt_cons (c : Context) (p : Lexeme × NodeId) (ps : List (Lexeme × NodeId)) :
    c.varsAt (p :: ps) = c.variableAt p.2 p.1 :: c.varsAt ps :=
  List.map_cons

@[simp] theorem Context.varsAt_append (c : Context) (ps ps' : List (Lexeme × NodeId)) :
    c.varsAt (ps ++ ps') = c.varsAt ps ++ c.varsAt ps' :=
  List.map_append

end Oil

/-! ### Names that a program mentions -/

namespace Expr

/-- The name that stands for the value of an expression. An assignment stands for its target. -/
def operandMentions (k : Nat) : Expr → List (Lexeme × NodeId)
  | .name x => [(x, ⟨k⟩)]
  | .binary .assign left _ _ => left.operandMentions k
  | _ => []

def operandMentionsAll (k : Nat) : List Expr → List (Lexeme × NodeId)
  | [] => []
  | e :: es => e.operandMentions k ++ operandMentionsAll (k + e.size) es

mutual

/-- The names that the code for an expression mentions. The parts of the expression come first, then what is done with
    their values. -/
def mentions (k : Nat) : Expr → List (Lexeme × NodeId)
  | .name _ | .constant .. | .newStruct .. => []
  | .unary _ _ e => e.mentions (k + 1) ++ e.operandMentions (k + 1)
  | .binary _ left _ right => left.mentions k ++ (right.mentions (k + left.size + 1) ++
      (left.operandMentions k ++ right.operandMentions (k + left.size + 1)))
  | .call callee _ args => mentionsAll (k + 2) args ++ (callee, ⟨k⟩) :: operandMentionsAll (k + 2) args
  | .index base _ subscript => base.mentions k ++ (subscript.mentions (k + base.size + 1) ++
      (base.operandMentions k ++ subscript.operandMentions (k + base.size + 1)))
  | .select object _ _ => object.mentions k ++ object.operandMentions k
  | .newString _ count => count.mentions (k + 1) ++ count.operandMentions (k + 1)
  | .newArray _ _ count => count.mentions (k + 2) ++ count.operandMentions (k + 2)

def mentionsAll (k : Nat) : List Expr → List (Lexeme × NodeId)
  | [] => []
  | e :: es => e.mentions k ++ mentionsAll (k + e.size) es

end

end Expr

def Decl.mention (p : Nat × Decl) : Lexeme × NodeId := (p.2.name, ⟨p.1 + 1⟩)

namespace Decl

def placed (k : Nat) : List Decl → List (Nat × Decl)
  | [] => []
  | d :: ds => (k, d) :: placed (k + d.size) ds

end Decl

namespace Stmt

mutual

/-- The names that the code for a statement mentions. A declared variable stands before its first value. -/
def mentions (k : Nat) : Stmt → List (Lexeme × NodeId)
  | .block _ body => mentionsAll (k + 1) body
  | .empty _ | .returnVoid _ => []
  | .varDecl d _ init =>
    init.mentions (k + d.size + 1) ++ Decl.mention (k, d) :: init.operandMentions (k + d.size + 1)
  | .whileLoop _ cond body =>
    cond.mentions (k + 1) ++ (cond.operandMentions (k + 1) ++ body.mentions (k + 1 + cond.size))
  | .ifThen _ cond yes =>
    cond.mentions (k + 1) ++ (cond.operandMentions (k + 1) ++ yes.mentions (k + 1 + cond.size))
  | .ifElse _ cond yes no =>
    cond.mentions (k + 1) ++ (cond.operandMentions (k + 1) ++
      (yes.mentions (k + 1 + cond.size) ++ no.mentions (k + 1 + cond.size + yes.size)))
  | .returnValue _ value => value.mentions (k + 1) ++ value.operandMentions (k + 1)
  | .expr e => e.mentions k

def mentionsAll (k : Nat) : List Stmt → List (Lexeme × NodeId)
  | [] => []
  | s :: ss => s.mentions k ++ mentionsAll (k + s.size) ss

end

end Stmt

/-! ### What the program does with them -/

def NameStep.mention (s : NameStep) : Lexeme × NodeId := (s.lexeme, s.node)

section Steps

open NameStep

theorem append_subset_append {α : Type} {xs xs' ys ys' : List α} (h : xs ⊆ xs') (h' : ys ⊆ ys') :
    xs ++ ys ⊆ xs' ++ ys' :=
  List.append_subset.mpr ⟨List.subset_append_of_subset_left _ h, List.subset_append_of_subset_right _ h'⟩

theorem Expr.operandMentions_subset (e : Expr) (blocks : List Nat) (k : Nat) :
    e.operandMentions k ⊆ (e.nameSteps blocks k).map mention := by
  fun_cases Expr.operandMentions k e with
  | case1 x => exact List.Subset.refl _
  | case2 left mark right =>
    rw [nameSteps, List.map_append]
    exact List.subset_append_of_subset_left _ (Expr.operandMentions_subset left blocks k)
  | case3 => exact List.nil_subset _

theorem Expr.operandMentionsAll_subset (es : List Expr) (blocks : List Nat) (k : Nat) :
    operandMentionsAll k es ⊆ (nameStepsAll blocks k es).map mention := by
  induction es generalizing k with
  | nil => exact List.Subset.refl _
  | cons e es ih =>
    rw [operandMentionsAll, nameStepsAll, List.map_append]
    exact append_subset_append (e.operandMentions_subset blocks k) (ih _)

mutual

theorem Expr.mentions_subset (e : Expr) (blocks : List Nat) (k : Nat) :
    e.mentions k ⊆ (e.nameSteps blocks k).map mention := by
  cases e with
  | name | constant | newStruct =>
    rw [mentions]
    exact List.nil_subset _
  | unary op mark e | select e dot field | newString mark e | newArray element mark e =>
    rw [mentions, nameSteps]
    exact List.append_subset.mpr ⟨Expr.mentions_subset e blocks _, e.operandMentions_subset blocks _⟩
  | binary op left mark right | index left bracket right =>
    rw [mentions, nameSteps, List.map_append, List.append_subset, List.append_subset]
    exact ⟨List.subset_append_of_subset_left _ (Expr.mentions_subset left blocks _),
      List.subset_append_of_subset_right _ (Expr.mentions_subset right blocks _),
      append_subset_append (left.operandMentions_subset blocks _) (right.operandMentions_subset blocks _)⟩
  | call callee paren args =>
    rw [mentions, nameSteps, List.append_subset]
    exact ⟨List.subset_cons_of_subset _ (Expr.mentions_subsetAll args blocks _),
      List.cons_subset_cons _ (Expr.operandMentionsAll_subset args blocks _)⟩

theorem Expr.mentions_subsetAll (es : List Expr) (blocks : List Nat) (k : Nat) :
    mentionsAll k es ⊆ (nameStepsAll blocks k es).map mention := by
  match es with
  | [] => exact List.Subset.refl _
  | e :: es =>
    rw [mentionsAll, nameStepsAll, List.map_append]
    exact append_subset_append (Expr.mentions_subset e blocks k) (Expr.mentions_subsetAll es blocks _)

end

theorem Expr.allMentions_subset (e : Expr) (blocks : List Nat) (k : Nat) :
    e.mentions k ++ e.operandMentions k ⊆ (e.nameSteps blocks k).map mention :=
  List.append_subset.mpr ⟨e.mentions_subset blocks k, e.operandMentions_subset blocks k⟩

mutual

theorem Stmt.mentions_subset (s : Stmt) (block : Nat) (outer : List Nat) (next k : Nat) :
    s.mentions k ⊆ (s.nameSteps block outer next k).map mention := by
  cases s with
  | block brace body =>
    rw [mentions, nameSteps]
    exact Stmt.mentions_subsetAll body _ _ _ _
  | empty | returnVoid =>
    rw [mentions]
    exact List.nil_subset _
  | varDecl d equals init =>
    rw [mentions, nameSteps, List.map_append, List.append_subset, List.cons_subset]
    exact ⟨List.subset_append_of_subset_left _ (init.mentions_subset _ _),
      List.mem_append_right _ (List.mem_singleton_self _),
      List.subset_append_of_subset_left _ (init.operandMentions_subset _ _)⟩
  | whileLoop mark cond body | ifThen mark cond body =>
    rw [mentions, nameSteps, List.map_append, ← List.append_assoc]
    exact append_subset_append (cond.allMentions_subset _ _) (Stmt.mentions_subset body _ _ _ _)
  | ifElse mark cond yes no =>
    rw [mentions, nameSteps, List.map_append, List.map_append, ← List.append_assoc]
    exact append_subset_append (cond.allMentions_subset _ _)
      (append_subset_append (Stmt.mentions_subset yes _ _ _ _) (Stmt.mentions_subset no _ _ _ _))
  | returnValue mark value =>
    rw [mentions, nameSteps]
    exact value.allMentions_subset _ _
  | expr e =>
    rw [mentions, nameSteps]
    exact e.mentions_subset _ _

theorem Stmt.mentions_subsetAll (ss : List Stmt) (block : Nat) (outer : List Nat) (next k : Nat) :
    mentionsAll k ss ⊆ (nameStepsAll block outer next k ss).map mention := by
  match ss with
  | [] => exact List.Subset.refl _
  | s :: ss =>
    rw [mentionsAll, nameStepsAll, List.map_append]
    exact append_subset_append (Stmt.mentions_subset s _ _ _ _) (Stmt.mentions_subsetAll ss _ _ _ _)

end

theorem Decl.mentions_paramSteps (ds : List Decl) (block k : Nat) :
    (paramSteps block k ds).map NameStep.mention = (placed k ds).map mention := by
  induction ds generalizing k with
  | nil => rfl
  | cons d ds ih => exact congrArg (mention (k, d) :: ·) (ih _)

end Steps

section Emitted

variable {c : Context}

@[simp] theorem vars_constant (q : Constant) (text : String) : (c.constant q text).vars = [] := by
  unfold Context.constant
  split
  case h_3 => split <;> rfl
  all_goals rfl

@[simp] theorem Expr.vars_emitted (e : Expr) (k next : Nat) :
    (e.emitted c k next).value.vars = c.varsAt (e.operandMentions k) := by
  cases e with
  | constant q lexeme => exact vars_constant _ _
  | binary op left mark right =>
    cases op with
    | assign => exact Expr.vars_emitted left k next
    | compare | arith => rfl
  | call =>
    rw [emitted]
    split <;> rfl
  | name | unary | index | select | newStruct | newString | newArray => rfl

@[simp] theorem Expr.vars_emittedAll (es : List Expr) (k next : Nat) :
    (emittedAll c k next es).value.flatMap Operand.vars = c.varsAt (operandMentionsAll k es) := by
  induction es generalizing k next with
  | nil => rfl
  | cons e es ih => simp [emittedAll, operandMentionsAll, ih]

mutual

@[simp] theorem Expr.varsIn_emitted (e : Expr) (k next : Nat) :
    varsIn (e.emitted c k next).code = c.varsAt (e.mentions k) := by
  cases e with
  | name | constant | newStruct => rfl
  | unary _ _ e | select e | newString _ e | newArray _ _ e =>
    simp [emitted, mentions, Expr.varsIn_emitted e, Computation.operands, Place.operands]
  | binary op left mark right =>
    rw [emitted]
    split <;> simp [mentions, Expr.varsIn_emitted left, Expr.varsIn_emitted right, Computation.operands]
  | call callee paren args =>
    rw [emitted]
    split <;> simp [mentions, Expr.varsIn_emittedAll args, Computation.operands]
  | index base bracket subscript =>
    simp [emitted, mentions, Expr.varsIn_emitted base, Expr.varsIn_emitted subscript, Place.operands]

theorem Expr.varsIn_emittedAll (es : List Expr) (k next : Nat) :
    varsIn (emittedAll c k next es).code = c.varsAt (mentionsAll k es) := by
  match es with
  | [] => rfl
  | e :: es => simp [emittedAll, mentionsAll, Expr.varsIn_emitted e, Expr.varsIn_emittedAll es]

end

@[simp] theorem Expr.newVarsIn_emitted (e : Expr) (k next : Nat) : newVarsIn (e.emitted c k next).code = [] :=
  List.flatMap_eq_nil_iff.mpr fun i hi => (e.working_emitted k next i hi).newVars_eq_nil

mutual

theorem Stmt.varsIn_emitted (s : Stmt) (k next : Nat) : varsIn (s.emitted c k next).code = c.varsAt (s.mentions k) := by
  cases s with
  | block brace body => exact Stmt.varsIn_emittedAll body _ _
  | empty | returnVoid => rfl
  | varDecl =>
    simp only [emitted, mentions]
    split <;> simp [Decl.mention]
  | whileLoop _ _ body | ifThen _ _ body => simp [emitted, mentions, Stmt.varsIn_emitted body]
  | ifElse mark cond yes no => simp [emitted, mentions, Stmt.varsIn_emitted yes, Stmt.varsIn_emitted no]
  | returnValue | expr => simp [emitted, mentions]

theorem Stmt.varsIn_emittedAll (ss : List Stmt) (k next : Nat) :
    varsIn (emittedAll c k next ss).code = c.varsAt (mentionsAll k ss) := by
  match ss with
  | [] => rfl
  | s :: ss => simp [emittedAll, mentionsAll, Stmt.varsIn_emitted s, Stmt.varsIn_emittedAll ss]

end

theorem Decl.vars_of_params {ds : List Decl} {j : Nat} {params : List (Storage × Variable)}
    (h : Decl.forEach (Decl.lowerParam c) j ds = .ok params) : params.map (·.2) = c.varsAt ((placed j ds).map mention) := by
  induction ds generalizing j params with
  | nil =>
    cases h
    rfl
  | cons d ds ih =>
    obtain ⟨first, hfirst, h⟩ := bind_eq_ok_iff.mp h
    obtain ⟨rest, hrest, h⟩ := bind_eq_ok_iff.mp h
    obtain ⟨type, -, hfirst⟩ := bind_eq_ok_iff.mp hfirst
    cases h
    cases hfirst
    exact congrArg (c.variableAt ⟨j + 1⟩ d.name :: ·) (ih hrest)

theorem Item.EmittedAs.parts_emitted {p : Nat × Item} {f : Function} (h : EmittedAs c p f) :
    ∃ d paren params brace body first, p.2 = .function d paren params brace body ∧
      f.params.map (·.2) = c.varsAt ((Decl.placed (p.1 + d.size + 1) params).map Decl.mention) ∧
      f.body = (Stmt.emittedAll c (p.1 + d.size + 1 + Decl.sizes params + 1) first body).code := by
  obtain ⟨hsettled, d, paren, params, brace, body, first, last, hitem, h⟩ := h
  rw [hitem] at hsettled
  obtain ⟨type, -, h⟩ := bind_eq_ok_iff.mp h
  obtain ⟨lowered, hlowered, h⟩ := bind_eq_ok_iff.mp h
  obtain ⟨emitted, hbody, h⟩ := bind_eq_ok_iff.mp h
  obtain ⟨rfl, -⟩ := (Stmt.lowerAll_yields body hsettled.2.2).eq_of_ok hbody
  cases h
  exact ⟨d, paren, params, brace, body, first, hitem, Decl.vars_of_params hlowered, rfl⟩

end Emitted

end OcCompiler
