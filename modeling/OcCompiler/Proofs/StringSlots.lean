import OcCompiler.Proofs.StringConstants

/-! Slots in place of string constants. The code of a program is the code in which every string constant is spelled out,
    with each constant replaced by the slot of its own spelling. -/

namespace OcCompiler

open Oil

namespace Oil

def Computation.substitute (f : Operand → Operand) : Computation → Computation
  | .binary op spelling left right => .binary op spelling (f left) (f right)
  | .unary op spelling operand => .unary op spelling (f operand)
  | .allocate count thing => .allocate (f count) thing
  | .call callee args => .call (f callee) (args.map f)

def Place.substitute (f : Operand → Operand) : Place → Place
  | .element base index => .element (f base) (f index)
  | .field base struct name => .field (f base) struct name

/-- The instruction with each operand that it reads or assigns to replaced. -/
def Instruction.substitute (f : Operand → Operand) : Instruction → Instruction
  | .label l => .label l
  | .jump l => .jump l
  | .returnVoid => .returnVoid
  | .jumpUnless condition l => .jumpUnless (f condition) l
  | .assign target value => .assign (f target) (f value)
  | .declare storage v value => .declare storage v (f value)
  | .compute storage r value => .compute storage r (value.substitute f)
  | .address storage r place => .address storage r (place.substitute f)
  | .perform callee args => .perform (f callee) (args.map f)
  | .returnValue value => .returnValue (f value)

def StringSlot.find? (slots : List StringSlot) (spelling : String) : Option Register :=
  (slots.find? (·.spelling == spelling)).map StringSlot.register

def Operand.inSlot (slots : List StringSlot) : Operand → Operand
  | .constant (.literal .string) spelling =>
    (StringSlot.find? slots spelling).elim (.constant (.literal .string) spelling) .register
  | o => o

theorem Instruction.operands_inSlot (slots : List StringSlot) (i : Instruction) :
    (i.substitute (Operand.inSlot slots)).operands = i.operands.map (Operand.inSlot slots) := by
  cases i with
  | compute storage r value => cases value <;> rfl
  | address storage r place => cases place <;> rfl
  | _ => rfl

theorem stringsIn_inSlot {slots : List StringSlot} {code : List Instruction}
    (h : ∀ x ∈ stringsIn code, (StringSlot.find? slots x).isSome = true) :
    stringsIn (code.map (Instruction.substitute (Operand.inSlot slots))) = [] := by
  have hoperand : ∀ o : Operand, (∀ x ∈ o.strings, (StringSlot.find? slots x).isSome = true) →
      (o.inSlot slots).strings = [] := by
    intro o ho
    unfold Operand.inSlot
    split
    · rename_i x
      obtain ⟨r, hr⟩ := Option.isSome_iff_exists.mp (ho x (List.mem_singleton_self x))
      rw [hr]
      rfl
    · rename_i hnot
      unfold Operand.strings
      split
      · exact absurd rfl (hnot _)
      · rfl
  simp only [stringsIn, List.flatMap_map, Instruction.operands_inSlot, List.flatMap_eq_nil_iff]
  exact fun i hi o ho => hoperand o fun x hx => h x (List.mem_flatMap.mpr ⟨i, hi, List.mem_flatMap.mpr ⟨o, ho, hx⟩⟩)

/-- The code with each string constant replaced by its slot. -/
def inSlots (slots : List StringSlot) (code : List Instruction) : List Instruction :=
  code.map (Instruction.substitute (Operand.inSlot slots))

@[simp] theorem inSlots_append (slots : List StringSlot) (code code' : List Instruction) :
    inSlots slots (code ++ code') = inSlots slots code ++ inSlots slots code' :=
  List.map_append

@[simp] theorem inSlots_cons (slots : List StringSlot) (i : Instruction) (code : List Instruction) :
    inSlots slots (i :: code) = i.substitute (Operand.inSlot slots) :: inSlots slots code :=
  List.map_cons

@[simp] theorem inSlots_nil (slots : List StringSlot) : inSlots slots [] = [] := rfl

@[simp] theorem counted_inSlots {slots : List StringSlot} {code : List Instruction} :
    Counted (inSlots slots code) ↔ Counted code := by
  have hdeclares (i : Instruction) : (i.substitute (Operand.inSlot slots)).declares = i.declares := by cases i <;> rfl
  simp [Counted, inSlots, hdeclares]

end Oil

def Oil.Context.withSlots (c : Context) (slots : List StringSlot) : Context :=
  { c with slots := slots.map fun s => (s.spelling, s.register) }

section Code

variable {c : Context} {slots : List StringSlot}

theorem Oil.Context.lookup_withSlots (x : String) : (c.withSlots slots).slots.lookup x = StringSlot.find? slots x := by
  rw [withSlots]
  induction slots with
  | nil => rfl
  | cons s slots ih =>
    rw [List.map_cons, StringSlot.find?, List.lookup_cons, List.find?_cons, BEq.comm]
    cases s.spelling == x with
    | true => rfl
    | false => exact ih

theorem Oil.Context.constant_withSlots (q : Constant) (text : String) :
    (c.withSlots slots).constant q text = (c.spelling.constant q text).inSlot slots := by
  cases q with
  | literal q =>
    cases q with
    | string =>
      rw [constant, lookup_withSlots]
      show _ = (StringSlot.find? slots text).elim _ _
      cases StringSlot.find? slots text <;> rfl
    | int | char => rfl
  | truth b => cases b <;> rfl
  | null => rfl

@[simp] theorem Oil.Context.variableAt_withSlots (n : NodeId) (x : Lexeme) :
    (c.withSlots slots).variableAt n x = c.spelling.variableAt n x := rfl

@[simp] theorem Oil.Context.found_withSlots (n : NodeId) : (c.withSlots slots).found n = c.spelling.found n := rfl

mutual

theorem Expr.emitted_withSlots (e : Expr) (k next : Nat) :
    e.emitted (c.withSlots slots) k next = ⟨(e.emitted c.spelling k next).value.inSlot slots,
      inSlots slots (e.emitted c.spelling k next).code, (e.emitted c.spelling k next).next⟩ := by
  cases e with
  | name | newStruct => rfl
  | constant q lexeme => simp [emitted, Oil.Context.constant_withSlots]
  | unary _ _ e | select e | newString _ e | newArray _ _ e =>
    simp [emitted, Expr.emitted_withSlots e, Instruction.substitute, Computation.substitute, Place.substitute, Operand.inSlot]
  | binary op left mark right =>
    rw [emitted, emitted]
    split <;> simp [Expr.emitted_withSlots left, Expr.emitted_withSlots right, Instruction.substitute,
      Computation.substitute, Operand.inSlot]
  | call callee paren args =>
    by_cases hvoid : (c.spelling.found ⟨k + 1⟩).isVoid = true <;>
      simp [emitted, hvoid, Expr.emittedAll_withSlots args, Instruction.substitute, Computation.substitute, Operand.inSlot]
  | index base bracket subscript =>
    simp [emitted, Expr.emitted_withSlots base, Expr.emitted_withSlots subscript, Instruction.substitute, Place.substitute,
      Operand.inSlot]

theorem Expr.emittedAll_withSlots (es : List Expr) (k next : Nat) :
    emittedAll (c.withSlots slots) k next es = ⟨(emittedAll c.spelling k next es).value.map (Operand.inSlot slots),
      inSlots slots (emittedAll c.spelling k next es).code, (emittedAll c.spelling k next es).next⟩ := by
  match es with
  | [] => rfl
  | e :: es => simp [emittedAll, Expr.emitted_withSlots e, Expr.emittedAll_withSlots es]

end

mutual

theorem Stmt.emitted_withSlots (s : Stmt) (k next : Nat) :
    s.emitted (c.withSlots slots) k next =
      ⟨(), inSlots slots (s.emitted c.spelling k next).code, (s.emitted c.spelling k next).next⟩ := by
  cases s with
  | block brace body => exact Stmt.emittedAll_withSlots body _ _
  | empty | returnVoid => rfl
  | varDecl d equals init =>
    by_cases hblock : (c.spelling.variableAt ⟨k + 1⟩ d.name).block = globalBlock <;>
      simp [emitted, hblock, init.emitted_withSlots, Instruction.substitute, Operand.inSlot]
  | whileLoop _ cond body | ifThen _ cond body =>
    simp [emitted, cond.emitted_withSlots, Stmt.emitted_withSlots body, Instruction.substitute]
  | ifElse _ cond yes no =>
    simp [emitted, cond.emitted_withSlots, Stmt.emitted_withSlots yes, Stmt.emitted_withSlots no, Instruction.substitute]
  | returnValue _ e | expr e => simp [emitted, e.emitted_withSlots, Instruction.substitute]

theorem Stmt.emittedAll_withSlots (ss : List Stmt) (k next : Nat) :
    emittedAll (c.withSlots slots) k next ss =
      ⟨(), inSlots slots (emittedAll c.spelling k next ss).code, (emittedAll c.spelling k next ss).next⟩ := by
  match ss with
  | [] => rfl
  | s :: ss => simp [emittedAll, Stmt.emitted_withSlots s, Stmt.emittedAll_withSlots ss]

end

end Code

end OcCompiler
