import OcCompiler.Proofs.VoidOperands

/-! Registers are numbered: those that a module declares have consecutive numbers in the order of the text, and an
    instruction reads only string slots and registers that its own body declared before. -/

namespace OcCompiler

open Oil

namespace Oil

/-! ### Code that reads what it declared -/

section Declared

variable {α : Type}

def ReadsDeclared (reads declares : Instruction → List α) (known : List α) : List Instruction → Prop
  | [] => True
  | i :: code => (∀ x ∈ reads i, x ∈ known) ∧ ReadsDeclared reads declares (known ++ declares i) code

variable {reads declares : Instruction → List α} {known : List α} {code code' before after : List Instruction}
  {i : Instruction}

namespace ReadsDeclared

theorem singleton (h : ∀ x ∈ reads i, x ∈ known) : ReadsDeclared reads declares known [i] := ⟨h, trivial⟩

theorem append (h : ReadsDeclared reads declares known code)
    (h' : ReadsDeclared reads declares (known ++ code.flatMap declares) code') :
    ReadsDeclared reads declares known (code ++ code') := by
  induction code generalizing known with
  | nil => simpa using h'
  | cons i code ih =>
    refine ⟨h.1, ih h.2 ?_⟩
    rwa [List.append_assoc, ← List.flatMap_cons]

theorem mem_or_mem {x : α} (h : ReadsDeclared reads declares known (before ++ i :: after)) (hx : x ∈ reads i) :
    x ∈ known ∨ x ∈ before.flatMap declares := by
  induction before generalizing known with
  | nil => exact .inl (h.1 x hx)
  | cons j before ih =>
    rw [List.flatMap_cons, List.mem_append, ← or_assoc, ← List.mem_append]
    exact ih h.2

end ReadsDeclared

end Declared

def Operand.registers : Operand → List Register
  | .register r | .pointee r => [r]
  | .constant _ _ | .var _ | .nothing => []

def Instruction.arguments : Instruction → List Operand
  | .label _ | .jump _ | .returnVoid => []
  | .jumpUnless condition _ => [condition]
  | .assign target value => [target, value]
  | .declare _ _ value => [value]
  | .compute _ _ value => value.operands
  | .address _ _ place => place.operands
  | .perform callee args => callee :: args
  | .returnValue value => [value]

/-- The registers that the operands of an instruction mention. -/
def Instruction.registers (i : Instruction) : List Register := i.arguments.flatMap Operand.registers

def declaredIn (code : List Instruction) : List Register := code.flatMap Instruction.declares

/-- The registers that a module declares, in the order of its text. -/
def Module.registers (m : Module) : List Register := m.strings.map StringSlot.register ++ m.bodies.flatMap declaredIn

@[simp] theorem declaredIn_append (code code' : List Instruction) :
    declaredIn (code ++ code') = declaredIn code ++ declaredIn code' :=
  List.flatMap_append

def Operand.Reads (known : List Register) (o : Operand) : Prop := ∀ r ∈ o.registers, r ∈ known

theorem Operand.Reads.mono {known known' : List Register} {o : Operand} (h : o.Reads known) (hsub : known ⊆ known') :
    o.Reads known' :=
  fun r hr => hsub (h r hr)

theorem Operand.reads_var (known : List Register) (v : Variable) : (Operand.var v).Reads known := nofun

theorem Operand.reads_nothing (known : List Register) : Operand.nothing.Reads known := nofun

theorem Operand.reads_constant (known : List Register) (q : Constant) (text : String) :
    (Operand.constant q text).Reads known := nofun

theorem Instruction.registers_known {known : List Register} {i : Instruction} (h : ∀ o ∈ i.arguments, o.Reads known) :
    ∀ r ∈ i.registers, r ∈ known := by
  intro r hr
  obtain ⟨o, ho, hr⟩ := List.mem_flatMap.mp hr
  exact h o ho r hr

/-- The registers have consecutive numbers, from the first number up to the second. -/
structure Numbered (first : Nat) (rs : List Register) (last : Nat) : Prop where
  numbers : rs.map Register.number = List.range' first rs.length
  last : last = first + rs.length

namespace Numbered

variable {first middle last : Nat} {rs rs' : List Register}

theorem nil : Numbered first [] first := ⟨rfl, rfl⟩

theorem singleton (kind : RegisterKind) : Numbered first [⟨kind, first⟩] (first + 1) := ⟨rfl, rfl⟩

theorem append (h : Numbered first rs middle) (h' : Numbered middle rs' last) : Numbered first (rs ++ rs') last := by
  obtain ⟨hnumbers, rfl⟩ := h
  obtain ⟨hnumbers', rfl⟩ := h'
  refine ⟨?_, by rw [List.length_append, Nat.add_assoc]⟩
  rw [List.map_append, hnumbers, hnumbers', List.length_append, List.range'_append_1]

end Numbered

/-! ### The lines of the text -/

/-- A line of a module's text: one that defines a register, or another one. -/
inductive Line where
  | definition (type : String) (r : Register) (value : String)
  | other (text : String)

def Line.text : Line → String
  | .definition type r value => type ++ " " ++ r.text ++ " = " ++ value ++ ";\n"
  | .other text => text

def Line.defined? : Line → Option Register
  | .definition _ r _ => some r
  | .other _ => none

def StringSlot.line (s : StringSlot) : Line := .definition "char*" s.register s.spelling

def Instruction.line : Instruction → Line
  | .compute storage r value => .definition (indent ++ storage.text) r value.text
  | .address storage r place => .definition (indent ++ storage.text ++ "*") r ("&" ++ place.text)
  | i => .other i.text

def Function.lines (f : Function) : List Line :=
  .other (f.result.text ++ " " ++ globalName f.name ++ " (" ++ paramsText f.params ++ ")\n\x7b\n") ::
    f.body.map Instruction.line ++ [.other "\x7d\n"]

/-- The lines of a module's text in their order. A struct and the head of a function count as one line each. -/
def Module.lines (m : Module) : List Line :=
  m.structs.map (fun s => .other s.text) ++ m.strings.map StringSlot.line ++ m.globals.map (fun g => .other g.text) ++
    (m.functions ++ [({ result := .void, name := entryName, body := m.entry } : Function)]).flatMap Function.lines

theorem Instruction.text_line (i : Instruction) : i.line.text = i.text := by
  have hplace (text : String) : " = " ++ ("&" ++ text) = " = &" ++ text := String.append_assoc.symm
  cases i <;> simp [line, Line.text, text, String.append_assoc, hplace]

theorem Function.text_lines (f : Function) : String.join (f.lines.map Line.text) = f.text := by
  have hbody : f.body.map (Line.text ∘ Instruction.line) = f.body.map Instruction.text :=
    List.map_congr_left fun i _ => i.text_line
  simp [lines, text, Line.text, hbody, String.join_append, String.join_cons, String.append_assoc]

theorem Module.text_lines (m : Module) : String.join (m.lines.map Line.text) = m.text := by
  have hfunctions (fs : List Function) :
      String.join ((fs.flatMap Function.lines).map Line.text) = String.join (fs.map Function.text) := by
    induction fs with
    | nil => rfl
    | cons f fs ih => simp [String.join_append, String.join_cons, f.text_lines, ih]
  have hslot : Line.text ∘ StringSlot.line = StringSlot.text := by
    funext s
    simp [StringSlot.line, Line.text, StringSlot.text, String.append_assoc]
  simp [lines, text, Line.text, String.join_append, hfunctions, hslot, Function.comp_def, String.append_assoc,
    Function.text_lines]

theorem filterMap_line (code : List Instruction) :
    (code.map Instruction.line).filterMap Line.defined? = declaredIn code := by
  induction code with
  | nil => rfl
  | cons i code ih =>
    rw [List.map_cons, List.filterMap_cons, ih, declaredIn, declaredIn, List.flatMap_cons]
    cases i <;> rfl

theorem Function.filterMap_lines (f : Function) : f.lines.filterMap Line.defined? = declaredIn f.body := by
  rw [lines, List.cons_append, List.filterMap_cons_none rfl, List.filterMap_append, filterMap_line]
  exact List.append_nil _

theorem Module.filterMap_lines (m : Module) : m.lines.filterMap Line.defined? = m.registers := by
  have hother {α : Type} (f : α → String) (xs : List α) :
      (xs.map fun x => Line.other (f x)).filterMap Line.defined? = [] := by
    simp [Function.comp_def, Line.defined?]
  have hslots : (m.strings.map StringSlot.line).filterMap Line.defined? = m.strings.map StringSlot.register := by
    rw [List.filterMap_map, ← List.filterMap_eq_map]
    rfl
  have hfunctions (fs : List Function) :
      (fs.flatMap Function.lines).filterMap Line.defined? = (fs.map Function.body).flatMap declaredIn := by
    rw [List.filterMap_flatMap, List.flatMap_map]
    exact congrArg (List.flatMap · fs) (funext Function.filterMap_lines)
  simp only [lines, List.filterMap_append, hother, hslots, hfunctions, List.nil_append, List.append_nil, registers, bodies,
    List.map_append, List.map_cons, List.map_nil]

theorem Module.lines_infix {m : Module} {body : List Instruction} (h : body ∈ m.bodies) :
    body.map Instruction.line <:+: m.lines := by
  have hbodies : m.bodies =
      (m.functions ++ [({ result := .void, name := entryName, body := m.entry } : Function)]).map Function.body := by
    rw [List.map_append]
    rfl
  rw [hbodies] at h
  obtain ⟨f, hf, rfl⟩ := List.mem_map.mp h
  have hlines : f.lines <:+: _ := List.infix_of_mem_flatten (List.mem_map_of_mem hf)
  exact ((List.infix_append' [_] _ _).trans hlines).trans (List.suffix_append _ _).isInfix

/-! ### What a computation declares -/

namespace Emit

variable {α β : Type} {known : List Register} {Q : List Register → α → Prop} {R : List Register → β → Prop}

/-- If the computation succeeds, it numbers the registers that it declares, it reads only what is known or declared by
    then, and `Q` holds of the registers known at its end and its value. -/
def Declares (m : Emit α) (known : List Register) (Q : List Register → α → Prop) : Prop :=
  ∀ next r, m next = .ok r →
    Numbered next (declaredIn r.code) r.next ∧ ReadsDeclared Instruction.registers Instruction.declares known r.code ∧
      Q (known ++ declaredIn r.code) r.value

namespace Declares

theorem pure {x : α} (h : Q known x) : Declares (pure x) known Q := by
  rintro next r hr
  cases hr
  exact ⟨.nil, trivial, by simpa [declaredIn] using h⟩

theorem bind {m : Emit α} {f : α → Emit β} (hm : m.Declares known Q)
    (hf : ∀ known', known ⊆ known' → ∀ x, Q known' x → (f x).Declares known' R) : (m >>= f).Declares known R := by
  intro next r hr
  obtain ⟨first, second, hfirst, hsecond, rfl⟩ := bind_eq_ok_iff.mp hr
  obtain ⟨hnumbers, hreads, hvalue⟩ := hm _ _ hfirst
  obtain ⟨hnumbers', hreads', hvalue'⟩ := hf _ (List.subset_append_left _ _) _ hvalue _ _ hsecond
  refine ⟨?_, hreads.append hreads', ?_⟩
  · rw [declaredIn_append]
    exact hnumbers.append hnumbers'
  · rwa [declaredIn_append, ← List.append_assoc]

theorem write {i : Instruction} (hnone : i.declares = []) (h : ∀ o ∈ i.arguments, o.Reads known) :
    (write i).Declares known fun _ _ => True := by
  intro next r hr
  cases hr
  refine ⟨?_, .singleton (Instruction.registers_known h), trivial⟩
  rw [declaredIn, List.flatMap_singleton, hnone]
  exact .nil

theorem fail {f : Fault} : Declares (Emit.fail f : Emit α) known Q := nofun

theorem lift_bind {m : Except Fault α} {f : α → Emit β} (hf : ∀ x, (f x).Declares known R) :
    (liftM m >>= f : Emit β).Declares known R := by
  intro next r hr
  obtain ⟨first, second, hfirst, hsecond, rfl⟩ := bind_eq_ok_iff.mp hr
  obtain ⟨x, -, hx⟩ := OcCompiler.bind_eq_ok_iff.mp hfirst
  cases hx
  exact hf x _ _ hsecond

theorem newRegister_write {kind : RegisterKind} {i : Register → Instruction} {o : Register → Operand}
    (hdeclares : ∀ r, (i r).declares = [r]) (hreads : ∀ r, ∀ o ∈ (i r).arguments, o.Reads known)
    (ho : ∀ r, (o r).registers = [r]) :
    Declares (do let r ← newRegister kind; Emit.write (i r); return o r) known Operand.Reads := by
  intro next r hr
  obtain ⟨first, second, hfirst, hsecond, rfl⟩ := bind_eq_ok_iff.mp hr
  obtain ⟨following, hfollowing, hfirst⟩ := OcCompiler.bind_eq_ok_iff.mp hfirst
  obtain ⟨-, rfl⟩ := countUp_eq_ok_iff.mp hfollowing
  cases hfirst
  cases hsecond
  refine ⟨?_, .singleton (Instruction.registers_known (hreads _)), ?_⟩
  · simp only [List.nil_append, List.append_nil, declaredIn, List.flatMap_singleton, hdeclares]
    exact .singleton kind
  · intro r hr
    simpa [declaredIn, hdeclares, ho] using Or.inr hr

variable {c : Context} {n : NodeId}

theorem compute {value : Computation} (h : ∀ o ∈ value.operands, o.Reads known) :
    (c.compute n value).Declares known Operand.Reads :=
  .lift_bind fun _ => .newRegister_write (fun _ => rfl) (fun _ => h) fun _ => rfl

theorem address {place : Place} (h : ∀ o ∈ place.operands, o.Reads known) :
    (c.address n place).Declares known Operand.Reads :=
  .lift_bind fun _ => .newRegister_write (fun _ => rfl) (fun _ => h) fun _ => rfl

theorem forM {xs : List α} {f : α → Emit Unit}
    (h : ∀ x ∈ xs, ∀ known', known ⊆ known' → (f x).Declares known' fun _ _ => True) :
    (xs.forM f).Declares known fun _ _ => True := by
  induction xs generalizing known with
  | nil => exact .pure trivial
  | cons x xs ih =>
    obtain ⟨hx, hxs⟩ := List.forall_mem_cons.mp h
    rw [List.forM_eq_forM, List.forM_cons]
    refine .bind (hx known (List.Subset.refl known)) fun known' hsub _ _ => ih fun y hy known'' hsub' => ?_
    exact hxs y hy known'' (List.Subset.trans hsub hsub')

theorem mapM {xs : List α} {f : α → Emit Operand}
    (h : ∀ x ∈ xs, ∀ known', known ⊆ known' → (f x).Declares known' Operand.Reads) :
    (xs.mapM f).Declares known fun known os => ∀ o ∈ os, o.Reads known := by
  induction xs generalizing known with
  | nil => exact .pure (List.forall_mem_nil _)
  | cons x xs ih =>
    obtain ⟨hx, hxs⟩ := List.forall_mem_cons.mp h
    rw [List.mapM_cons]
    refine .bind (hx known (List.Subset.refl known)) fun known' hsub o ho => ?_
    refine .bind (ih fun y hy known'' hsub' => hxs y hy known'' (List.Subset.trans hsub hsub')) fun known'' hsub' os hos => .pure ?_
    exact List.forall_mem_cons.mpr ⟨ho.mono hsub', hos⟩

end Declares

end Emit

/-! ### Expressions and statements -/

namespace Context

variable {c : Context} {known : List Register}

def SlotsKnown (c : Context) (known : List Register) : Prop := ∀ s ∈ c.slots, s.2 ∈ known

theorem SlotsKnown.mono {known' : List Register} (h : c.SlotsKnown known) (hsub : known ⊆ known') : c.SlotsKnown known' :=
  fun s hs => hsub (h s hs)

theorem reads_constant (hslots : c.SlotsKnown known) (q : Constant) (text : String) : (c.constant q text).Reads known := by
  unfold constant
  split
  case h_3 =>
    cases hlookup : c.slots.lookup text with
    | none => exact Operand.reads_constant _ _ _
    | some slot =>
      obtain ⟨before, after, hmem, -⟩ := List.lookup_eq_some_iff.mp hlookup
      intro r hr
      rw [List.mem_singleton.mp hr]
      exact hslots (text, slot) (by simp [hmem])
  all_goals exact Operand.reads_constant _ _ _

theorem expr_declares (hslots : c.SlotsKnown known) (depth : Nat) (n : NodeId) :
    (c.expr depth n).Declares known Operand.Reads := by
  induction depth generalizing n known with
  | zero => exact .pure (Operand.reads_nothing known)
  | succ depth ih =>
    rw [expr]
    split
    case h_1 => exact .pure (reads_constant hslots _ _)
    case h_2 => exact .pure (Operand.reads_var known _)
    case h_3 =>
      -- The target of an assignment is the operand of the whole, so it is still read after the value is computed.
      refine .lift_bind fun left => .bind (ih hslots left) fun known₁ hsub₁ target htarget => ?_
      refine .lift_bind fun right => .bind (ih (hslots.mono hsub₁) right) fun known₂ hsub₂ value hvalue => ?_
      refine .bind (.write rfl ?_) fun known₃ hsub₃ _ _ => .pure (htarget.mono (List.Subset.trans hsub₂ hsub₃))
      exact List.forall_mem_cons.mpr ⟨htarget.mono hsub₂, List.forall_mem_singleton.mpr hvalue⟩
    case h_4 =>
      refine .lift_bind fun left => .bind (ih hslots left) fun known₁ hsub₁ x hx => ?_
      refine .lift_bind fun right => .bind (ih (hslots.mono hsub₁) right) fun known₂ hsub₂ y hy => .compute ?_
      exact List.forall_mem_cons.mpr ⟨hx.mono hsub₂, List.forall_mem_singleton.mpr hy⟩
    case h_5 =>
      refine .lift_bind fun m => .bind (ih hslots m) fun known₁ _ x hx => .compute ?_
      exact List.forall_mem_singleton.mpr hx
    case h_6 =>
      exact .lift_bind fun name => .compute (List.forall_mem_singleton.mpr (Operand.reads_constant _ _ _))
    case h_7 =>
      refine .lift_bind fun m => .bind (ih hslots m) fun known₁ _ x hx => .compute ?_
      exact List.forall_mem_singleton.mpr hx
    case h_8 =>
      refine .lift_bind fun m => .bind (ih hslots m) fun known₁ _ x hx => .lift_bind fun type => ?_
      split
      · exact .compute (List.forall_mem_singleton.mpr hx)
      · exact .fail
    case h_9 =>
      split
      · exact .fail
      refine .bind (ih hslots _) fun known₁ hsub₁ callee hcallee => ?_
      refine .bind (.mapM fun m _ known' hsub => ih (hslots.mono (List.Subset.trans hsub₁ hsub)) m) fun known₂ hsub₂ args hargs => ?_
      have hoperands : ∀ o ∈ callee :: args, o.Reads known₂ := List.forall_mem_cons.mpr ⟨hcallee.mono hsub₂, hargs⟩
      refine .lift_bind fun type => ?_
      split
      · exact .bind (.write rfl hoperands) fun known₃ _ _ _ => .pure (Operand.reads_nothing known₃)
      · exact .compute hoperands
    case h_10 =>
      refine .lift_bind fun left => .bind (ih hslots left) fun known₁ hsub₁ x hx => ?_
      refine .lift_bind fun right => .bind (ih (hslots.mono hsub₁) right) fun known₂ hsub₂ y hy => .address ?_
      exact List.forall_mem_cons.mpr ⟨hx.mono hsub₂, List.forall_mem_singleton.mpr hy⟩
    case h_11 =>
      refine .lift_bind fun object => .lift_bind fun field => .lift_bind fun type => ?_
      split
      · exact .fail
      · exact .bind (ih hslots object) fun known₁ _ x hx => .address (List.forall_mem_singleton.mpr hx)
    case h_12 => exact .fail

theorem test_declares (hslots : c.SlotsKnown known) {depth : Nat} {n : NodeId} {l : Label} {f : Emit Unit}
    (hf : ∀ known', known ⊆ known' → f.Declares known' fun _ _ => True) :
    Emit.Declares (do let x ← c.expr depth n; Emit.write (.jumpUnless x l); f) known fun _ _ => True := by
  refine .bind (expr_declares hslots depth n) fun known₁ hsub₁ x hx => ?_
  refine .bind (.write rfl (List.forall_mem_singleton.mpr hx)) fun known₂ hsub₂ _ _ => ?_
  exact hf known₂ (List.Subset.trans hsub₁ hsub₂)

theorem stmt_declares (hslots : c.SlotsKnown known) (depth : Nat) (n : NodeId) :
    (c.stmt depth n).Declares known fun _ _ => True := by
  induction depth generalizing n known with
  | zero => exact .pure trivial
  | succ depth ih =>
    have hmark (known : List Register) (i : Instruction) (hnone : i.declares = []) (hargs : i.arguments = []) :
        (Emit.write i).Declares known fun _ _ => True := .write hnone (by rw [hargs]; exact List.forall_mem_nil _)
    rw [stmt]
    split
    case h_1 => exact .forM fun s _ known' hsub => ih (hslots.mono hsub) s
    case h_2 =>
      refine .lift_bind fun decl => .lift_bind fun parts => .lift_bind fun m => ?_
      refine .bind (expr_declares hslots depth m) fun known₁ _ x hx => ?_
      dsimp only
      split
      · exact .write rfl (List.forall_mem_cons.mpr ⟨Operand.reads_var _ _, List.forall_mem_singleton.mpr hx⟩)
      · exact .lift_bind fun type => .write rfl (List.forall_mem_singleton.mpr hx)
    case h_3 =>
      refine .bind (hmark _ _ rfl rfl) fun known₁ hsub₁ _ _ => .lift_bind fun cond => ?_
      refine test_declares (hslots.mono hsub₁) fun known₂ hsub₂ => .lift_bind fun body => ?_
      refine .bind (ih ((hslots.mono hsub₁).mono hsub₂) body) fun known₃ _ _ _ => ?_
      exact .bind (hmark _ _ rfl rfl) fun known₄ _ _ _ => hmark _ _ rfl rfl
    case h_4 =>
      refine .lift_bind fun cond => test_declares hslots fun known₁ hsub₁ => .lift_bind fun yes => ?_
      exact .bind (ih (hslots.mono hsub₁) yes) fun known₂ _ _ _ => hmark _ _ rfl rfl
    case h_5 =>
      refine .lift_bind fun cond => test_declares hslots fun known₁ hsub₁ => .lift_bind fun yes => ?_
      refine .bind (ih (hslots.mono hsub₁) yes) fun known₂ hsub₂ _ _ => ?_
      refine .bind (hmark _ _ rfl rfl) fun known₃ hsub₃ _ _ => .bind (hmark _ _ rfl rfl) fun known₄ hsub₄ _ _ => ?_
      refine .lift_bind fun no => .bind (ih (hslots.mono ?_) no) fun known₅ _ _ _ => hmark _ _ rfl rfl
      exact List.Subset.trans hsub₁ (List.Subset.trans hsub₂ (List.Subset.trans hsub₃ hsub₄))
    case h_6 =>
      refine .lift_bind fun m => .bind (expr_declares hslots depth m) fun known₁ _ x hx => ?_
      exact .write rfl (List.forall_mem_singleton.mpr hx)
    case h_7 => exact hmark _ _ rfl rfl
    case h_12 => exact .bind (expr_declares hslots (depth + 1) n) fun _ _ _ _ => .pure trivial
    all_goals exact .pure trivial

theorem stmts_declares (hslots : c.SlotsKnown known) (ns : List NodeId) :
    (c.stmts ns).Declares known fun _ _ => True :=
  .forM fun n _ _ hsub => stmt_declares (hslots.mono hsub) c.tree.size n

theorem function_declares (hslots : c.SlotsKnown known) {n : NodeId} {next next' : Nat} {f : Function}
    (h : c.function n next = .ok (f, next')) :
    Numbered next (declaredIn f.body) next' ∧
      ReadsDeclared Instruction.registers Instruction.declares known f.body := by
  obtain ⟨decl, -, h⟩ := bind_eq_ok_iff.mp h
  obtain ⟨parts, -, h⟩ := bind_eq_ok_iff.mp h
  obtain ⟨paramList, -, h⟩ := bind_eq_ok_iff.mp h
  obtain ⟨body, -, h⟩ := bind_eq_ok_iff.mp h
  obtain ⟨result, -, h⟩ := bind_eq_ok_iff.mp h
  obtain ⟨params, -, h⟩ := bind_eq_ok_iff.mp h
  obtain ⟨emitted, hemitted, h⟩ := bind_eq_ok_iff.mp h
  cases h
  obtain ⟨hnumbers, hreads, -⟩ := stmts_declares hslots _ _ _ hemitted
  exact ⟨hnumbers, hreads⟩

theorem functions_declare (hslots : c.SlotsKnown known) {ns : List NodeId} {next next' : Nat} {fs : List Function}
    (h : c.functions ns next = .ok (fs, next')) :
    Numbered next ((fs.map Function.body).flatMap declaredIn) next' ∧
      ∀ f ∈ fs, ReadsDeclared Instruction.registers Instruction.declares known f.body := by
  induction ns generalizing next fs with
  | nil =>
    cases h
    exact ⟨.nil, List.forall_mem_nil _⟩
  | cons n ns ih =>
    obtain ⟨⟨f, middle⟩, hf, h⟩ := bind_eq_ok_iff.mp h
    obtain ⟨⟨rest, last⟩, hrest, h⟩ := bind_eq_ok_iff.mp h
    cases h
    obtain ⟨hnumbers, hreads⟩ := function_declares hslots hf
    obtain ⟨hnumbers', hreads'⟩ := ih hrest
    exact ⟨hnumbers.append hnumbers', List.forall_mem_cons.mpr ⟨hreads, hreads'⟩⟩

end Context

theorem numbered_stringSlots {found slots : List StringSlot} {spellings : List String} {start next next' : Nat}
    (h : stringSlots found spellings next = .ok (slots, next'))
    (hfound : Numbered start (found.map StringSlot.register) next) :
    Numbered start (slots.map StringSlot.register) next' := by
  induction spellings generalizing found next with
  | nil =>
    cases h
    exact hfound
  | cons spelling spellings ih =>
    rw [stringSlots] at h
    split at h
    · exact ih h hfound
    · obtain ⟨following, hfollowing, h⟩ := bind_eq_ok_iff.mp h
      obtain ⟨-, rfl⟩ := countUp_eq_ok_iff.mp hfollowing
      refine ih h ?_
      rw [List.map_append]
      exact hfound.append (.singleton .string)

end Oil

/-- The lines of a module's text that define registers number them, from the start up to `next`. An instruction reads only
    string slots and registers that a line before it in the same body defines. -/
structure Oil.Module.SingleAssignment (m : Module) (start next : Nat) : Prop where
  text : m.text = String.join (m.lines.map Line.text)
  defined : m.lines.filterMap Line.defined? = m.registers
  numbers : m.registers.map Register.number = List.range' start m.registers.length
  next : next = start + m.registers.length
  body : ∀ body ∈ m.bodies, body.map Instruction.line <:+: m.lines
  reads : ∀ body ∈ m.bodies, ∀ before i after, body = before ++ i :: after → ∀ r ∈ i.registers,
    r ∈ m.strings.map StringSlot.register ∨ r ∈ (before.map Instruction.line).filterMap Line.defined?

/-- In the text of an emitted module registers are defined once each, with numbers from the start on without a gap, and no
    register is read before its definition. -/
theorem Oil.Module.registers_numbered {t : Tree} {a : Analysis} {start next : Nat} {m : Module}
    (h : ofAnalysis t a start = .ok (m, next)) : m.SingleAssignment start next := by
  obtain ⟨structs, -, h⟩ := bind_eq_ok_iff.mp h
  obtain ⟨⟨strings, next₁⟩, hstrings, h⟩ := bind_eq_ok_iff.mp h
  obtain ⟨globals, -, h⟩ := bind_eq_ok_iff.mp h
  obtain ⟨⟨functions, next₂⟩, hfunctions, h⟩ := bind_eq_ok_iff.mp h
  obtain ⟨entry, hentry, h⟩ := bind_eq_ok_iff.mp h
  cases h
  have hslots : Context.SlotsKnown
      { tree := t, analysis := a, slots := strings.map fun (s : StringSlot) => (s.spelling, s.register) }
      (strings.map StringSlot.register) := by
    intro s hs
    obtain ⟨slot, hslot, rfl⟩ := List.mem_map.mp hs
    exact List.mem_map_of_mem hslot
  obtain ⟨hnumbers, hreads⟩ := Context.functions_declare hslots hfunctions
  obtain ⟨hnumbers', hreads', -⟩ := Context.stmts_declares hslots _ _ _ hentry
  have hall := (numbered_stringSlots hstrings .nil).append (hnumbers.append hnumbers')
  have hregisters : Module.registers ⟨structs, strings, globals, functions, entry.code⟩ = strings.map StringSlot.register ++
      ((functions.map Function.body).flatMap declaredIn ++ declaredIn entry.code) := by
    simp [Module.registers, Module.bodies]
  rw [← hregisters] at hall
  refine ⟨(text_lines _).symm, filterMap_lines _, hall.numbers, hall.last, fun body => lines_infix, ?_⟩
  rintro body hbody before i after rfl r hr
  have hbody' : ReadsDeclared Instruction.registers Instruction.declares (strings.map StringSlot.register)
      (before ++ i :: after) := by
    rcases List.mem_append.mp hbody with hbody | hbody
    · obtain ⟨f, hf, hbody⟩ := List.mem_map.mp hbody
      exact hbody ▸ hreads f hf
    · exact List.mem_singleton.mp hbody ▸ hreads'
  rw [filterMap_line]
  exact hbody'.mem_or_mem hr

/-- A string slot, an address in a function, and a call behind it. -/
theorem Oil.Module.registers_numbered_program :
    ∃ t a m, ofAnalysis t a 7 = .ok (m, 11) ∧ m.SingleAssignment 7 11 ∧
      m.text = "char* s7 = \"a\";\nint __n;\nint __f (\n        char* _1_s)\n\x7b\n        char* a8 = &_1_s[0];\n" ++
        "        int i9 = (int) (*a8);\n        return i9;\n\x7d\nvoid __ocmain (void)\n\x7b\n" ++
        "        int i10 = __f (s7);\n        __n = i10;\n\x7d\n" ∧
      (m.lines.filterMap Line.defined?).map Register.text = ["s7", "a8", "i9", "i10"] := by
  have hrun : Tree.passes "int f(string s) \x7b return ord s[0]; \x7d int n = f(\"a\");" (fun s t =>
      (ofAnalysis t (Program.analyze (Program.ofTokens s.tokens).items #[]) 7).toOption.any fun (m, next) =>
        next = 11 ∧
        m.text = "char* s7 = \"a\";\nint __n;\nint __f (\n        char* _1_s)\n\x7b\n        char* a8 = &_1_s[0];\n" ++
          "        int i9 = (int) (*a8);\n        return i9;\n\x7d\nvoid __ocmain (void)\n\x7b\n" ++
          "        int i10 = __f (s7);\n        __n = i10;\n\x7d\n" ∧
        (m.lines.filterMap Line.defined?).map Register.text = ["s7", "a8", "i9", "i10"]) = true := by
    decide +kernel
  obtain ⟨s, root, t, -, -, hrun⟩ := Tree.exists_of_passes hrun
  obtain ⟨⟨m, next⟩, hm, hresult⟩ := (Option.any_eq_true _ _).mp hrun
  obtain ⟨rfl, htext, hnames⟩ := of_decide_eq_true hresult
  have hm := eq_ok_of_toOption hm
  exact ⟨t, _, m, hm, registers_numbered hm, htext, hnames⟩

end OcCompiler
