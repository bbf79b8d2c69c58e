import OcCompiler.Compilation
import OcCompiler.Proofs.Lowering
import OcCompiler.Proofs.Queues

/-! Compiling a text meets no fault other than the overflow of a counter. The tree has the shape that every phase expects,
    and what a program without complaints leaves at its nodes is all that emission asks for. -/

namespace OcCompiler

/-! ### Work that can only overflow -/

def OnlyOverflows {α : Type} (m : Except Fault α) : Prop := ∀ f, m = .error f → f = .counterOverflow

namespace OnlyOverflows

variable {α β : Type}

theorem ok (x : α) : OnlyOverflows (.ok x) := by
  intro f h
  cases h

theorem countUp (n : Nat) : OnlyOverflows (countUp n) := by
  intro f h
  unfold OcCompiler.countUp at h
  split at h
  · cases h
  · cases h
    rfl

theorem bind {m : Except Fault α} {f : α → Except Fault β} (hm : OnlyOverflows m) (hf : ∀ x, OnlyOverflows (f x)) :
    OnlyOverflows (m >>= f) := by
  cases m with
  | ok x => exact hf x
  | error e =>
    intro f h
    cases h
    exact hm _ rfl

theorem map {m : Except Fault α} (hm : OnlyOverflows m) (f : α → β) : OnlyOverflows (m.map f) := by
  cases m with
  | ok x => exact ok _
  | error e =>
    intro f h
    cases h
    exact hm _ rfl

theorem foldlM {f : β → α → Except Fault β} (hf : ∀ b x, OnlyOverflows (f b x)) (xs : List α) (b : β) :
    OnlyOverflows (xs.foldlM f b) := by
  induction xs generalizing b with
  | nil => exact ok b
  | cons x xs ih =>
    rw [List.foldlM_cons]
    exact (hf b x).bind fun b => ih b

theorem mapM {f : α → Except Fault β} {xs : List α} (h : ∀ x ∈ xs, OnlyOverflows (f x)) : OnlyOverflows (xs.mapM f) := by
  induction xs with
  | nil => exact ok _
  | cons x xs ih =>
    obtain ⟨hx, hxs⟩ := List.forall_mem_cons.mp h
    rw [List.mapM_cons]
    exact hx.bind fun _ => (ih hxs).bind fun _ => ok _

end OnlyOverflows

open Oil

variable {items : List Item} {log : Log} {t : Tree}

namespace Oil

def Instruction.declares : Instruction → List Register
  | .compute _ r _ | .address _ r _ => [r]
  | _ => []

/-- No register that some code fills has a number that is too large for the counter. -/
def Counted (code : List Instruction) : Prop := ∀ i ∈ code, ∀ r ∈ i.declares, r.number < counterMax

instance : DecidablePred Counted :=
  fun code => inferInstanceAs (Decidable (∀ i ∈ code, ∀ r ∈ i.declares, r.number < counterMax))

@[simp] theorem counted_nil : Counted [] := List.forall_mem_nil _

@[simp] theorem counted_append {code code' : List Instruction} : Counted (code ++ code') ↔ Counted code ∧ Counted code' :=
  List.forall_mem_append

@[simp] theorem counted_cons {i : Instruction} {code : List Instruction} :
    Counted (i :: code) ↔ (∀ r ∈ i.declares, r.number < counterMax) ∧ Counted code :=
  List.forall_mem_cons

/-- The computation yields what `f` says, unless a register in that has no number. -/
def Emit.Yields {α : Type} (m : Emit α) (f : Nat → Emitted α) : Prop :=
  ∀ next, m next = if Counted (f next).code then .ok (f next) else .error .counterOverflow

namespace Emit.Yields

variable {α β : Type} {m : Emit α} {f f' : Nat → Emitted α} {next : Nat} {r : Emitted α}

theorem of_eq (h : m.Yields f) (heq : ∀ next, f next = f' next) : m.Yields f' := funext heq ▸ h

theorem pure (x : α) : Yields (pure x) (⟨x, [], ·⟩) := fun _ => (if_pos counted_nil).symm

theorem write {i : Instruction} (h : i.declares = []) : Yields (write i) (⟨(), [i], ·⟩) := by
  intro next
  exact (if_pos (by simp [Counted, h])).symm

theorem bind {g : α → Emit β} {h : α → Nat → Emitted β} (hm : m.Yields f) (hg : ∀ x, (g x).Yields (h x)) :
    (m >>= g).Yields fun next => ⟨(h (f next).value (f next).next).value,
      (f next).code ++ (h (f next).value (f next).next).code, (h (f next).value (f next).next).next⟩ := by
  intro next
  show (m next >>= fun first => _) = _
  rw [hm next]
  simp only [counted_append]
  by_cases hfirst : Counted (f next).code
  · rw [if_pos hfirst, ok_bind, hg]
    by_cases hsecond : Counted (h (f next).value (f next).next).code
    · rw [if_pos hsecond, if_pos ⟨hfirst, hsecond⟩]
      rfl
    · rw [if_neg hsecond, if_neg fun hboth => hsecond hboth.2]
      rfl
  · rw [if_neg hfirst, if_neg fun hboth => hfirst hboth.1]
    rfl

theorem write_bind {i : Instruction} (h : i.declares = []) (hm : m.Yields f) :
    (Emit.write i >>= fun _ => m).Yields fun next => ⟨(f next).value, i :: (f next).code, (f next).next⟩ :=
  (write h).bind fun _ => hm

theorem newRegister_write {kind : RegisterKind} {i : Register → Instruction} {o : Register → Operand}
    (h : ∀ r, (i r).declares = [r]) :
    Yields (do let r ← newRegister kind; Emit.write (i r); return o r)
      fun next => ⟨o ⟨kind, next⟩, [i ⟨kind, next⟩], next + 1⟩ := by
  intro next
  have hcounted : Counted [i ⟨kind, next⟩] ↔ next < counterMax := by simp [Counted, h]
  show (newRegister kind next >>= fun first => _) = _
  rw [newRegister, countUp]
  simp only [hcounted]
  split <;> rfl

theorem overflows (h : m.Yields f) (next : Nat) : OnlyOverflows (m next) := by
  rw [h next]
  split
  · exact .ok _
  · rintro _ ⟨⟩
    rfl

theorem eq_of_ok (h : m.Yields f) (hr : m next = .ok r) : r = f next ∧ Counted (f next).code := by
  rw [h next] at hr
  split at hr
  · rename_i hcounted
    cases hr
    exact ⟨rfl, hcounted⟩
  · cases hr

theorem eq_ok (h : m.Yields f) (hcounted : Counted (f next).code) : m next = .ok (f next) := by rw [h next, if_pos hcounted]

end Emit.Yields

end Oil

/-! ### What is emitted where nothing fails -/

namespace Oil

def Storage.ofElement : ValueType → Storage
  | .array b => .ofBase b
  | other => .ofType other

/-- What is emitted for expressions. -/
def Instruction.Working : Instruction → Prop
  | .assign .. | .compute .. | .address .. | .perform .. => True
  | _ => False

namespace Context

variable (c : Context) (n : NodeId)

/-- The type that was found for a node. -/
def found : ValueType := (c.analysis.typeOf n).getD .null

/-- Fills a new register behind some code. -/
@[simp] def computed (value : Computation) (code : List Instruction) (next : Nat) : Emitted Operand :=
  ⟨.register ⟨.ofType (c.found n), next⟩,
    code ++ [.compute (.ofType (c.found n)) ⟨.ofType (c.found n), next⟩ value], next + 1⟩

/-- Takes an address behind some code. -/
@[simp] def addressed (place : Place) (code : List Instruction) (next : Nat) : Emitted Operand :=
  ⟨.pointee ⟨.address, next⟩, code ++ [.address (.ofType (c.found n)) ⟨.address, next⟩ place], next + 1⟩

variable {c n} {τ : ValueType}

theorem found_eq (h : c.analysis.typeOf n = some τ) : c.found n = τ := by rw [found, h, Option.getD_some]

end Context

end Oil

namespace Expr

mutual

/-- The code of an expression whose first node has number `k`, and the operand that stands for its value. Registers are
    numbered from `next` on. -/
def emitted (c : Context) (k next : Nat) : Expr → Emitted Operand
  | .name x => ⟨.var (c.variableAt ⟨k⟩ x), [], next⟩
  | .constant q lexeme => ⟨c.constant q lexeme.text, [], next⟩
  | .unary op mark e =>
    let x := e.emitted c (k + 1) next
    c.computed ⟨k⟩ (.unary op (Context.unarySpelling op mark.text) x.value) x.code x.next
  | .binary op left mark right =>
    let x := left.emitted c k next
    let y := right.emitted c (k + left.size + 1) x.next
    if op = .assign then ⟨x.value, x.code ++ y.code ++ [.assign x.value y.value], y.next⟩
    else c.computed ⟨k + left.size⟩ (.binary op mark.text x.value y.value) (x.code ++ y.code) y.next
  | .call callee _ args =>
    let xs := emittedAll c (k + 2) next args
    let f : Operand := .var (c.variableAt ⟨k⟩ callee)
    if (c.found ⟨k + 1⟩).isVoid then ⟨.nothing, xs.code ++ [.perform f xs.value], xs.next⟩
    else c.computed ⟨k + 1⟩ (.call f xs.value) xs.code xs.next
  | .index base _ subscript =>
    let x := base.emitted c k next
    let y := subscript.emitted c (k + base.size + 1) x.next
    c.addressed ⟨k + base.size⟩ (.element x.value y.value) (x.code ++ y.code) y.next
  | .select object _ field =>
    let x := object.emitted c k next
    c.addressed ⟨k + object.size⟩ (.field x.value ((c.found (object.topNode k)).structTag?.getD "") field.text) x.code x.next
  | .newStruct _ tag => c.computed ⟨k⟩ (.allocate (.constant (.literal .int) "1") (.struct tag.text)) [] next
  | .newString _ count =>
    let x := count.emitted c (k + 1) next
    c.computed ⟨k⟩ (.allocate x.value .char) x.code x.next
  | .newArray _ _ count =>
    let x := count.emitted c (k + 2) next
    c.computed ⟨k + 1⟩ (.allocate x.value (.ofElement (c.found ⟨k + 1⟩))) x.code x.next

def emittedAll (c : Context) (k next : Nat) : List Expr → Emitted (List Operand)
  | [] => ⟨[], [], next⟩
  | e :: es =>
    let first := e.emitted c k next
    let rest := emittedAll c (k + e.size) first.next es
    ⟨first.value :: rest.value, first.code ++ rest.code, rest.next⟩

end

variable {c : Context}

mutual

theorem working_emitted (e : Expr) (k next : Nat) : ∀ i ∈ (e.emitted c k next).code, i.Working := by
  cases e with
  | name | constant | newStruct => simp [emitted, Instruction.Working]
  | unary _ _ e | select e | newString _ e | newArray _ _ e =>
    simpa [emitted, or_imp, forall_and, Instruction.Working] using working_emitted e _ next
  | binary op left mark right =>
    have hleft := working_emitted left k next
    have hright := working_emitted right (k + left.size + 1) (left.emitted c k next).next
    rw [emitted]
    split <;> simpa [or_imp, forall_and, Instruction.Working] using ⟨hleft, hright⟩
  | call callee paren args =>
    have hargs := working_emittedAll args (k + 2) next
    rw [emitted]
    split <;> simpa [or_imp, forall_and, Instruction.Working] using hargs
  | index base bracket subscript =>
    have hbase := working_emitted base k next
    have hsubscript := working_emitted subscript (k + base.size + 1) (base.emitted c k next).next
    simpa [emitted, or_imp, forall_and, Instruction.Working] using ⟨hbase, hsubscript⟩

theorem working_emittedAll (es : List Expr) (k next : Nat) : ∀ i ∈ (emittedAll c k next es).code, i.Working := by
  match es with
  | [] => simp [emittedAll]
  | e :: es =>
    have hfirst := working_emitted e k next
    have hrest := working_emittedAll es (k + e.size) (e.emitted c k next).next
    simpa [emittedAll, or_imp, forall_and] using ⟨hfirst, hrest⟩

end

end Expr

namespace Stmt

mutual

/-- The code of a statement whose first node has number `k`, with registers from `next` on. -/
def emitted (c : Context) (k next : Nat) : Stmt → Emitted Unit
  | .block _ body => emittedAll c (k + 1) next body
  | .empty _ => ⟨(), [], next⟩
  | .varDecl d _ init =>
    let x := init.emitted c (k + d.size + 1) next
    let v := c.variableAt ⟨k + 1⟩ d.name
    let i := if v.block = globalBlock then Instruction.assign (.var v) x.value
      else .declare (.ofType (c.found ⟨k + 1⟩)) v x.value
    ⟨(), x.code ++ [i], x.next⟩
  | .whileLoop mark cond body =>
    let test := cond.emitted c (k + 1) next
    let inner := body.emitted c (k + 1 + cond.size) test.next
    ⟨(), .label ⟨.loop, mark.loc⟩ :: (test.code ++ .jumpUnless test.value ⟨.exit, mark.loc⟩ ::
      (inner.code ++ [.jump ⟨.loop, mark.loc⟩, .label ⟨.exit, mark.loc⟩])), inner.next⟩
  | .ifThen mark cond yes =>
    let test := cond.emitted c (k + 1) next
    let inner := yes.emitted c (k + 1 + cond.size) test.next
    ⟨(), test.code ++ .jumpUnless test.value ⟨.join, mark.loc⟩ :: (inner.code ++ [.label ⟨.join, mark.loc⟩]), inner.next⟩
  | .ifElse mark cond yes no =>
    let test := cond.emitted c (k + 1) next
    let inner := yes.emitted c (k + 1 + cond.size) test.next
    let other := no.emitted c (k + 1 + cond.size + yes.size) inner.next
    ⟨(), test.code ++ .jumpUnless test.value ⟨.otherwise, mark.loc⟩ ::
      (inner.code ++ .jump ⟨.join, mark.loc⟩ :: .label ⟨.otherwise, mark.loc⟩ ::
        (other.code ++ [.label ⟨.join, mark.loc⟩])), other.next⟩
  | .returnValue _ value =>
    let x := value.emitted c (k + 1) next
    ⟨(), x.code ++ [.returnValue x.value], x.next⟩
  | .returnVoid _ => ⟨(), [.returnVoid], next⟩
  | .expr e => ⟨(), (e.emitted c k next).code, (e.emitted c k next).next⟩

def emittedAll (c : Context) (k next : Nat) : List Stmt → Emitted Unit
  | [] => ⟨(), [], next⟩
  | s :: ss =>
    let first := s.emitted c k next
    let rest := emittedAll c (k + s.size) first.next ss
    ⟨(), first.code ++ rest.code, rest.next⟩

end

/-- The code of statements that stand apart. -/
def emittedEach (c : Context) (next : Nat) : List (Nat × Stmt) → Emitted Unit
  | [] => ⟨(), [], next⟩
  | p :: ps =>
    let first := p.2.emitted c p.1 next
    let rest := emittedEach c first.next ps
    ⟨(), first.code ++ rest.code, rest.next⟩

end Stmt

section Lowering

variable {c : Context}

namespace Oil.Context

variable {n : NodeId} {τ : ValueType}

theorem typeOf_of_settled (h : c.analysis.typeOf n = some τ) : c.typeOf n = .ok τ := by
  rw [typeOf, h]

theorem compute_yields (h : ∃ τ, c.analysis.typeOf n = some τ) (value : Computation) :
    (c.compute n value).Yields (c.computed n value []) := by
  obtain ⟨τ, h⟩ := h
  unfold compute
  rw [typeOf_of_settled h, Emit.liftM_ok, pure_bind]
  exact (Emit.Yields.newRegister_write fun _ => rfl).of_eq fun next => by simp [found_eq h]

theorem address_yields (h : ∃ τ, c.analysis.typeOf n = some τ) (place : Place) :
    (c.address n place).Yields (c.addressed n place []) := by
  obtain ⟨τ, h⟩ := h
  unfold address
  rw [typeOf_of_settled h, Emit.liftM_ok, pure_bind]
  exact (Emit.Yields.newRegister_write fun _ => rfl).of_eq fun next => by simp [found_eq h]

end Oil.Context

mutual

theorem Expr.lower_yields (e : Expr) {k : Nat} (h : e.Settled c.analysis k) : (e.lower c k).Yields (e.emitted c k ·) := by
  cases e with
  | name | constant =>
    rw [lower]
    exact (Emit.Yields.pure _).of_eq fun next => by rw [emitted]
  | unary op mark e | newString mark e =>
    rw [Settled] at h
    rw [lower]
    refine ((Expr.lower_yields e h.1).bind fun x => Context.compute_yields h.2 _).of_eq fun next => ?_
    simp [emitted]
  | binary op left mark right =>
    rw [Settled] at h
    rw [lower]
    have hleft := Expr.lower_yields left h.1
    have hright := Expr.lower_yields right h.2.1
    cases op with
    | assign =>
      refine (hleft.bind fun x => hright.bind fun y => .write_bind rfl (.pure x)).of_eq fun next => ?_
      simp [emitted]
    | compare | arith =>
      refine (hleft.bind fun x => hright.bind fun y => Context.compute_yields h.2.2.1 _).of_eq fun next => ?_
      simp [emitted]
  | call callee paren args =>
    rw [Settled] at h
    obtain ⟨-, hargs, τ, hτ, -⟩ := h
    have hargs := Expr.lowerAll_yields args hargs
    rw [lower, Context.typeOf_of_settled hτ, Emit.liftM_ok]
    simp only [pure_bind, emitted, Context.found_eq hτ]
    split
    · refine (hargs.bind fun values => .write_bind rfl (.pure _)).of_eq fun next => ?_
      simp
    · refine (hargs.bind fun values => Context.compute_yields ⟨τ, hτ⟩ _).of_eq fun next => ?_
      simp
  | index base bracket subscript =>
    rw [Settled] at h
    rw [lower]
    refine ((Expr.lower_yields base h.1).bind fun x => (Expr.lower_yields subscript h.2.1).bind fun y =>
      Context.address_yields h.2.2 _).of_eq fun next => ?_
    simp [emitted]
  | select object dot field =>
    rw [Settled] at h
    obtain ⟨hobject, ⟨tag, htag⟩, hτ⟩ := h
    rw [lower, Context.typeOf_of_settled htag, Emit.liftM_ok, pure_bind]
    refine ((Expr.lower_yields object hobject).bind fun x => Context.address_yields hτ _).of_eq fun next => ?_
    simp [emitted, Context.found_eq htag, ValueType.structTag?]
  | newStruct mark tag =>
    rw [Settled] at h
    rw [lower]
    exact (Context.compute_yields h _).of_eq fun next => by rw [emitted]
  | newArray element mark count =>
    rw [Settled] at h
    obtain ⟨hcount, hτ⟩ := h
    rw [lower, Context.typeOf_of_settled hτ, Emit.liftM_ok]
    simp only [pure_bind]
    refine ((Expr.lower_yields count hcount).bind fun x => Context.compute_yields ⟨_, hτ⟩ _).of_eq fun next => ?_
    simp [emitted, Context.found_eq hτ, Storage.ofElement]

theorem Expr.lowerAll_yields (es : List Expr) {k : Nat} (h : SettledAll c.analysis k es) :
    (lowerAll c k es).Yields (emittedAll c k · es) := by
  match es with
  | [] =>
    rw [lowerAll]
    exact (Emit.Yields.pure _).of_eq fun next => by rw [emittedAll]
  | e :: es =>
    rw [SettledAll] at h
    rw [lowerAll]
    refine ((Expr.lower_yields e h.1).bind fun x => (Expr.lowerAll_yields es h.2).bind fun xs => .pure _).of_eq fun next => ?_
    simp [emittedAll]

end

mutual

theorem Stmt.lower_yields (s : Stmt) {k : Nat} (h : s.Settled c.analysis k) : (s.lower c k).Yields (s.emitted c k ·) := by
  cases s with
  | block brace body =>
    rw [Settled] at h
    rw [lower]
    exact (Stmt.lowerAll_yields body h).of_eq fun next => by rw [emitted]
  | empty semicolon =>
    rw [lower]
    exact (Emit.Yields.pure _).of_eq fun next => by rw [emitted]
  | varDecl d equals init =>
    rw [Settled] at h
    obtain ⟨⟨-, hτ⟩, hinit⟩ := h
    rw [lower, Context.typeOf_of_settled hτ, Emit.liftM_ok]
    simp only [pure_bind, emitted, Context.found_eq hτ]
    split <;> exact (init.lower_yields hinit).bind fun value => .write rfl
  | whileLoop mark cond body =>
    rw [Settled] at h
    rw [lower]
    refine (Emit.Yields.write_bind rfl ((cond.lower_yields h.1).bind fun x => .write_bind rfl
      ((Stmt.lower_yields body h.2).bind fun _ => .write_bind rfl (.write rfl)))).of_eq fun next => ?_
    simp [emitted]
  | ifThen mark cond yes =>
    rw [Settled] at h
    rw [lower]
    refine ((cond.lower_yields h.1).bind fun x => .write_bind rfl
      ((Stmt.lower_yields yes h.2).bind fun _ => .write rfl)).of_eq fun next => ?_
    simp [emitted]
  | ifElse mark cond yes no =>
    rw [Settled] at h
    rw [lower]
    refine ((cond.lower_yields h.1).bind fun x => .write_bind rfl ((Stmt.lower_yields yes h.2.1).bind fun _ =>
      .write_bind rfl (.write_bind rfl ((Stmt.lower_yields no h.2.2).bind fun _ => .write rfl)))).of_eq fun next => ?_
    simp [emitted]
  | returnValue mark value =>
    rw [Settled] at h
    rw [lower]
    exact ((value.lower_yields h).bind fun x => .write rfl).of_eq fun next => by rw [emitted]
  | returnVoid mark =>
    rw [lower]
    exact (Emit.Yields.write rfl).of_eq fun next => by rw [emitted]
  | expr e =>
    rw [Settled] at h
    rw [lower]
    refine ((e.lower_yields h).bind fun _ => .pure ()).of_eq fun next => ?_
    simp [emitted]

theorem Stmt.lowerAll_yields (ss : List Stmt) {k : Nat} (h : SettledAll c.analysis k ss) :
    (lowerAll c k ss).Yields (emittedAll c k · ss) := by
  match ss with
  | [] =>
    rw [lowerAll]
    exact (Emit.Yields.pure _).of_eq fun next => by rw [emittedAll]
  | s :: ss =>
    rw [SettledAll] at h
    rw [lowerAll]
    exact ((Stmt.lower_yields s h.1).bind fun _ => Stmt.lowerAll_yields ss h.2).of_eq fun next => by rw [emittedAll]

end

theorem Stmt.forM_yields {ps : List (Nat × Stmt)} (h : ∀ p ∈ ps, p.2.Settled c.analysis p.1) :
    (ps.forM fun p => p.2.lower c p.1).Yields (emittedEach c · ps) := by
  rw [List.forM_eq_forM]
  induction ps with
  | nil => exact .pure _
  | cons p ps ih =>
    obtain ⟨hp, hps⟩ := List.forall_mem_cons.mp h
    rw [List.forM_cons]
    exact (p.2.lower_yields hp).bind fun _ => ih hps

end Lowering

section Declarations

variable {c : Context} {k : Nat} {ds : List Decl}

theorem Decl.SettledAll.lowerParams_overflows (h : SettledAll c.analysis k ds) :
    OnlyOverflows (forEach (lowerParam c) k ds) := by
  induction ds generalizing k with
  | nil => exact .ok _
  | cons d ds ih =>
    rw [forEach, lowerParam, Context.typeOf_of_settled h.1.2]
    exact (ih h.2).bind fun _ => .ok _

theorem Decl.FieldsSettled.lowerFields_overflows (h : FieldsSettled c.analysis k ds) :
    OnlyOverflows (forEach (lowerField c) k ds) := by
  induction ds generalizing k with
  | nil => exact .ok _
  | cons d ds ih =>
    rw [forEach, lowerField, Context.typeOf_of_settled h.1.2]
    exact (ih h.2).bind fun _ => .ok _

theorem structRecord_overflows : Item.HoldsOfStructs c.tree c.analysis fun n => OnlyOverflows (c.structRecord n) := by
  intro p k mark tag fields hshows hsettled
  rw [structRecord_eq_lower hshows]
  exact hsettled.lowerFields_overflows.bind fun _ => .ok _

theorem globalVariable_overflows : HoldsOfDecls c.tree c.analysis fun n => OnlyOverflows (c.globalVariable n) := by
  intro p k d equals init hshows hsettled
  rw [globalVariable_eq_lower hshows, Context.typeOf_of_settled hsettled.2]
  exact .ok _

theorem lowerFunction_overflows {d : Decl} {paren brace : Lexeme} {params : List Decl} {body : List Stmt}
    (h : (Item.function d paren params brace body).Settled c.analysis k) (next : Nat) :
    OnlyOverflows (Item.lowerFunction c k d params body next) := by
  obtain ⟨hτ, hparams, hbody⟩ := h
  unfold Item.lowerFunction
  rw [Context.typeOf_of_settled hτ, ok_bind]
  exact hparams.lowerParams_overflows.bind fun _ => ((Stmt.lowerAll_yields body hbody).overflows next).bind fun _ => .ok _

theorem functions_overflow {ns : List NodeId} (h : ∀ n ∈ ns, ∀ next, OnlyOverflows (c.function n next)) (next : Nat) :
    OnlyOverflows (c.functions ns next) := by
  induction ns generalizing next with
  | nil => exact .ok _
  | cons n ns ih =>
    obtain ⟨hn, hns⟩ := List.forall_mem_cons.mp h
    rw [Context.functions]
    exact (hn next).bind fun first => (ih hns first.2).bind fun _ => .ok _

theorem stringSlots_overflows (found : List StringSlot) (spellings : List String) (next : Nat) :
    OnlyOverflows (stringSlots found spellings next) := by
  induction spellings generalizing found next with
  | nil => exact .ok _
  | cons spelling spellings ih =>
    rw [stringSlots]
    split
    · exact ih _ _
    · exact (OnlyOverflows.countUp next).bind fun following => ih _ _

end Declarations

theorem Oil.Module.ofAnalysis_overflows {a : Analysis}
    (hshows : t.Shows none 0 (Program.sapling items)) (hsize : t.size = (Program.sapling items).size)
    (hsettled : Item.SettledAll a 1 items)
    (hstructs : ∀ n ∈ a.queues.structs, OnlyOverflows (Context.structRecord { tree := t, analysis := a } n))
    (hglobals : ∀ n ∈ a.queues.globals, OnlyOverflows (Context.globalVariable { tree := t, analysis := a } n))
    (hfunctions : a.queues.functions.toList =
      ((Item.placed 1 items).filter (·.2.isFunction)).map fun p => p.2.topNode p.1) (start : Nat) :
    OnlyOverflows (Module.ofAnalysis t a start) := by
  obtain ⟨hnode, hitems⟩ := Tree.shows_root.mp hshows
  rw [Item.tops_saplings] at hnode
  have hdepth := (Program.sapling items).depth_le_size
  rw [← hsize, Program.sapling, Sapling.depth, Sapling.depths] at hdepth
  unfold Module.ofAnalysis
  refine (OnlyOverflows.mapM fun n hn => hstructs n (Array.mem_toList_iff.mp hn)).bind fun structs => ?_
  refine (stringSlots_overflows _ _ _).bind fun strings => ?_
  refine (OnlyOverflows.mapM fun n hn => hglobals n (Array.mem_toList_iff.mp hn)).bind fun globals => ?_
  dsimp only
  refine (functions_overflow (fun n hn next => ?_) _).bind fun functions => ?_
  · rw [hfunctions, List.mem_map] at hn
    obtain ⟨⟨j, i⟩, hi, rfl⟩ := hn
    obtain ⟨hi, hfunction⟩ := List.mem_filter.mp hi
    have hbelow := Item.depth_le_of_mem_placed hi
    have hshown := Item.shows_of_mem_placed hitems hi
    have hdone := Item.settled_of_mem_placed hsettled hi
    cases i with
    | function d paren params brace body =>
      rw [function_eq_lower hshown ?_]
      · exact lowerFunction_overflows hdone next
      · simp only [Item.sapling, Stmt.sapling, Sapling.depth, Sapling.depths] at hbelow
        dsimp only
        omega
    | struct | prototype | stmt => cases hfunction
  · refine OnlyOverflows.bind ?_ fun entry => .ok _
    rw [Context.entryStmts, Tree.children, hnode, entryStmts_eq_lower items hitems (by dsimp only; omega)]
    refine (Stmt.forM_yields fun p hp => ?_).overflows _
    obtain ⟨j, i, hi, s, hs, rfl⟩ := Item.mem_entry_iff.mp hp
    have hdone := Item.settled_of_mem_placed hsettled hi
    subst hs
    exact hdone

theorem Oil.Module.ofAnalysis_parse_overflows {tokens : List Token} {n : NodeId}
    (h : Tree.empty.parse tokens = (.ok n, t))
    (hquiet : (Program.analyze (Program.ofTokens tokens).items log).log = log) (start : Nat) :
    OnlyOverflows (Module.ofAnalysis t (Program.analyze (Program.ofTokens tokens).items log) start) := by
  obtain ⟨-, hshows, hsize⟩ := Tree.parse_shows h
  obtain ⟨-, hitems⟩ := Tree.shows_root.mp hshows
  obtain ⟨hsettled, -⟩ := Program.settled_of_quiet hquiet
  refine ofAnalysis_overflows hshows hsize hsettled ?_ ?_ ?_ start
  · exact Item.structs_analyzeAll (structRecord_overflows (c := { tree := t, analysis := Program.analyze _ log })) _ hitems
      hsettled (by simp)
  · exact Item.globals_analyzeAll (globalVariable_overflows (c := { tree := t, analysis := Program.analyze _ log })) _ hitems
      hsettled (by simp)
  · rw [Program.analyze, Item.functions_analyzeAll, Analysis.queues_place]
    rfl

theorem Program.eq_empty_of_log_analyze (h : (Program.analyze items log).log = #[]) :
    log = #[] := by
  have hlog := Program.prefix_log_analyze items log
  rw [h] at hlog
  exact Array.toList_inj.mp (List.prefix_nil.mp hlog)

theorem TokenStream.ofText_overflows (name text : String) : OnlyOverflows (TokenStream.ofText name text) := by
  have hpast (loc : Location) (ch : Char) : OnlyOverflows (loc.past ch) := by
    unfold Location.past
    split
    · exact (OnlyOverflows.countUp _).map _
    · exact (OnlyOverflows.countUp _).map _
  have hplace (pieces : List Piece) (loc : Location) : OnlyOverflows (TokenStream.place loc pieces) := by
    induction pieces generalizing loc with
    | nil => exact .ok _
    | cons p ps ih =>
      have hfinish : OnlyOverflows (p.finish loc) := by
        unfold Piece.finish
        split
        · exact (OnlyOverflows.foldlM hpast p.text loc).map _
        · rintro f ⟨⟩
          rfl
      rw [TokenStream.place]
      exact hfinish.bind fun next => (ih next).bind fun _ => .ok _
  exact (hplace _ _).bind fun _ => .ok _

namespace Compilation

variable {tokens : TokenStream} {e : SyntaxError} {t : Tree}

theorem parse_eq_ok (h : parse tokens = .ok t) :
    ∃ n, Tree.empty.parse tokens.tokens = (.ok n, t) := by
  unfold parse at h
  split at h
  · rename_i n u hread
    cases h
    exact ⟨n, hread⟩
  · cases h

theorem unexpected_of_parse (h : parse tokens = .error e) :
    ∃ expected found, e.error = .unexpected expected found := by
  unfold parse at h
  split at h
  · cases h
  · rename_i e' u hread
    cases h
    exact Tree.unexpected_of_parse hread

theorem oilOf_overflows {tokens : List Token} {n : NodeId} {log : Log}
    (h : Tree.empty.parse tokens = (.ok n, t)) :
    OnlyOverflows (oilOf t (Program.analyze (Program.ofTokens tokens).items log)) := by
  unfold oilOf
  split
  · rename_i hempty
    have hlog := Array.isEmpty_iff.mp hempty
    exact (Module.ofAnalysis_parse_overflows h (hlog.trans (Program.eq_empty_of_log_analyze hlog).symm) 1).bind
      fun _ => .ok _
  · exact .ok _

theorem ofText_overflows (name text : String) (last : Phase) : OnlyOverflows (ofText name text last) := by
  refine (TokenStream.ofText_overflows name text).bind fun tokens => ?_
  split
  · exact .ok _
  · split
    · exact .ok _
    · rename_i tree hparse
      obtain ⟨n, hread⟩ := parse_eq_ok hparse
      split
      · exact .ok _
      · rw [Analysis.ofTree_parse hread, ok_bind]
        dsimp only
        split
        · exact .ok _
        · exact (oilOf_overflows hread).bind fun oil => .ok _

theorem unexpected_of_ofText {name text : String} {last : Phase} {c : Compilation}
    (h : ofText name text last = .ok c) (he : c.syntaxError? = some e) :
    ∃ expected found, e.error = .unexpected expected found := by
  unfold ofText at h
  cases hlex : TokenStream.ofText name text with
  | error f =>
    rw [hlex] at h
    cases h
  | ok tokens =>
    rw [hlex, ok_bind] at h
    split at h
    · cases h
      cases he
    · split at h
      · rename_i e' hparse
        cases h
        cases he
        exact unexpected_of_parse hparse
      · rename_i tree hparse
        obtain ⟨n, hread⟩ := parse_eq_ok hparse
        split at h
        · cases h
          cases he
        · rw [Analysis.ofTree_parse hread, ok_bind] at h
          dsimp only at h
          split at h
          · cases h
            cases he
          · generalize oilOf tree _ = oil at h
            cases oil with
            | error f => cases h
            | ok oil =>
              cases h
              cases he

/-- Every text compiles, up to any phase, unless a counter runs out of numbers. If it has a syntax error, that is a token
    that was not expected and never a tree that could not be built. -/
theorem ofText_faultless (name text : String) (last : Phase) :
    ofText name text last = .error .counterOverflow ∨
      ∃ c, ofText name text last = .ok c ∧
        ∀ e, c.syntaxError? = some e → ∃ expected found, e.error = .unexpected expected found := by
  cases h : ofText name text last with
  | error f =>
    obtain rfl := ofText_overflows name text last f h
    exact .inl rfl
  | ok c => exact .inr ⟨c, rfl, fun e he => unexpected_of_ofText h he⟩

end Compilation

end OcCompiler
