import OcCompiler.Proofs.Registers
import OcCompiler.Proofs.StringSlots

/-! Where the numbers of registers start. Emission that starts at another number gives the same module with every
    register moved by the difference, and nothing else. -/

namespace OcCompiler

open Oil

namespace Oil

def Register.renumber (f : Nat → Nat) (r : Register) : Register := { r with number := f r.number }

def Operand.renumber (f : Nat → Nat) : Operand → Operand
  | .register r => .register (r.renumber f)
  | .pointee r => .pointee (r.renumber f)
  | o => o

/-- The instruction with another number for each register that it declares, reads or assigns to. -/
def Instruction.renumber (f : Nat → Nat) : Instruction → Instruction
  | .compute storage r value => .compute storage (r.renumber f) (value.substitute (Operand.renumber f))
  | .address storage r place => .address storage (r.renumber f) (place.substitute (Operand.renumber f))
  | i => i.substitute (Operand.renumber f)

def StringSlot.renumber (f : Nat → Nat) (s : StringSlot) : StringSlot := { s with register := s.register.renumber f }

def Function.renumber (f : Nat → Nat) (g : Function) : Function := { g with body := g.body.map (Instruction.renumber f) }

def Module.renumber (f : Nat → Nat) (m : Module) : Module :=
  { m with
    strings := m.strings.map (StringSlot.renumber f)
    functions := m.functions.map (Function.renumber f)
    entry := m.entry.map (Instruction.renumber f) }

section Compose

variable (f g : Nat → Nat)

theorem Operand.renumber_renumber (o : Operand) : (o.renumber f).renumber g = o.renumber (g ∘ f) := by
  cases o <;> rfl

theorem Instruction.renumber_renumber (i : Instruction) : (i.renumber f).renumber g = i.renumber (g ∘ f) := by
  have hoperand : Operand.renumber g ∘ Operand.renumber f = Operand.renumber (g ∘ f) :=
    funext (Operand.renumber_renumber f g)
  cases i with
  | compute storage r value =>
    cases value <;> simp [renumber, Computation.substitute, Operand.renumber_renumber, Register.renumber, hoperand]
  | address storage r place =>
    cases place <;> simp [renumber, Place.substitute, Operand.renumber_renumber, Register.renumber]
  | _ => simp [renumber, substitute, Operand.renumber_renumber, hoperand]

theorem Instruction.renumber_id (i : Instruction) : i.renumber id = i := by
  have hoperand : Operand.renumber id = id := by
    funext o
    cases o <;> rfl
  cases i with
  | compute storage r value => cases value <;> simp [renumber, Computation.substitute, Register.renumber, hoperand]
  | address storage r place => cases place <;> simp [renumber, Place.substitute, Register.renumber, hoperand]
  | _ => simp [renumber, substitute, hoperand]

theorem Module.renumber_id (m : Module) : m.renumber id = m := by
  have hcode : Instruction.renumber id = id := funext Instruction.renumber_id
  have hfunction : Function.renumber id = id := by
    funext h
    simp [Function.renumber, hcode]
  have hslot : StringSlot.renumber id = id := rfl
  simp [renumber, hcode, hfunction, hslot]

theorem Module.renumber_renumber (m : Module) : (m.renumber f).renumber g = m.renumber (g ∘ f) := by
  have hcode : Instruction.renumber g ∘ Instruction.renumber f = Instruction.renumber (g ∘ f) :=
    funext (Instruction.renumber_renumber f g)
  have hfunction : Function.renumber g ∘ Function.renumber f = Function.renumber (g ∘ f) := by
    funext h
    simp [Function.renumber, hcode]
  have hslot : StringSlot.renumber g ∘ StringSlot.renumber f = StringSlot.renumber (g ∘ f) := rfl
  simp [renumber, hcode, hfunction, hslot]

end Compose

/-! ### Text with other names for registers -/

/-- The operand with its register spelled out under a name. -/
def Operand.spelled (name : Register → String) : Operand → Operand
  | .register r => .constant .null (name r)
  | .pointee r => .constant .null ("(*" ++ name r ++ ")")
  | o => o

def Instruction.textWith (name : Register → String) : Instruction → String
  | .compute storage r value =>
    indent ++ storage.text ++ " " ++ name r ++ " = " ++ (value.substitute (Operand.spelled name)).text ++ ";\n"
  | .address storage r place =>
    indent ++ storage.text ++ "* " ++ name r ++ " = &" ++ (place.substitute (Operand.spelled name)).text ++ ";\n"
  | i => (i.substitute (Operand.spelled name)).text

def StringSlot.textWith (name : Register → String) (s : StringSlot) : String :=
  "char* " ++ name s.register ++ " = " ++ s.spelling ++ ";\n"

def Function.textWith (name : Register → String) (f : Function) : String :=
  f.result.text ++ " " ++ globalName f.name ++ " (" ++ paramsText f.params ++ ")\n\x7b\n" ++
    String.join (f.body.map (Instruction.textWith name)) ++ "\x7d\n"

/-- The text of a module in which registers have the given names. -/
def Module.textWith (name : Register → String) (m : Module) : String :=
  String.join (m.structs.map StructRecord.text) ++ String.join (m.strings.map (StringSlot.textWith name)) ++
    String.join (m.globals.map GlobalVariable.text) ++ String.join (m.functions.map (Function.textWith name)) ++
    Function.textWith name { result := .void, name := entryName, body := m.entry }

section Text

variable (f : Nat → Nat)

theorem Operand.text_renumber (o : Operand) : (o.renumber f).text = (o.spelled fun r => (r.renumber f).text).text := by
  cases o <;> rfl

theorem Instruction.text_renumber (i : Instruction) :
    (i.renumber f).text = i.textWith fun r => (r.renumber f).text := by
  have hoperands (os : List Operand) : os.map (Operand.text ∘ Operand.renumber f) =
      os.map (Operand.text ∘ Operand.spelled fun r => (r.renumber f).text) :=
    List.map_congr_left fun o _ => Operand.text_renumber f o
  cases i with
  | compute storage r value =>
    cases value <;> simp [renumber, textWith, text, Computation.substitute, Computation.text, callText,
      Operand.text_renumber, hoperands]
  | address storage r place =>
    cases place <;> simp [renumber, textWith, text, Place.substitute, Place.text, Operand.text_renumber]
  | _ => simp [renumber, textWith, text, substitute, callText, Operand.text_renumber, hoperands]

theorem Module.text_renumber (m : Module) : (m.renumber f).text = m.textWith fun r => (r.renumber f).text := by
  have hcode (code : List Instruction) : (code.map (Instruction.renumber f)).map Instruction.text =
      code.map (Instruction.textWith fun r => (r.renumber f).text) := by
    rw [List.map_map]
    exact List.map_congr_left fun i _ => Instruction.text_renumber f i
  have hfunction (g : Function) : (g.renumber f).text = g.textWith fun r => (r.renumber f).text := by
    simp only [Function.renumber, Function.text, Function.textWith, hcode]
  have hfunctions : (m.functions.map (Function.renumber f)).map Function.text =
      m.functions.map (Function.textWith fun r => (r.renumber f).text) := by
    rw [List.map_map]
    exact List.map_congr_left fun g _ => hfunction g
  simp only [renumber, text, textWith, hfunctions, Function.text, Function.textWith, hcode, List.map_map]
  rfl

theorem Module.textWith_text (m : Module) : m.textWith Register.text = m.text := by
  have h := m.text_renumber id
  rw [m.renumber_id] at h
  exact h.symm

end Text

/-! ### Computations that start later -/

/-- What is computed from `next` on, and what is computed from a number that is `d` larger. If the first gives a result, the
    second gives the same moved by `d`, or the numbers run out before it; and the first succeeds where the second does. -/
structure Shifted {ρ : Type} (d next : Nat) (last : ρ → Nat) (shift : ρ → ρ) (x x' : Except Fault ρ) : Prop where
  grows : ∀ r, x = .ok r → next ≤ last r
  later : next + d ≤ counterMax → ∀ r, x = .ok r →
    x' = if last r + d ≤ counterMax then .ok (shift r) else .error .counterOverflow
  earlier : next + d ≤ counterMax → ∀ r', x' = .ok r' → ∃ r, x = .ok r

namespace Shifted

variable {ρ σ α : Type} {d next : Nat} {last : ρ → Nat} {shift : ρ → ρ} {last' : σ → Nat} {shift' : σ → σ}
  {x x' : Except Fault ρ}

theorem error (f f' : Fault) : Shifted d next last shift (.error f) (.error f') where
  grows r h := by cases h
  later _ r h := by cases h
  earlier _ r h := by cases h

theorem ok {r r' : ρ} (hlast : last r = next) (hshift : r' = shift r) : Shifted d next last shift (.ok r) (.ok r') where
  grows := by
    rintro s ⟨⟩
    exact Nat.le_of_eq hlast.symm
  later := by
    rintro hroom s ⟨⟩
    rw [hlast, if_pos hroom, hshift]
  earlier _ _ _ := ⟨r, rfl⟩

theorem bind {f f' : ρ → Except Fault σ} (h : Shifted d next last shift x x')
    (hf : ∀ r, Shifted d (last r) last' shift' (f r) (f' (shift r))) :
    Shifted d next last' shift' (x >>= f) (x' >>= f') where
  grows s hs := by
    obtain ⟨r, hr, hs⟩ := OcCompiler.bind_eq_ok_iff.mp hs
    exact Nat.le_trans (h.grows r hr) ((hf r).grows s hs)
  later hroom s hs := by
    obtain ⟨r, hr, hs⟩ := OcCompiler.bind_eq_ok_iff.mp hs
    have hgrows := (hf r).grows s hs
    rw [h.later hroom r hr]
    by_cases hnext : last r + d ≤ counterMax
    · rw [if_pos hnext]
      exact (hf r).later hnext s hs
    · rw [if_neg hnext, if_neg (by omega)]
      rfl
  earlier hroom s' hs' := by
    obtain ⟨r', hr', hs'⟩ := OcCompiler.bind_eq_ok_iff.mp hs'
    obtain ⟨r, hr⟩ := h.earlier hroom r' hr'
    rw [h.later hroom r hr] at hr'
    by_cases hnext : last r + d ≤ counterMax
    · rw [if_pos hnext] at hr'
      cases hr'
      obtain ⟨s, hs⟩ := (hf r).earlier hnext s' hs'
      exact ⟨s, OcCompiler.bind_eq_ok_iff.mpr ⟨r, hr, hs⟩⟩
    · rw [if_neg hnext] at hr'
      cases hr'

theorem bind_same {m : Except Fault α} {f f' : α → Except Fault σ} (hf : ∀ y, Shifted d next last' shift' (f y) (f' y)) :
    Shifted d next last' shift' (m >>= f) (m >>= f') := by
  cases m with
  | error e => exact .error _ _
  | ok y => exact hf y

theorem countUp : Shifted d next id (· + d) (countUp next) (countUp (next + d)) where
  grows r h := by
    obtain ⟨-, rfl⟩ := countUp_eq_ok_iff.mp h
    exact Nat.le_succ next
  later hroom r h := by
    obtain ⟨-, rfl⟩ := countUp_eq_ok_iff.mp h
    rw [OcCompiler.countUp, id, Nat.add_right_comm next 1 d]
    rfl
  earlier _ r h := by
    obtain ⟨hlt, -⟩ := countUp_eq_ok_iff.mp h
    exact ⟨next + 1, countUp_eq_ok_iff.mpr ⟨by omega, rfl⟩⟩

end Shifted

def Emitted.shift {α : Type} (d : Nat) (g : α → α) (r : Emitted α) : Emitted α :=
  ⟨g r.value, r.code.map (Instruction.renumber (· + d)), r.next + d⟩

/-- Started `d` later, the second writes what the first does with every register moved up by `d`, and its value is that of
    the first with `g` done to it. -/
def Emit.Shifts {α : Type} (d : Nat) (g : α → α) (m m' : Emit α) : Prop :=
  ∀ next, Shifted d next Emitted.next (Emitted.shift d g) (m next) (m' (next + d))

namespace Emit.Shifts

variable {α β : Type} {d : Nat} {g : α → α} {g' : β → β}

theorem pure {x x' : α} (h : x' = g x) : Shifts d g (pure x) (pure x') := fun _ => .ok rfl (by rw [h]; rfl)

theorem fail (f f' : Fault) : Shifts d g (Emit.fail f) (Emit.fail f') := fun _ => .error f f'

theorem bind {m m' : Emit α} {k k' : α → Emit β} (h : Shifts d g m m') (hk : ∀ x, Shifts d g' (k x) (k' (g x))) :
    Shifts d g' (m >>= k) (m' >>= k') := by
  intro next
  refine (h next).bind fun first => (hk first.value first.next).bind fun second => .ok rfl ?_
  simp [Emitted.shift]

theorem lift_bind {m : Except Fault α} {k k' : α → Emit β} (hk : ∀ x, Shifts d g' (k x) (k' x)) :
    Shifts d g' (liftM m >>= k : Emit β) (liftM m >>= k') := by
  refine bind (g := id) (fun next => ?_) hk
  exact .bind_same fun y => .ok rfl rfl

theorem write {i i' : Instruction} (h : i' = i.renumber (· + d)) : Shifts d id (Emit.write i) (Emit.write i') :=
  fun _ => .ok rfl (by rw [h]; rfl)

theorem newRegister (kind : RegisterKind) :
    Shifts d (Register.renumber (· + d)) (Emit.newRegister kind) (Emit.newRegister kind) :=
  fun _ => .bind .countUp fun _ => .ok rfl rfl

theorem forM {xs : List α} {f f' : α → Emit Unit} (h : ∀ x, Shifts d id (f x) (f' x)) :
    Shifts d id (xs.forM f) (xs.forM f') := by
  induction xs with
  | nil => exact .pure rfl
  | cons x xs ih =>
    rw [List.forM_eq_forM, List.forM_cons, List.forM_cons]
    exact .bind (h x) fun _ => ih

theorem mapM {xs : List α} {f f' : α → Emit β} (h : ∀ x, Shifts d g' (f x) (f' x)) :
    Shifts d (List.map g') (xs.mapM f) (xs.mapM f') := by
  induction xs with
  | nil => exact .pure rfl
  | cons x xs ih =>
    rw [List.mapM_cons, List.mapM_cons]
    exact .bind (h x) fun y => .bind ih fun ys => .pure rfl

end Emit.Shifts

/-! ### Expressions and statements -/

namespace Context

/-- The context in which string constants have their slots under other numbers. -/
def renumber (f : Nat → Nat) (c : Context) : Context := { c with slots := c.slots.map fun s => (s.1, s.2.renumber f) }

variable (c : Context) (d : Nat)

theorem constant_renumber (f : Nat → Nat) (q : Constant) (text : String) :
    (c.renumber f).constant q text = (c.constant q text).renumber f := by
  have hlookup : (c.renumber f).slots.lookup text = (c.slots.lookup text).map (Register.renumber f) := by
    rw [renumber]
    induction c.slots with
    | nil => rfl
    | cons s slots ih =>
      rw [List.map_cons, List.lookup_cons, List.lookup_cons, ih]
      cases text == s.1 <;> rfl
  cases q with
  | literal q =>
    cases q with
    | string =>
      rw [constant, constant, hlookup]
      cases c.slots.lookup text <;> rfl
    | int | char => rfl
  | truth b => cases b <;> rfl
  | null => rfl

theorem compute_shifts {n : NodeId} {value value' : Computation} (h : value' = value.substitute (Operand.renumber (· + d))) :
    Emit.Shifts d (Operand.renumber (· + d)) (c.compute n value) ((c.renumber (· + d)).compute n value') := by
  refine .lift_bind fun type => .bind (.newRegister _) fun r => .bind (.write ?_) fun _ => .pure rfl
  rw [h]
  rfl

theorem address_shifts {n : NodeId} {place place' : Place} (h : place' = place.substitute (Operand.renumber (· + d))) :
    Emit.Shifts d (Operand.renumber (· + d)) (c.address n place) ((c.renumber (· + d)).address n place') := by
  refine .lift_bind fun type => .bind (.newRegister _) fun r => .bind (.write ?_) fun _ => .pure rfl
  rw [h]
  rfl

theorem expr_shifts (depth : Nat) (n : NodeId) :
    Emit.Shifts d (Operand.renumber (· + d)) (c.expr depth n) ((c.renumber (· + d)).expr depth n) := by
  induction depth generalizing n with
  | zero => exact .pure rfl
  | succ depth ih =>
    have htree : (c.renumber (· + d)).tree = c.tree := rfl
    have htype (m : NodeId) : (c.renumber (· + d)).typeOf m = c.typeOf m := rfl
    rw [expr, expr]
    simp only [htree, htype]
    cases c.tree.tag n with
    | constant q => exact .pure (c.constant_renumber _ q _)
    | name => exact .pure rfl
    | binary op =>
      cases op with
      | assign =>
        refine .lift_bind fun left => .bind (ih left) fun target => .lift_bind fun right => .bind (ih right) fun value => ?_
        exact .bind (.write rfl) fun _ => .pure rfl
      | compare op | arith op =>
        refine .lift_bind fun left => .bind (ih left) fun x => .lift_bind fun right => .bind (ih right) fun y => ?_
        exact c.compute_shifts d rfl
    | unary op => exact .lift_bind fun m => .bind (ih m) fun x => c.compute_shifts d rfl
    | newStruct => exact .lift_bind fun name => c.compute_shifts d rfl
    | newString => exact .lift_bind fun m => .bind (ih m) fun x => c.compute_shifts d rfl
    | newArray =>
      refine .lift_bind fun m => .bind (ih m) fun x => .lift_bind fun type => ?_
      cases type with
      | array element => exact c.compute_shifts d rfl
      | base b => exact .fail _ _
      | null => exact .fail _ _
    | call =>
      cases c.tree.children n with
      | nil => exact .fail _ _
      | cons first rest =>
        refine .bind (ih first) fun callee => .bind (.mapM ih) fun args => .lift_bind fun type => ?_
        split
        · exact .bind (.write rfl) fun _ => .pure rfl
        · exact c.compute_shifts d rfl
    | index =>
      refine .lift_bind fun left => .bind (ih left) fun x => .lift_bind fun right => .bind (ih right) fun y => ?_
      exact c.address_shifts d rfl
    | select =>
      refine .lift_bind fun object => .lift_bind fun field => .lift_bind fun type => ?_
      cases type.structTag? with
      | none => exact .fail _ _
      | some tag => exact .bind (ih object) fun x => c.address_shifts d rfl
    | _ => exact .fail _ _

theorem stmt_shifts (depth : Nat) (n : NodeId) :
    Emit.Shifts d id (c.stmt depth n) ((c.renumber (· + d)).stmt depth n) := by
  induction depth generalizing n with
  | zero => exact .pure rfl
  | succ depth ih =>
    have htree : (c.renumber (· + d)).tree = c.tree := rfl
    have htype (m : NodeId) : (c.renumber (· + d)).typeOf m = c.typeOf m := rfl
    have hnamed (m : NodeId) : (c.renumber (· + d)).named m = c.named m := rfl
    have hexpr := c.expr_shifts d depth
    rw [stmt, stmt]
    simp only [htree, htype, hnamed]
    cases c.tree.tag n with
    | block => exact .forM ih
    | varDecl =>
      refine .lift_bind fun decl => .lift_bind fun parts => .lift_bind fun m => .bind (hexpr m) fun x => ?_
      split
      · exact .write rfl
      · exact .lift_bind fun type => .write rfl
    | whileLoop =>
      refine .bind (.write rfl) fun _ => .lift_bind fun cond => .bind (hexpr cond) fun x => .bind (.write rfl) fun _ => ?_
      exact .lift_bind fun body => .bind (ih body) fun _ => .bind (.write rfl) fun _ => .write rfl
    | ifThen =>
      refine .lift_bind fun cond => .bind (hexpr cond) fun x => .bind (.write rfl) fun _ => ?_
      exact .lift_bind fun yes => .bind (ih yes) fun _ => .write rfl
    | ifElse =>
      refine .lift_bind fun cond => .bind (hexpr cond) fun x => .bind (.write rfl) fun _ => ?_
      refine .lift_bind fun yes => .bind (ih yes) fun _ => .bind (.write rfl) fun _ => .bind (.write rfl) fun _ => ?_
      exact .lift_bind fun no => .bind (ih no) fun _ => .write rfl
    | returnValue => exact .lift_bind fun m => .bind (hexpr m) fun x => .write rfl
    | returnVoid => exact .write rfl
    | semicolon | struct | function | prototype => exact .pure rfl
    | _ => exact .bind (c.expr_shifts d (depth + 1) n) fun _ => .pure rfl

theorem stmts_shifts (ns : List NodeId) : Emit.Shifts d id (c.stmts ns) ((c.renumber (· + d)).stmts ns) :=
  .forM fun n => c.stmt_shifts d c.tree.size n

theorem function_shifted (n : NodeId) (next : Nat) :
    Shifted d next Prod.snd (Prod.map (Function.renumber (· + d)) (· + d)) (c.function n next)
      ((c.renumber (· + d)).function n (next + d)) := by
  rw [function, function]
  refine .bind_same fun decl => .bind_same fun parts => .bind_same fun paramList => .bind_same fun body => ?_
  refine .bind_same fun result => .bind_same fun params => (c.stmts_shifts d _ next).bind fun emitted => ?_
  exact .ok rfl rfl

theorem functions_shifted (ns : List NodeId) (next : Nat) :
    Shifted d next Prod.snd (Prod.map (List.map (Function.renumber (· + d))) (· + d)) (c.functions ns next)
      ((c.renumber (· + d)).functions ns (next + d)) := by
  induction ns generalizing next with
  | nil => exact .ok rfl rfl
  | cons n ns ih => exact (c.function_shifted d n next).bind fun first => (ih first.2).bind fun rest => .ok rfl rfl

end Context

theorem stringSlots_shifted (d : Nat) (found : List StringSlot) (spellings : List String) (next : Nat) :
    Shifted d next Prod.snd (Prod.map (List.map (StringSlot.renumber (· + d))) (· + d)) (stringSlots found spellings next)
      (stringSlots (found.map (StringSlot.renumber (· + d))) spellings (next + d)) := by
  induction spellings generalizing found next with
  | nil => exact .ok rfl rfl
  | cons spelling spellings ih =>
    have hfound : (found.map (StringSlot.renumber (· + d))).any (·.spelling == spelling) =
        found.any (·.spelling == spelling) := by
      rw [List.any_map]
      rfl
    rw [stringSlots, stringSlots, hfound]
    split
    · exact ih found next
    · refine Shifted.countUp.bind fun following => ?_
      have hnext := ih (found ++ [⟨⟨.string, next⟩, spelling⟩]) following
      rw [List.map_append] at hnext
      exact hnext

theorem Module.ofAnalysis_shifted (t : Tree) (a : Analysis) (d next : Nat) :
    Shifted d next Prod.snd (Prod.map (Module.renumber (· + d)) (· + d)) (ofAnalysis t a next)
      (ofAnalysis t a (next + d)) := by
  refine .bind_same fun structs => (stringSlots_shifted d [] _ next).bind fun strings => .bind_same fun globals => ?_
  let c : Context := { tree := t, analysis := a, slots := strings.1.map fun s => (s.spelling, s.register) }
  have hslots : { tree := t, analysis := a, slots := (strings.1.map (StringSlot.renumber (· + d))).map fun s =>
      (s.spelling, s.register) } = c.renumber (· + d) := by
    simp only [Context.renumber, c, List.map_map]
    rfl
  dsimp only [Prod.map]
  rw [hslots]
  refine (c.functions_shifted d a.queues.functions.toList strings.2).bind fun functions => ?_
  exact (c.stmts_shifts d c.entryStmts functions.2).bind fun entry => .ok rfl rfl

/-- What a second emission gives, from `u` on, where the first one, from `s` on, gave a module: the module with all registers
    moved by the difference, unless there are too few numbers from `u` on. -/
def Module.Moved (m : Module) (s next u : Nat) : Except Fault (Module × Nat) → Prop
  | .ok (m', next') =>
    m' = m.renumber (fun n => n + u - s) ∧ m'.renumber (· + s) = m.renumber (· + u) ∧
      m'.text = m.textWith (fun r => Register.text ⟨r.kind, r.number + u - s⟩) ∧ next' + s = next + u
  | .error f => f = .counterOverflow ∧ counterMax + s < next + u

theorem Module.moved_ofAnalysis {t : Tree} {a : Analysis} {s next u : Nat} {m : Module} (hs : s ≤ counterMax)
    (h : ofAnalysis t a s = .ok (m, next)) (hu : u ≤ counterMax) : m.Moved s next u (ofAnalysis t a u) := by
  -- both are the module whose registers are numbered from 0 on, moved
  have hshift := ofAnalysis_shifted t a s 0
  rw [Nat.zero_add] at hshift
  obtain ⟨⟨base, count⟩, hbase⟩ := hshift.earlier (by omega) _ h
  have hfirst := hshift.later (by omega) _ hbase
  have hsecond := (ofAnalysis_shifted t a u 0).later (by omega) _ hbase
  rw [h] at hfirst
  rw [Nat.zero_add] at hsecond
  split at hfirst
  · cases hfirst
    have hmoved : (base.renumber (· + s)).renumber (fun n => n + u - s) = base.renumber (· + u) := by
      rw [renumber_renumber]
      congr 1
      funext n
      simp only [Function.comp_apply]
      omega
    have hback : (base.renumber (· + u)).renumber (· + s) = (base.renumber (· + s)).renumber (· + u) := by
      rw [renumber_renumber, renumber_renumber]
      congr 1
      funext n
      exact Nat.add_right_comm n u s
    rw [hsecond]
    split
    · exact ⟨hmoved.symm, hback, by rw [← hmoved, text_renumber]; rfl, Nat.add_right_comm ..⟩
    · exact ⟨rfl, by dsimp only at *; omega⟩
  · cases hfirst

/-- Emission depends on the first number only by a shift. Where it starts at another number, every register is moved by the
    difference, in the text too, and as many numbers are taken; so a second emission, which goes on counting, gives the
    first text with every register moved by the numbers that the first one took. -/
theorem Module.ofAnalysis_renumber {t : Tree} {a : Analysis} {s next : Nat} {m : Module} (hs : s ≤ counterMax)
    (h : ofAnalysis t a s = .ok (m, next)) :
    m.text = m.textWith Register.text ∧ s ≤ next ∧ (∀ u ≤ counterMax, m.Moved s next u (ofAnalysis t a u)) ∧
      m.Moved s next next (ofAnalysis t a next) := by
  have hshift := ofAnalysis_shifted t a 0 s
  have hnext : next ≤ counterMax := by
    by_contra hover
    have hlater := (hshift.later hs _ h).trans (if_neg hover)
    rw [Nat.add_zero, h] at hlater
    cases hlater
  exact ⟨m.textWith_text.symm, hshift.grows _ h, fun u hu => moved_ofAnalysis hs h hu, moved_ofAnalysis hs h hnext⟩

/-- A string constant that looks like a register is not one, and the last numbers are taken but not passed. -/
theorem Module.ofAnalysis_renumber_last :
    ∃ t a m next, ofAnalysis t a 1 = .ok (m, next) ∧ next = 4 ∧
      m.text = "char* s1 = \"i2\";\nchar* __s;\nint __n;\nvoid __ocmain (void)\n\x7b\n        __s = s1;\n" ++
        "        char* a2 = &__s[0];\n        int i3 = (int) (*a2);\n        __n = i3;\n\x7d\n" ∧
      m.Moved 1 next 4294967292 (ofAnalysis t a 4294967292) ∧ m.Moved 1 next 4294967293 (ofAnalysis t a 4294967293) ∧
      m.Moved 1 next next (ofAnalysis t a next) := by
  have hrun : ((TokenStream.ofText "t" "string s = \"i2\"; int n = ord s[0];").toOption.bind fun s =>
      (ofAnalysis (Tree.empty.parse s.tokens).2 (Program.analyze (Program.ofTokens s.tokens).items #[]) 1).toOption.map
        fun p => (p.1.text, p.2)) =
      some ("char* s1 = \"i2\";\nchar* __s;\nint __n;\nvoid __ocmain (void)\n\x7b\n        __s = s1;\n" ++
        "        char* a2 = &__s[0];\n        int i3 = (int) (*a2);\n        __n = i3;\n\x7d\n", 4) := by
    decide +kernel
  obtain ⟨s, -, hrun⟩ := Option.bind_eq_some_iff.mp hrun
  obtain ⟨⟨m, next⟩, hm, hresult⟩ := Option.map_eq_some_iff.mp hrun
  obtain ⟨htext, hnext⟩ := Prod.mk.inj hresult
  obtain ⟨-, -, hmoved, hagain⟩ := ofAnalysis_renumber (by decide) (eq_ok_of_toOption hm)
  exact ⟨_, _, m, next, eq_ok_of_toOption hm, hnext, htext, hmoved _ (by decide), hmoved _ (by decide), hagain⟩

end Oil

end OcCompiler
