import OcCompiler.Proofs.Realizes
import OcCompiler.Proofs.TokenTexts

/-! The code of an expression of the core leaves its value to an operand. Registers are numbered upwards and no variable
    has the text of a register, so what is computed later leaves earlier operands as they are. -/

namespace OcCompiler

open Oil

variable {V : Type} {M : Meaning V}

theorem Meaning.constant?_of_isScalar {q : Constant} (h : q.isScalar = true) (text : String) :
    ∃ v, M.constant? q text = some v := by
  cases q with
  | literal l =>
    cases l with
    | int | char => exact ⟨_, rfl⟩
    | string => cases h
  | truth => exact ⟨_, rfl⟩
  | null => cases h

namespace Oil

variable {text : String} {ch : Char}

theorem Variable.head?_text (v : Variable) : v.text.toList.head? = some '_' := by
  unfold Variable.text
  split <;> simp [globalName]

theorem Register.head?_text (r : Register) : ∃ ch, r.text.toList.head? = some ch ∧ Scan.isWordStart ch = true := by
  obtain ⟨kind, number⟩ := r
  cases kind with
  | int => exact ⟨'i', by simp [Register.text, RegisterKind.letter], by decide⟩
  | char => exact ⟨'c', by simp [Register.text, RegisterKind.letter], by decide⟩
  | pointer => exact ⟨'p', by simp [Register.text, RegisterKind.letter], by decide⟩
  | address => exact ⟨'a', by simp [Register.text, RegisterKind.letter], by decide⟩
  | string => exact ⟨'s', by simp [Register.text, RegisterKind.letter], by decide⟩

theorem not_isDigit_of_isWordStart (h : Scan.isWordStart ch = true) : ch.isDigit = false := by
  change (decide (ch.val ≥ 'A'.val ∧ ch.val ≤ 'Z'.val) || (decide (ch.val ≥ 'a'.val) && decide (ch.val ≤ 'z'.val)) ||
    ch == '_') = true at h
  simp only [Char.isDigit, Bool.or_eq_true, Bool.and_eq_true, decide_eq_true_eq, beq_iff_eq, Bool.and_eq_false_iff,
    decide_eq_false_iff_not, UInt32.le_iff_toNat_le, GE.ge] at h ⊢
  rcases h with (h | h) | rfl
  · refine .inr ?_
    have hletter := h.1
    simp at *
    omega
  · refine .inr ?_
    simp at *
    omega
  · exact .inr (by decide)

namespace Cells

variable (μ : Cells V) {text : String} {ch : Char}

theorem read?_word (h : text.toList.head? = some ch) (hword : Scan.isWordStart ch = true) :
    μ.read? M text = some (μ text) := by
  have hdigit := not_isDigit_of_isWordStart hword
  have hquote : ch ≠ '\'' := by
    rintro rfl
    cases hword
  unfold read?
  cases htext : text.toList with
  | nil =>
    rw [htext] at h
    cases h
  | cons first rest =>
    rw [htext] at h
    cases h
    simp [hdigit, hquote, hword]

theorem write?_word (h : text.toList.head? = some ch) (hword : Scan.isWordStart ch = true)
    (v : V) : μ.write? text v = some (Function.update μ text v) := by
  rw [write?, h]
  exact if_pos hword

@[simp] theorem read?_variable (x : Variable) : μ.read? M x.text = some (μ x.text) := μ.read?_word x.head?_text (by decide)

@[simp] theorem write?_variable (x : Variable) (v : V) : μ.write? x.text v = some (Function.update μ x.text v) :=
  μ.write?_word x.head?_text (by decide) v

@[simp] theorem read?_register (r : Register) : μ.read? M r.text = some (μ r.text) := by
  obtain ⟨ch, hch, hword⟩ := r.head?_text
  exact μ.read?_word hch hword

@[simp] theorem write?_register (r : Register) (v : V) : μ.write? r.text v = some (Function.update μ r.text v) := by
  obtain ⟨ch, hch, hword⟩ := r.head?_text
  exact μ.write?_word hch hword v

end Cells

theorem ofDigitChars_dropWhile (digits : List Char) :
    Nat.ofDigitChars 10 (digits.dropWhile (· == '0')) 0 = Nat.ofDigitChars 10 digits 0 := by
  induction digits with
  | nil => rfl
  | cons d digits ih =>
    by_cases hd : d = '0'
    · subst hd
      rw [List.dropWhile_cons_of_pos rfl, ih]
      rfl
    · rw [List.dropWhile_cons_of_neg (by simpa using hd)]

theorem integer?_decimal (h : ∀ ch ∈ text.toList, ch.isDigit = true) :
    integer? (Context.decimal text).toList = some (Nat.ofDigitChars 10 text.toList 0) := by
  have hvalue := ofDigitChars_dropWhile text.toList
  have hdigits : ∀ ch ∈ text.toList.dropWhile (· == '0'), ch.isDigit = true :=
    fun ch hch => h ch (List.dropWhile_subset _ hch)
  unfold Context.decimal
  cases hdrop : text.toList.dropWhile (· == '0') with
  | nil =>
    rw [hdrop] at hvalue
    rw [← hvalue]
    rfl
  | cons d digits =>
    have hd : d ≠ '0' := by
      have hhead := List.head?_dropWhile_not (· == '0') text.toList
      rw [hdrop] at hhead
      simpa using hhead
    rw [hdrop] at hvalue hdigits
    rw [← hvalue, String.toList_ofList, integer?]
    · exact if_pos (List.all_eq_true.mpr hdigits)
    · nofun
    · rintro rest heq
      exact hd (List.cons.inj heq).1

theorem head?_decimal (h : ∀ ch ∈ text.toList, ch.isDigit = true) :
    ∃ ch, (Context.decimal text).toList.head? = some ch ∧ ch.isDigit = true := by
  unfold Context.decimal
  cases hdrop : text.toList.dropWhile (· == '0') with
  | nil => exact ⟨'0', rfl, rfl⟩
  | cons d digits =>
    have hd : d ∈ text.toList.dropWhile (· == '0') := hdrop ▸ List.mem_cons_self
    exact ⟨d, by rw [String.toList_ofList]; rfl, h d (List.dropWhile_subset _ hd)⟩

theorem Cells.read?_digits (μ : Cells V) (h : text.toList.head? = some ch)
    (hdigit : ch.isDigit = true) : μ.read? M text = (integer? text.toList).map M.number := by
  unfold Cells.read?
  cases htext : text.toList with
  | nil =>
    rw [htext] at h
    cases h
  | cons first rest =>
    rw [htext] at h
    cases h
    exact if_pos hdigit

theorem Cells.read?_quoted (μ : Cells V) (h : text.toList.head? = some '\'') :
    μ.read? M text = some (M.character text) := by
  unfold Cells.read?
  cases htext : text.toList with
  | nil =>
    rw [htext] at h
    cases h
  | cons first rest =>
    rw [htext] at h
    cases h
    rfl

theorem Context.read?_constant (c : Context) (μ : Cells V) {q : Constant} (hq : q.isScalar = true)
    (h : q.kind.Spells text.toList) : μ.read? M (c.constant q text).text = M.constant? q text := by
  cases q with
  | literal l =>
    cases l with
    | int =>
      obtain ⟨ch, hch, hdigit⟩ := head?_decimal h.2
      show μ.read? M (decimal text) = _
      rw [μ.read?_digits hch hdigit, integer?_decimal h.2]
      rfl
    | char => exact μ.read?_quoted h
    | string => cases hq
  | truth b =>
    cases b with
    | false =>
      have hfirst : "0".toList.head? = some '0' := rfl
      have hvalue : integer? "0".toList = some 0 := by decide
      exact (μ.read?_digits hfirst rfl).trans (congrArg (Option.map M.number) hvalue)
    | true =>
      have hfirst : "1".toList.head? = some '1' := rfl
      have hvalue : integer? "1".toList = some 1 := by decide
      exact (μ.read?_digits hfirst rfl).trans (congrArg (Option.map M.number) hvalue)
  | null => cases hq

def Keeps (next : Nat) (μ μ' : Cells V) : Prop :=
  ∀ text : String, (∀ r : Register, next ≤ r.number → r.text ≠ text) → μ' text = μ text

namespace Keeps

variable {next next' : Nat} {μ μ₁ μ₂ : Cells V}

theorem refl (next : Nat) (μ : Cells V) : Keeps next μ μ := fun _ _ => rfl

theorem trans (h : Keeps next μ μ₁) (hle : next ≤ next') (h' : Keeps next' μ₁ μ₂) : Keeps next μ μ₂ := by
  intro text htext
  rw [h' text fun r hr => htext r (Nat.le_trans hle hr), h text htext]

theorem update (h : Keeps next μ μ₁) {r : Register} (hr : next ≤ r.number) (v : V) :
    Keeps next μ (Function.update μ₁ r.text v) := by
  intro text htext
  rw [Function.update_of_ne (htext r hr).symm, h text htext]

theorem store (h : Keeps next μ μ₁) : μ₁.store = μ.store :=
  funext fun x => h x.text fun r _ => r.text_ne_variable x

theorem register (h : Keeps next μ μ₁) {r : Register} (hr : r.number < next) : μ₁ r.text = μ r.text := by
  refine h r.text fun r' hr' heq => ?_
  rw [Register.text_inj heq] at hr'
  exact Nat.lt_irrefl _ (Nat.lt_of_lt_of_le hr hr')

end Keeps

end Oil

theorem rel_bind {α β γ δ : Type} {R : α → β → Prop} {S : γ → δ → Prop} {x : Option α} {y : Option β} {f : α → Option γ}
    {g : β → Option δ} (h : Option.Rel R x y) (hfg : ∀ a b, R a b → Option.Rel S (f a) (g b)) :
    Option.Rel S (x.bind f) (y.bind g) := by
  cases h with
  | some h => exact hfg _ _ h
  | none => exact .none

/-- The code of an expression that leaves the store alone. It fills registers from `next` on, and no others. -/
structure PureCode (M : Meaning V) (next : Nat) (r : Emitted Operand) (f : Store V → Option (V × Store V)) : Prop where
  straight : ∀ i ∈ r.code, i.isStraight = true
  le : next ≤ r.next
  /-- The operand does not depend on registers that are still to be handed out. -/
  stable : ∀ {μ μ' : Cells V}, Keeps r.next μ μ' → μ'.read? M r.value.text = μ.read? M r.value.text
  effects : ∀ μ : Cells V, Option.Rel
    (fun p μ' => p.2 = μ.store ∧ Keeps next μ μ' ∧ μ'.read? M r.value.text = some p.1) (f μ.store) (effects? M r.code μ)

namespace PureCode

variable {next : Nat} {r x y : Emitted Operand} {f : Store V → Option (V × Store V)}
variable {register : Register} {value : Computation} {storage : Storage}

theorem computes (h : PureCode M next r f) : Computes M r.code r.value f where
  straight := h.straight
  effects μ := by
    have hrel := h.effects μ
    generalize f μ.store = found at hrel
    generalize effects? M r.code μ = filled at hrel
    cases hrel with
    | some hp =>
      obtain ⟨hstore, hkeeps, hread⟩ := hp
      exact .some ⟨hkeeps.store.trans hstore.symm, hread⟩
    | none => exact .none

theorem rel_compute {μ μ₁ : Cells V} {w : Option V}
    (hkeeps : Keeps next μ μ₁) (hnext : next ≤ register.number) (hvalue : value.value? M μ₁ = w) :
    Option.Rel (fun (p : V × Store V) μ' => p.2 = μ.store ∧ Keeps next μ μ' ∧ μ'.read? M register.text = some p.1)
      (w.map (·, μ.store)) (effects? M [.compute storage register value] μ₁) := by
  rw [effects?_singleton, Instruction.effect?, hvalue]
  cases w with
  | none => exact .none
  | some v =>
    show Option.Rel _ (some (v, μ.store)) (μ₁.write? register.text v)
    rw [μ₁.write?_register]
    refine .some ⟨rfl, hkeeps.update hnext v, ?_⟩
    rw [Cells.read?_register, Function.update_self]

theorem stable_register {number : Nat} {kind : RegisterKind} {μ μ' : Cells V} (h : Keeps (number + 1) μ μ') :
    μ'.read? M (Register.mk kind number).text = μ.read? M (Register.mk kind number).text := by
  rw [Cells.read?_register, Cells.read?_register, h.register (Nat.lt_succ_self number)]

theorem straight_append {is js : List Instruction} (h : ∀ i ∈ is, i.isStraight = true) (h' : ∀ i ∈ js, i.isStraight = true) :
    ∀ i ∈ is ++ js, i.isStraight = true := List.forall_mem_append.mpr ⟨h, h'⟩

theorem straight_compute :
    ∀ i ∈ [Instruction.compute storage register value], i.isStraight = true := by
  intro i hi
  rw [List.mem_singleton.mp hi]
  rfl

end PureCode

theorem UnaryOp.ofSpelling?_eq_some {op : UnaryOp} {mark : Lexeme} (h : Token.Spelled ⟨op.kind, mark⟩) :
    ofSpelling? (Context.unarySpelling op mark.text) = some op := by
  have hmark {ch : Char} (h : mark.text.toList = [ch]) : mark.text = String.ofList [ch] := by
    rw [← h, String.ofList_toList]
  cases op with
  | pos | neg | not =>
    show ofSpelling? mark.text = _
    rw [hmark h]
    rfl
  | ord | chr => rfl

theorem BinaryOp.ofSpelling?_eq_some {op : BinaryOp} {mark : Lexeme} (hop : op ≠ .assign)
    (h : Token.Spelled ⟨op.kind, mark⟩) : ofSpelling? mark.text = some op := by
  cases op with
  | assign => exact absurd rfl hop
  | compare q =>
    have hmark : mark.text = q.spelling := String.toList_inj.mp h
    rw [hmark]
    cases q <;> rfl
  | arith a =>
    have hmark {ch : Char} (h : mark.text.toList = [ch]) : mark.text = String.ofList [ch] := by
      rw [← h, String.ofList_toList]
    cases a with
    | add | sub | mul | div | rem =>
      rw [hmark h]
      rfl

def Oil.Context.Follows (c : Context) (ρ : Lexeme → Option Variable) (steps : List NameStep) : Prop :=
  ∀ s ∈ steps, ρ s.lexeme = some (c.variableAt s.node s.lexeme)

namespace Expr

variable {ρ : Lexeme → Option Variable} {c : Context} {blocks : List Nat}

theorem eval_unary (op : UnaryOp) (mark : Lexeme) (e : Expr) (σ : Store V) :
    (unary op mark e).eval M ρ σ = (e.eval M ρ σ).bind fun p => (M.unary op p.1).map (·, p.2) := by
  rw [eval]
  cases e.eval M ρ σ with
  | none => rfl
  | some p =>
    show (M.unary op p.1).bind (fun w => some (w, p.2)) = (M.unary op p.1).map (·, p.2)
    cases M.unary op p.1 <;> rfl

theorem eval_binary {op : BinaryOp} (hop : op ≠ .assign) (left : Expr) (mark : Lexeme) (right : Expr) (σ : Store V) :
    (binary op left mark right).eval M ρ σ = (left.eval M ρ σ).bind fun p =>
      (right.eval M ρ p.2).bind fun q => (M.binary op p.1 q.1).map (·, q.2) := by
  rw [eval]
  · cases left.eval M ρ σ with
    | none => rfl
    | some p =>
      show (right.eval M ρ p.2).bind _ = (right.eval M ρ p.2).bind _
      cases right.eval M ρ p.2 with
      | none => rfl
      | some q =>
        show (M.binary op p.1 q.1).bind (fun u => some (u, q.2)) = (M.binary op p.1 q.1).map (·, q.2)
        cases M.binary op p.1 q.1 <;> rfl
  · exact hop

theorem eval_assign {x : Lexeme} {y : Variable} (hx : ρ x = some y) (mark : Lexeme) (right : Expr) (σ : Store V) :
    (binary .assign (name x) mark right).eval M ρ σ =
      (right.eval M ρ σ).map fun p => (p.1, Function.update p.2 y p.1) := by
  rw [eval, target?, hx]
  show (right.eval M ρ σ).bind _ = _
  cases right.eval M ρ σ <;> rfl

theorem pureCode (e : Expr) {k : Nat} (next : Nat) (hpure : e.isPure = true)
    (hnames : c.Follows ρ (e.nameSteps blocks k)) (hspelled : ∀ t ∈ e.tokens, t.Spelled) :
    PureCode M next (e.emitted c k next) (e.eval M ρ) := by
  cases e with
  | name x =>
    have hx : ρ x = some (c.variableAt ⟨k⟩ x) := hnames (.refer blocks x ⟨k⟩) (List.mem_singleton_self _)
    constructor
    · exact List.forall_mem_nil _
    · exact Nat.le_refl next
    · intro μ μ' hkeeps
      show μ'.read? M (c.variableAt ⟨k⟩ x).text = μ.read? M (c.variableAt ⟨k⟩ x).text
      rw [Cells.read?_variable, Cells.read?_variable]
      exact congrArg some (congrFun hkeeps.store (c.variableAt ⟨k⟩ x))
    · intro μ
      rw [eval, hx]
      exact .some ⟨rfl, .refl next μ, μ.read?_variable _⟩
  | constant q lexeme =>
    have htext : q.kind.Spells lexeme.text.toList := hspelled ⟨q.kind, lexeme⟩ (by simp [tokens])
    have hread (μ : Cells V) : μ.read? M (c.constant q lexeme.text).text = M.constant? q lexeme.text :=
      c.read?_constant μ hpure htext
    rw [emitted]
    constructor
    · exact List.forall_mem_nil _
    · exact Nat.le_refl next
    · intro μ μ' _
      rw [hread, hread]
    · intro μ
      obtain ⟨v, hv⟩ := Meaning.constant?_of_isScalar (M := M) hpure lexeme.text
      rw [eval, hv]
      exact .some ⟨rfl, .refl next μ, (hread μ).trans hv⟩
  | unary op mark e =>
    rw [tokens] at hspelled
    obtain ⟨hmark, hspelled⟩ := List.forall_mem_cons.mp hspelled
    rw [nameSteps] at hnames
    have he := e.pureCode next hpure hnames hspelled
    rw [emitted]
    constructor
    · exact PureCode.straight_append he.straight PureCode.straight_compute
    · exact Nat.le_succ_of_le he.le
    · exact PureCode.stable_register
    · intro μ
      rw [eval_unary, Context.computed, effects?_append]
      refine rel_bind (he.effects μ) ?_
      rintro ⟨w, σ⟩ μ₁ ⟨rfl, hkeeps, hread⟩
      refine PureCode.rel_compute hkeeps he.le ?_
      rw [Computation.value?, UnaryOp.ofSpelling?_eq_some hmark, hread]
      rfl
  | binary op left mark right =>
    obtain ⟨hpure, hright⟩ := Bool.and_eq_true_iff.mp hpure
    obtain ⟨hop, hleft⟩ := Bool.and_eq_true_iff.mp hpure
    have hop : op ≠ .assign := by simpa using hop
    rw [tokens, List.forall_mem_append] at hspelled
    obtain ⟨hmark, hspelled'⟩ := List.forall_mem_cons.mp hspelled.2
    rw [nameSteps, Context.Follows, List.forall_mem_append] at hnames
    have hl := left.pureCode next hleft hnames.1 hspelled.1
    have hr := right.pureCode (left.emitted c k next).next hright hnames.2 hspelled'
    have hle := Nat.le_trans hl.le hr.le
    rw [emitted, if_neg hop]
    constructor
    · exact PureCode.straight_append (PureCode.straight_append hl.straight hr.straight) PureCode.straight_compute
    · exact Nat.le_succ_of_le hle
    · exact PureCode.stable_register
    · intro μ
      rw [eval_binary hop, Context.computed, List.append_assoc, effects?_append]
      refine rel_bind (hl.effects μ) ?_
      rintro ⟨v, σ⟩ μ₁ ⟨rfl, hkeeps, hread⟩
      rw [effects?_append, ← hkeeps.store]
      refine rel_bind (hr.effects μ₁) ?_
      rintro ⟨w, σ⟩ μ₂ ⟨rfl, hkeeps', hread'⟩
      rw [hkeeps.store]
      refine PureCode.rel_compute (hkeeps.trans hl.le hkeeps') hle ?_
      rw [Computation.value?, BinaryOp.ofSpelling?_eq_some hop hmark, hl.stable hkeeps', hread, hread']
      rfl
  | call | index | select | newStruct | newString | newArray => cases hpure

end Expr

theorem Oil.Cells.store_update (μ : Cells V) (x : Variable) (v : V) :
    Cells.store (Function.update μ x.text v) = Function.update μ.store x v := by
  funext y
  show Function.update μ x.text v y.text = Function.update μ.store x v y
  by_cases hy : y = x
  · rw [hy, Function.update_self, Function.update_self]
  · rw [Function.update_of_ne fun heq => hy (Variable.text_inj heq), Function.update_of_ne hy]
    rfl

theorem Computes.assign {is : List Instruction} {o : Operand} {f : Store V → Option (V × Store V)} {x : Variable}
    {i : Instruction} (h : Computes M is o f) (hi : i = .assign (.var x) o ∨ ∃ storage, i = .declare storage x o) :
    Computes M (is ++ [i]) (.var x) fun σ => (f σ).map fun p => (p.1, Function.update p.2 x p.1) := by
  have heffect (μ : Cells V) : i.effect? M μ = (μ.read? M o.text).bind (μ.write? x.text) := by
    rcases hi with rfl | ⟨storage, rfl⟩ <;> rfl
  constructor
  · refine List.forall_mem_append.mpr ⟨h.straight, fun j hj => ?_⟩
    rw [List.mem_singleton.mp hj]
    rcases hi with rfl | ⟨storage, rfl⟩ <;> rfl
  · intro μ
    rw [effects?_append, Option.map_eq_bind]
    refine rel_bind (h.effects μ) ?_
    rintro ⟨v, σ⟩ μ' ⟨rfl, hread⟩
    rw [effects?_singleton, heffect, hread]
    show Option.Rel _ _ (μ'.write? x.text v)
    rw [μ'.write?_variable]
    refine .some ⟨μ'.store_update x v, ?_⟩
    show Cells.read? M (Function.update μ' x.text v) x.text = some v
    rw [Cells.read?_variable, Function.update_self]

namespace Expr

variable {ρ : Lexeme → Option Variable} {c : Context} {blocks : List Nat}

theorem computes (e : Expr) {k : Nat} (next : Nat) (hcore : e.isCore = true) (hnames : c.Follows ρ (e.nameSteps blocks k))
    (hspelled : ∀ t ∈ e.tokens, t.Spelled) :
    Computes M (e.emitted c k next).code (e.emitted c k next).value (e.eval M ρ) := by
  cases e with
  | binary op left mark right =>
    cases op with
    | assign =>
      cases left with
      | name x =>
        rw [tokens, List.forall_mem_append] at hspelled
        rw [nameSteps, Context.Follows, List.forall_mem_append] at hnames
        have hx : ρ x = some (c.variableAt ⟨k⟩ x) := hnames.1 (.refer blocks x ⟨k⟩) (List.mem_singleton_self _)
        have hright := right.computes next hcore hnames.2 (List.forall_mem_cons.mp hspelled.2).2
        rw [funext (eval_assign hx mark right)]
        exact hright.assign (.inl rfl)
      | constant | unary | binary | call | index | select | newStruct | newString | newArray => cases hcore
    | compare | arith => exact (pureCode _ next hcore hnames hspelled).computes
  | name | constant | unary => exact (pureCode _ next hcore hnames hspelled).computes
  | call | index | select | newStruct | newString | newArray => cases hcore

end Expr

end OcCompiler
