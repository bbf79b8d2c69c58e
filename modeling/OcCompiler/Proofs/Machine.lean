import Mathlib.Logic.Function.Basic
import OcCompiler.Proofs.Labels

/-! Oil as a goto program. Variables and registers are cells, told apart by their texts alone; labels are places in the
    code. Calls, addresses and blocks of memory have no meaning here. -/

namespace OcCompiler

/-- What values are, and what operators make of them. An operator may have no result for some values. -/
structure Meaning (V : Type) where
  /-- The value of an integer. The truth values are the integers 0 and 1. -/
  number : Nat → V
  /-- The value of a character constant, as it is spelled. -/
  character : String → V
  unary : UnaryOp → V → Option V
  binary : BinaryOp → V → V → Option V
  holds : V → Bool

def Comparison.holds : Comparison → Int → Int → Bool
  | .eq, v, w => v == w
  | .ne, v, w => v != w
  | .lt, v, w => v < w
  | .le, v, w => v ≤ w
  | .gt, v, w => v > w
  | .ge, v, w => v ≥ w

/-- Whole numbers, where a quotient is cut towards zero and there is none by zero. -/
def Arithmetic.result? : Arithmetic → Int → Int → Option Int
  | .add, v, w => some (v + w)
  | .sub, v, w => some (v - w)
  | .mul, v, w => some (v * w)
  | .div, v, w => if w = 0 then none else some (v.tdiv w)
  | .rem, v, w => if w = 0 then none else some (v.tmod w)

/-- One meaning: values are whole numbers, and a character is the code of the letter behind its quote. -/
def Meaning.integers : Meaning Int where
  number n := n
  character text := ((text.toList.drop 1).headD '\'').toNat
  unary
    | .pos, v | .ord, v | .chr, v => some v
    | .neg, v => some (-v)
    | .not, v => some (if v = 0 then 1 else 0)
  binary
    | .assign, _, _ => none
    | .compare c, v, w => some (c.holds v w).toNat
    | .arith a, v, w => a.result? v w
  holds v := v != 0

def BinaryOp.ofSpelling? : String → Option BinaryOp
  | "==" => some (.compare .eq)
  | "!=" => some (.compare .ne)
  | "<" => some (.compare .lt)
  | "<=" => some (.compare .le)
  | ">" => some (.compare .gt)
  | ">=" => some (.compare .ge)
  | "+" => some (.arith .add)
  | "-" => some (.arith .sub)
  | "*" => some (.arith .mul)
  | "/" => some (.arith .div)
  | "%" => some (.arith .rem)
  | _ => none

def UnaryOp.ofSpelling? : String → Option UnaryOp
  | "+" => some .pos
  | "-" => some .neg
  | "!" => some .not
  | "(int) " => some .ord
  | "(char) " => some .chr
  | _ => none

namespace Oil

def integer? : List Char → Option Nat
  | [] => none
  | '0' :: digits => if digits.all fun c => c.isDigit && c < '8' then some (Nat.ofDigitChars 8 digits 0) else none
  | digits => if digits.all Char.isDigit then some (Nat.ofDigitChars 10 digits 0) else none

/-- What is in the cells of a program, by their texts. -/
abbrev Cells (V : Type) := String → V

variable {V : Type} (M : Meaning V)

namespace Cells

def read? (μ : Cells V) (text : String) : Option V :=
  match text.toList with
  | [] => none
  | c :: _ =>
    if c.isDigit then (integer? text.toList).map M.number
    else if c = '\'' then some (M.character text)
    else if Scan.isWordStart c then some (μ text)
    else none

def write? (μ : Cells V) (text : String) (v : V) : Option (Cells V) :=
  if text.toList.head?.any Scan.isWordStart then some (Function.update μ text v) else none

end Cells

def Computation.value? (μ : Cells V) : Computation → Option V
  | .binary _ spelling left right => do
    let op ← BinaryOp.ofSpelling? spelling
    let v ← μ.read? M left.text
    let w ← μ.read? M right.text
    M.binary op v w
  | .unary _ spelling operand => do
    let op ← UnaryOp.ofSpelling? spelling
    let v ← μ.read? M operand.text
    M.unary op v
  | .allocate .. | .call .. => none

def Instruction.effect? (μ : Cells V) : Instruction → Option (Cells V)
  | .label _ => some μ
  | .assign target value => do
    let v ← μ.read? M value.text
    μ.write? target.text v
  | .declare _ x value => do
    let v ← μ.read? M value.text
    μ.write? x.text v
  | .compute _ r value => do
    let v ← value.value? M μ
    μ.write? r.text v
  | .jump _ | .jumpUnless .. | .address .. | .perform .. | .returnValue _ | .returnVoid => none

def behind? (label : String) : List Instruction → Option (List Instruction)
  | [] => none
  | .label l :: rest => if l.text = label then some rest else behind? label rest
  | _ :: rest => behind? label rest

def step? (code : List Instruction) (μ : Cells V) : List Instruction → Option (List Instruction × Cells V)
  | [] => none
  | i :: rest =>
    match i with
    | .jump l => (behind? l.text code).map (·, μ)
    | .jumpUnless condition l => do
      let v ← μ.read? M condition.text
      if M.holds v then some (rest, μ) else (behind? l.text code).map (·, μ)
    | i => (i.effect? M μ).map (rest, ·)

/-- The value that a program gives back, if it ends here. -/
def result? (μ : Cells V) : List Instruction → Option (Option V)
  | [] => some none
  | i :: _ =>
    match i with
    | .returnValue value => (μ.read? M value.text).map some
    | .returnVoid => some none
    | _ => none

/-- With the given code ahead, a program ends after `n` steps, with a value that it gives back and with cells. -/
inductive Runs (code : List Instruction) : Nat → List Instruction → Cells V → Option V → Cells V → Prop
  | done {ahead : List Instruction} {μ : Cells V} {r : Option V} (h : result? M μ ahead = some r) :
    Runs code 0 ahead μ r μ
  | step {n : Nat} {ahead ahead' : List Instruction} {μ μ' ν : Cells V} {r : Option V}
    (h : step? M code μ ahead = some (ahead', μ')) (hrest : Runs code n ahead' μ' r ν) : Runs code (n + 1) ahead μ r ν

def Terminates (code : List Instruction) (μ : Cells V) (r : Option V) (ν : Cells V) : Prop := ∃ n, Runs M code n code μ r ν

variable {M} {code ahead : List Instruction} {μ ν : Cells V} {r : Option V} {n : Nat}

theorem result?_eq_none {c : List Instruction × Cells V} (h : step? M code μ ahead = some c) : result? M μ ahead = none := by
  cases ahead with
  | nil => cases h
  | cons i rest =>
    cases i with
    | returnValue | returnVoid => cases h
    | label | jump | jumpUnless | assign | declare | compute | address | perform => rfl

theorem runs_step_iff {ahead' : List Instruction} {μ' : Cells V} (h : step? M code μ ahead = some (ahead', μ')) :
    Runs M code n ahead μ r ν ↔ ∃ n', n = n' + 1 ∧ Runs M code n' ahead' μ' r ν := by
  constructor
  · intro hruns
    cases hruns with
    | done hresult =>
      rw [result?_eq_none h] at hresult
      cases hresult
    | @step n _ _ _ _ _ _ hstep hrest =>
      cases h.symm.trans hstep
      exact ⟨n, rfl, hrest⟩
  · rintro ⟨n', rfl, hrest⟩
    exact .step h hrest

theorem not_runs (hstep : step? M code μ ahead = none) (hresult : result? M μ ahead = none) :
    ¬ Runs M code n ahead μ r ν := by
  rintro (h | ⟨h, -⟩)
  · rw [hresult] at h
    cases h
  · rw [hstep] at h
    cases h

def run? (M : Meaning V) (code : List Instruction) : Nat → List Instruction → Cells V → Option (Option V × Cells V)
  | 0, ahead, μ => (result? M μ ahead).map (·, μ)
  | n + 1, ahead, μ => (step? M code μ ahead).bind fun p => run? M code n p.1 p.2

theorem runs_iff : Runs M code n ahead μ r ν ↔ run? M code n ahead μ = some (r, ν) := by
  induction n generalizing ahead μ with
  | zero =>
    constructor
    · rintro ⟨h⟩
      rw [run?, h, Option.map_some]
    · intro h
      obtain ⟨r', hr, heq⟩ := Option.map_eq_some_iff.mp h
      cases heq
      exact .done hr
  | succ n ih =>
    constructor
    · rintro (_ | ⟨h, hrest⟩)
      rw [run?, h, Option.bind_some]
      exact ih.mp hrest
    · intro h
      obtain ⟨⟨ahead', μ'⟩, hstep, hrest⟩ := Option.bind_eq_some_iff.mp h
      exact .step hstep (ih.mpr hrest)

def Instruction.isStraight : Instruction → Bool
  | .jump _ | .jumpUnless .. | .returnValue _ | .returnVoid => false
  | _ => true

def effects? (M : Meaning V) (is : List Instruction) (μ : Cells V) : Option (Cells V) :=
  is.foldlM (fun μ i => i.effect? M μ) μ

@[simp] theorem effects?_nil : effects? M [] μ = some μ := rfl

theorem effects?_cons (i : Instruction) (is : List Instruction) :
    effects? M (i :: is) μ = (i.effect? M μ).bind (effects? M is) := List.foldlM_cons

theorem effects?_append (is js : List Instruction) :
    effects? M (is ++ js) μ = (effects? M is μ).bind (effects? M js) := List.foldlM_append

theorem effects?_singleton (i : Instruction) : effects? M [i] μ = i.effect? M μ := by
  rw [effects?_cons]
  cases i.effect? M μ <;> rfl

theorem step?_straight {i : Instruction} (h : i.isStraight = true) :
    step? M code μ (i :: ahead) = (i.effect? M μ).map (ahead, ·) := by
  cases i with
  | jump | jumpUnless | returnValue | returnVoid => cases h
  | label | assign | declare | compute | address | perform => rfl

theorem result?_straight {i : Instruction} (h : i.isStraight = true) : result? M μ (i :: ahead) = none := by
  cases i with
  | returnValue | returnVoid => cases h
  | label | jump | jumpUnless | assign | declare | compute | address | perform => rfl

theorem runs_straight_iff {is : List Instruction} (h : ∀ i ∈ is, i.isStraight = true) :
    Runs M code n (is ++ ahead) μ r ν ↔
      ∃ n' μ', n = n' + is.length ∧ effects? M is μ = some μ' ∧ Runs M code n' ahead μ' r ν := by
  induction is generalizing n μ with
  | nil =>
    constructor
    · exact fun hruns => ⟨n, μ, rfl, rfl, hruns⟩
    · rintro ⟨n', μ', rfl, heq, hruns⟩
      cases heq
      exact hruns
  | cons i is ih =>
    obtain ⟨hi, his⟩ := List.forall_mem_cons.mp h
    have hstep : step? M code μ (i :: (is ++ ahead)) = (i.effect? M μ).map (is ++ ahead, ·) := step?_straight hi
    rw [List.cons_append, effects?_cons]
    cases heffect : i.effect? M μ with
    | none =>
      rw [heffect] at hstep
      refine iff_of_false (not_runs hstep (result?_straight hi)) ?_
      rintro ⟨n', μ', -, heq, -⟩
      cases heq
    | some μ₁ =>
      rw [heffect] at hstep
      rw [runs_step_iff hstep]
      constructor
      · rintro ⟨n₁, rfl, hruns⟩
        obtain ⟨n', μ', rfl, heq, hrest⟩ := (ih his).mp hruns
        exact ⟨n', μ', rfl, heq, hrest⟩
      · rintro ⟨n', μ', rfl, heq, hrest⟩
        exact ⟨n' + is.length, rfl, (ih his).mpr ⟨n', μ', rfl, heq, hrest⟩⟩

theorem behind?_append {label : String} {is js : List Instruction} (h : ∀ l ∈ labels is, l.text ≠ label) :
    behind? label (is ++ js) = behind? label js := by
  induction is with
  | nil => rfl
  | cons i is ih =>
    rw [labels_cons, List.forall_mem_append] at h
    cases i with
    | label l =>
      have hne : l.text ≠ label := h.1 l (List.mem_singleton_self l)
      rw [List.cons_append, behind?, if_neg hne]
      exact ih h.2
    | jump | jumpUnless | assign | declare | compute | address | perform | returnValue | returnVoid => exact ih h.2

theorem behind?_eq_some {l : Label} (hnodup : (labels code).Nodup) (h : .label l :: ahead <:+ code) :
    behind? l.text code = some ahead := by
  obtain ⟨is, rfl⟩ := h
  rw [labels_append, List.nodup_append] at hnodup
  rw [behind?_append, behind?, if_pos rfl]
  intro l' hl' heq
  exact hnodup.2.2 l' hl' l List.mem_cons_self (Label.text_inj heq)

end Oil

end OcCompiler
