import OcCompiler.Proofs.Machine
import OcCompiler.Proofs.Scoping

/-! How a program runs, said of its text. Calls, structs, strings and arrays have no meaning here. The core is the part
    of the language without them in which no operand of an operator is an assignment. -/

namespace OcCompiler

open Oil

/-- The variable that is declared. A block has one variable of each name. -/
def NameDecl.toVariable (d : NameDecl) : Variable := ⟨d.name.text, d.block⟩

namespace NameStep

/-- The variable that a name stands for, where `before` is what was declared before the steps. -/
def variableOf? (before : List NameDecl) (x : Lexeme) : List NameStep → Option Variable
  | [] => none
  | .declare d :: steps => if d.name = x then some d.toVariable else variableOf? (before ++ [d]) x steps
  | .refer blocks y _ :: steps =>
    if y = x then (NameDecl.binding before blocks y.text).map NameDecl.toVariable else variableOf? before x steps

end NameStep

/-- The variable that a name in a program stands for, given where the name is. -/
def Program.variableOf? (items : List Item) (x : Lexeme) : Option Variable := NameStep.variableOf? [] x (nameSteps items)

/-- What is in the variables. -/
abbrev Store (V : Type) := Variable → V

variable {V : Type} (M : Meaning V) (ρ : Lexeme → Option Variable)

def Meaning.constant? : Constant → String → Option V
  | .literal .int, text => some (M.number (Nat.ofDigitChars 10 text.toList 0))
  | .literal .char, text => some (M.character text)
  | .truth b, _ => some (M.number b.toNat)
  | .literal .string, _ | .null, _ => none

namespace Expr

def target? : Expr → Option Variable
  | .name x => ρ x
  | _ => none

def eval : Expr → Store V → Option (V × Store V)
  | .name x, σ => (ρ x).map fun v => (σ v, σ)
  | .constant q lexeme, σ => (M.constant? q lexeme.text).map (·, σ)
  | .unary op _ e, σ => do
    let (v, σ) ← e.eval σ
    let w ← M.unary op v
    return (w, σ)
  | .binary .assign left _ right, σ => do
    let x ← left.target? ρ
    let (v, σ) ← right.eval σ
    return (v, Function.update σ x v)
  | .binary op left _ right, σ => do
    let (v, σ) ← left.eval σ
    let (w, σ) ← right.eval σ
    let u ← M.binary op v w
    return (u, σ)
  | .call .., _ | .index .., _ | .select .., _ | .newStruct .., _ | .newString .., _ | .newArray .., _ => none

/-- Whether the value of an expression counts as true, and the store behind it. -/
def test (e : Expr) (σ : Store V) : Option (Bool × Store V) := (e.eval M ρ σ).map fun p => (M.holds p.1, p.2)

end Expr

/-- How a statement is left. -/
inductive Exit (V : Type) where
  | next
  | returns (value : Option V)

/-- The value that is given back, where a whole body is left. -/
def Exit.value : Exit V → Option V
  | .next => none
  | .returns value => value

/-- How something may run: the store before, the way it is left, and the store behind. -/
abbrev Behaviour (V : Type) := Store V → Exit V → Store V → Prop

namespace Behaviour

def skip : Behaviour V := fun σ x τ => x = .next ∧ τ = σ

def evaluate (f : Store V → Option (V × Store V)) : Behaviour V := fun σ x τ => ∃ v, f σ = some (v, τ) ∧ x = .next

def giveBack (f : Store V → Option (V × Store V)) : Behaviour V := fun σ x τ =>
  ∃ v, f σ = some (v, τ) ∧ x = .returns (some v)

def leave : Behaviour V := fun σ x τ => x = .returns none ∧ τ = σ

/-- One after the other, where only the first may run if this returns. -/
def seq (A B : Behaviour V) : Behaviour V := fun σ x τ =>
  (∃ σ', A σ .next σ' ∧ B σ' x τ) ∨ ∃ r, x = .returns r ∧ A σ x τ

def choose (test : Store V → Option (Bool × Store V)) (A B : Behaviour V) : Behaviour V := fun σ x τ =>
  ∃ b σ', test σ = some (b, σ') ∧ (if b then A else B) σ' x τ

/-- Again and again as long as the test holds. -/
inductive loop (test : Store V → Option (Bool × Store V)) (A : Behaviour V) : Behaviour V
  | stop {σ τ : Store V} (h : test σ = some (false, τ)) : loop test A σ .next τ
  | again {σ σ₁ σ₂ τ : Store V} {x : Exit V} (h : test σ = some (true, σ₁)) (hbody : A σ₁ .next σ₂)
    (hrest : loop test A σ₂ x τ) : loop test A σ x τ
  | leave {σ σ₁ τ : Store V} {r : Option V} (h : test σ = some (true, σ₁)) (hbody : A σ₁ (.returns r) τ) :
    loop test A σ (.returns r) τ

@[simp] theorem seq_skip (A : Behaviour V) : A.seq skip = A := by
  funext σ x τ
  cases x with
  | next => simp [seq, skip]
  | returns r => simp [seq, skip]

@[simp] theorem skip_seq (A : Behaviour V) : skip.seq A = A := by
  funext σ x τ
  cases x with
  | next => simp [seq, skip]
  | returns r => simp [seq, skip]

end Behaviour

namespace Stmt

mutual

/-- How a statement may run. A declaration assigns its first value each time it is reached. -/
def behaviour : Stmt → Behaviour V
  | .block _ body => behaviourAll body
  | .empty _ => .skip
  | .varDecl d equals init => .evaluate ((Expr.binary .assign (.name d.name) equals init).eval M ρ)
  | .whileLoop _ cond body => .loop (cond.test M ρ) body.behaviour
  | .ifThen _ cond yes => .choose (cond.test M ρ) yes.behaviour .skip
  | .ifElse _ cond yes no => .choose (cond.test M ρ) yes.behaviour no.behaviour
  | .returnValue _ value => .giveBack (value.eval M ρ)
  | .returnVoid _ => .leave
  | .expr e => .evaluate (e.eval M ρ)

def behaviourAll : List Stmt → Behaviour V
  | [] => .skip
  | s :: ss => .seq s.behaviour (behaviourAll ss)

end

end Stmt

def Constant.isScalar : Constant → Bool
  | .literal .int | .literal .char | .truth _ => true
  | .literal .string | .null => false

namespace Expr

def isPure : Expr → Bool
  | .name _ => true
  | .constant q _ => q.isScalar
  | .unary _ _ e => e.isPure
  | .binary op left _ right => op != .assign && left.isPure && right.isPure
  | _ => false

/-- An expression that may assign its value to variables. -/
def isCore : Expr → Bool
  | .binary .assign (.name _) _ right => right.isCore
  | e => e.isPure

end Expr

namespace Stmt

mutual

def isCore : Stmt → Bool
  | .block _ body => isCoreAll body
  | .empty _ | .returnVoid _ => true
  | .varDecl _ _ init => init.isCore
  | .whileLoop _ cond body => cond.isPure && body.isCore
  | .ifThen _ cond yes => cond.isPure && yes.isCore
  | .ifElse _ cond yes no => cond.isPure && yes.isCore && no.isCore
  | .returnValue _ value => value.isPure
  | .expr e => e.isCore

def isCoreAll : List Stmt → Bool
  | [] => true
  | s :: ss => s.isCore && isCoreAll ss

end

end Stmt

end OcCompiler
