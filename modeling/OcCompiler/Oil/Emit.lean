import OcCompiler.Analysis.State
import OcCompiler.Oil.Module

/-!
Emission as a computation: instructions are written in order, and registers are handed out with consecutive numbers.
-/

namespace OcCompiler.Oil

structure Emitted (α : Type) where
  value : α
  code : List Instruction
  next : Nat

def Emit (α : Type) := Nat → Except Fault (Emitted α)

namespace Emit

variable {α β : Type}

instance : Monad Emit where
  pure value := fun next => .ok ⟨value, [], next⟩
  bind m f := fun next => do
    let first ← m next
    let second ← f first.value first.next
    return ⟨second.value, first.code ++ second.code, second.next⟩

instance : MonadLift (Except Fault) Emit where
  monadLift m := fun next => do return ⟨← m, [], next⟩

@[simp] theorem pure_run (value : α) (next : Nat) : (pure value : Emit α) next = .ok ⟨value, [], next⟩ := rfl

theorem bind_eq_ok_iff {m : Emit α} {f : α → Emit β} {next : Nat} {r : Emitted β} :
    (m >>= f) next = .ok r ↔
      ∃ first second, m next = .ok first ∧ f first.value first.next = .ok second ∧
        r = ⟨second.value, first.code ++ second.code, second.next⟩ := by
  constructor
  · intro h
    cases hm : m next with
    | error e => simp [bind, hm, Except.bind] at h
    | ok first =>
      cases hf : f first.value first.next with
      | error e => simp [bind, hm, hf, Except.bind] at h
      | ok second =>
        simp [bind, hm, hf, Except.bind, pure, Except.pure] at h
        exact ⟨first, second, rfl, hf, h.symm⟩
  · rintro ⟨first, second, hm, hf, rfl⟩
    simp [bind, hm, hf, Except.bind, pure, Except.pure]

theorem id_map_eq (m : Emit α) : id <$> m = m := by
  funext next
  simp only [Functor.map, bind, Except.bind, Function.comp]
  cases m next <;> simp [pure, Except.pure]

theorem pure_bind_eq (value : α) (f : α → Emit β) : pure value >>= f = f value := by
  funext next
  simp only [bind, pure, Except.bind, Except.pure]
  cases f value next <;> simp

theorem bind_assoc_eq {γ : Type} (m : Emit α) (f : α → Emit β) (g : β → Emit γ) :
    m >>= f >>= g = m >>= fun x => f x >>= g := by
  funext next
  simp only [bind, pure, Except.bind, Except.pure]
  cases m next with
  | error e => rfl
  | ok first =>
    dsimp only
    cases f first.value first.next with
    | error e => rfl
    | ok second =>
      dsimp only
      cases g second.value second.next <;> simp

instance : LawfulMonad Emit := LawfulMonad.mk' Emit id_map_eq pure_bind_eq bind_assoc_eq

def fail (f : Fault) : Emit α := fun _ => .error f

def write (i : Instruction) : Emit Unit := fun next => .ok ⟨(), [i], next⟩

def newRegister (kind : RegisterKind) : Emit Register := fun next => do
  return ⟨⟨kind, next⟩, [], ← countUp next⟩

end Emit

end OcCompiler.Oil
