import Mathlib.Data.List.Basic

/-!
# Programs that load bytes

A program of loads returns a value or loads a range of bytes and goes on with the bytes, or with
`none` when the load fails. On a memory it has a result and the list of the ranges it loads.
-/

namespace EbpfTools.Lib

abbrev Memory := Nat → Nat → Option (List UInt8)

inductive Loads (α : Type) where
  | done (a : α)
  | load (off n : Nat) (next : Option (List UInt8) → Loads α)

namespace Loads

variable {α β : Type}

def bind (x : Loads α) (f : α → Loads β) : Loads β :=
  match x with
  | done a => f a
  | load off n next => load off n fun bs => (next bs).bind f

instance : Monad Loads where
  pure := done
  bind := bind

/-- The result on the memory `mem`. -/
def run (mem : Memory) : Loads α → α
  | done a => a
  | load off n next => (next (mem off n)).run mem

/-- The offsets and lengths of the loads on the memory `mem`. -/
def ranges (mem : Memory) : Loads α → List (Nat × Nat)
  | done _ => []
  | load off n next => (off, n) :: (next (mem off n)).ranges mem

@[simp] theorem run_pure (mem : Memory) (a : α) : (pure a : Loads α).run mem = a := rfl

@[simp] theorem run_bind (mem : Memory) (x : Loads α) (f : α → Loads β) :
    (x >>= f).run mem = (f (x.run mem)).run mem := by
  induction x with
  | done a => rfl
  | load off n next ih => exact ih (mem off n)

@[simp] theorem run_ite (mem : Memory) (p : Prop) [Decidable p] (x y : Loads α) :
    (if p then x else y).run mem = if p then x.run mem else y.run mem :=
  apply_ite (run mem) p x y

/-! ## Programs that end at a failing load -/

/-- The bytes at `off`. -/
def bytes (off n : Nat) : OptionT Loads (List UInt8) := OptionT.mk (load off n done)

def byte (off : Nat) : OptionT Loads UInt8 := do
  let bs ← bytes off 1
  return bs.getD 0 0

def result (mem : Memory) (x : OptionT Loads α) : Option α := x.run.run mem

@[simp] theorem result_pure (mem : Memory) (a : α) :
    result mem (pure a : OptionT Loads α) = some a := rfl

@[simp] theorem result_failure (mem : Memory) : result mem (failure : OptionT Loads α) = none := rfl

@[simp] theorem result_ite (mem : Memory) (p : Prop) [Decidable p] (x y : OptionT Loads α) :
    result mem (if p then x else y) = if p then result mem x else result mem y :=
  apply_ite (result mem) p x y

@[simp] theorem result_bind (mem : Memory) (x : OptionT Loads α) (f : α → OptionT Loads β) :
    result mem (x >>= f) = (result mem x).bind fun a => result mem (f a) := by
  rw [result, OptionT.run_bind, Option.elimM, run_bind, result]
  cases x.run.run mem <;> rfl

@[simp] theorem result_guard (mem : Memory) (p : Prop) [Decidable p] :
    result mem (guard p) = guard p := by
  by_cases h : p
  · rw [guard, if_pos h, guard, if_pos h]
    rfl
  · rw [guard, if_neg h, guard, if_neg h]
    rfl

@[simp] theorem result_bytes (mem : Memory) (off n : Nat) : result mem (bytes off n) = mem off n :=
  rfl

@[simp] theorem result_byte (mem : Memory) (off : Nat) :
    result mem (byte off) = (mem off 1).map (·.getD 0 0) := by
  rw [byte, result_bind, result_bytes]
  cases mem off 1 <;> rfl

end Loads

end EbpfTools.Lib
