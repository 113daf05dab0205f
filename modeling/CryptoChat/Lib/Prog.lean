/-
  CryptoChat.Lib.Prog — programs that do one operation after the other on a state they
  may share: an operation `o` gives a value of type `ρ o`, and a program returns or throws.

  `run` does a program alone, from a state to its end; `step` does its next operation, so
  that several programs can be interleaved. `Only` bounds the operations it can come to.
-/

import Mathlib

namespace CryptoChat.Lib

inductive Prog (ω : Type) (ρ : ω → Type) (ε α : Type) where
  | ret (a : α)
  | throw (e : ε)
  | op (o : ω) (rest : ρ o → Prog ω ρ ε α)

namespace Prog

variable {ω : Type} {ρ : ω → Type} {ε ε' α β σ : Type}

def bind : Prog ω ρ ε α → (α → Prog ω ρ ε β) → Prog ω ρ ε β
  | .ret a, f => f a
  | .throw e, _ => .throw e
  | .op o rest, f => .op o fun r => (rest r).bind f

instance : Monad (Prog ω ρ ε) where
  pure := .ret
  bind := bind

def ofExcept : Except ε α → Prog ω ρ ε α
  | .ok a => .ret a
  | .error e => .throw e

/-- The program, and then what is done with what it returned or threw. -/
def attempt : Prog ω ρ ε α → (Except ε α → Prog ω ρ ε' β) → Prog ω ρ ε' β
  | .ret a, f => f (.ok a)
  | .throw e, f => f (.error e)
  | .op o rest, f => .op o fun r => (rest r).attempt f

@[simp] theorem pure_eq (a : α) : (pure a : Prog ω ρ ε α) = .ret a := rfl

@[simp] theorem ret_bind (a : α) (f : α → Prog ω ρ ε β) : (Prog.ret a >>= f) = f a := rfl

@[simp] theorem throw_bind (e : ε) (f : α → Prog ω ρ ε β) : (Prog.throw e >>= f) = .throw e := rfl

@[simp] theorem op_bind (o : ω) (rest : ρ o → Prog ω ρ ε α) (f : α → Prog ω ρ ε β) :
    (Prog.op o rest >>= f) = .op o fun r => rest r >>= f := rfl

/-! ## Alone -/

variable (exec : σ → (o : ω) → σ × ρ o)

/-- The state at the end, and what was returned or thrown. -/
def run : σ → Prog ω ρ ε α → σ × Except ε α
  | s, .ret a => (s, .ok a)
  | s, .throw e => (s, .error e)
  | s, .op o rest => run (exec s o).1 (rest (exec s o).2)

@[simp] theorem run_ret (s : σ) (a : α) : (Prog.ret a : Prog ω ρ ε α).run exec s = (s, .ok a) := rfl

@[simp] theorem run_throw (s : σ) (e : ε) : (Prog.throw e : Prog ω ρ ε α).run exec s = (s, .error e) := rfl

@[simp] theorem run_op (s : σ) (o : ω) (rest : ρ o → Prog ω ρ ε α) :
    (Prog.op o rest).run exec s = (rest (exec s o).2).run exec (exec s o).1 := rfl

@[simp] theorem run_ofExcept (s : σ) (r : Except ε α) : (ofExcept r : Prog ω ρ ε α).run exec s = (s, r) := by
  cases r <;> rfl

theorem run_bind (s : σ) (p : Prog ω ρ ε α) (f : α → Prog ω ρ ε β) :
    (p >>= f).run exec s =
      match p.run exec s with
      | (s', .ok a) => (f a).run exec s'
      | (s', .error e) => (s', .error e) := by
  induction p generalizing s with
  | ret a => rfl
  | throw e => rfl
  | op o rest ih => exact ih _ _

theorem run_attempt (s : σ) (p : Prog ω ρ ε α) (f : Except ε α → Prog ω ρ ε' β) :
    (p.attempt f).run exec s = (f (p.run exec s).2).run exec (p.run exec s).1 := by
  induction p generalizing s with
  | ret a => rfl
  | throw e => rfl
  | op o rest ih => exact ih _ _

/-! ## One operation at a time -/

/-- The next operation, if there is one. -/
def step (s : σ) : Prog ω ρ ε α → Option (σ × Prog ω ρ ε α)
  | .op o rest => some ((exec s o).1, rest (exec s o).2)
  | _ => none

/-! ## What a program may do -/

/-- Every operation it can come to is one of `p`, as long as what the operations give is in `q`. -/
def Only (p : ω → Prop) (q : (o : ω) → ρ o → Prop) : Prog ω ρ ε α → Prop
  | .op o rest => p o ∧ ∀ r, q o r → (rest r).Only p q
  | _ => True

variable {p : ω → Prop} {q : (o : ω) → ρ o → Prop}

theorem Only.bind {a : Prog ω ρ ε α} {f : α → Prog ω ρ ε β} (ha : a.Only p q) (hf : ∀ x, (f x).Only p q) :
    (a >>= f).Only p q := by
  induction a with
  | ret x => exact hf x
  | throw e => exact trivial
  | op o rest ih => exact ⟨ha.1, fun r hr => ih r (ha.2 r hr)⟩

theorem Only.attempt {a : Prog ω ρ ε α} {f : Except ε α → Prog ω ρ ε' β} (ha : a.Only p q)
    (hf : ∀ r, (f r).Only p q) : (a.attempt f).Only p q := by
  induction a with
  | ret x => exact hf (.ok x)
  | throw e => exact hf (.error e)
  | op o rest ih => exact ⟨ha.1, fun r hr => ih r (ha.2 r hr)⟩

end Prog

end CryptoChat.Lib
