/-
  CryptoChat.Lib.BinaryMethod — powers by the bits of the exponent, least significant
  first: `loop op sq acc x n` multiplies `acc` by the `n`th power of `x`, where `op` is the
  multiplication and `sq` the squaring.

  `val_loop`: it is that power in any monoid the values stand for, where the two operations
  are right on the values that keep an invariant. In a monoid written additively it is
  doubling and adding.
-/

import Mathlib

namespace CryptoChat.Lib.BinaryMethod

variable {α M : Type} {op : α → α → α} {sq : α → α}

/-- `while (n > 0) { if (n % 2 == 1) acc = op(acc, x); x = sq(x); n /= 2; }` -/
def loop (op : α → α → α) (sq : α → α) (acc x : α) (n : Nat) : α :=
  if n = 0 then acc else loop op sq (if n % 2 = 1 then op acc x else acc) (sq x) (n / 2)
termination_by n

@[simp] theorem loop_zero (acc x : α) : loop op sq acc x 0 = acc := by
  rw [loop, if_pos rfl]

theorem loop_pos (acc x : α) {n : Nat} (hn : n ≠ 0) :
    loop op sq acc x n = loop op sq (if n % 2 = 1 then op acc x else acc) (sq x) (n / 2) := by
  rw [loop, if_neg hn]

/-- A power of two takes squarings only. -/
theorem loop_two_pow (acc x : α) (k : Nat) : loop op sq acc x (2 ^ k) = op acc (sq^[k] x) := by
  induction k generalizing x with
  | zero => rw [loop_pos acc x (by decide), if_pos (by decide), Nat.pow_zero, loop_zero, Function.iterate_zero_apply]
  | succ k ih =>
    have hpos : 2 ^ (k + 1) ≠ 0 := (Nat.two_pow_pos _).ne'
    have hmod : ¬ 2 ^ (k + 1) % 2 = 1 := by
      rw [Nat.pow_succ]
      omega
    have hdiv : 2 ^ (k + 1) / 2 = 2 ^ k := by
      rw [Nat.pow_succ]
      omega
    rw [loop_pos acc x hpos, if_neg hmod, hdiv, ih, Function.iterate_succ_apply]

variable [Monoid M]

theorem val_loop (P : α → Prop) (val : α → M)
    (hop : ∀ a b, P a → P b → P (op a b) ∧ val (op a b) = val a * val b)
    (hsq : ∀ a, P a → P (sq a) ∧ val (sq a) = val a * val a) {acc x : α} (hacc : P acc) (hx : P x) (n : Nat) :
    P (loop op sq acc x n) ∧ val (loop op sq acc x n) = val acc * val x ^ n := by
  induction n using Nat.strong_induction_on generalizing acc x with
  | _ n ih =>
    rcases Nat.eq_zero_or_pos n with rfl | hn
    · simpa using hacc
    · rw [loop_pos acc x hn.ne']
      obtain ⟨hx', hsqv⟩ := hsq x hx
      have hsplit : val x ^ n = val x ^ (n % 2) * val (sq x) ^ (n / 2) := by
        rw [hsqv, ← pow_two, ← pow_mul, ← pow_add, Nat.mod_add_div]
      rcases Nat.mod_two_eq_zero_or_one n with h0 | h1
      · rw [if_neg (by omega), hsplit, h0, pow_zero, one_mul]
        exact ih (n / 2) (by omega) hacc hx'
      · obtain ⟨hacc', hopv⟩ := hop acc x hacc hx
        rw [if_pos h1, hsplit, h1, pow_one, ← mul_assoc, ← hopv]
        exact ih (n / 2) (by omega) hacc' hx'

end CryptoChat.Lib.BinaryMethod
