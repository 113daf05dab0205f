/-
  CryptoChat.Lib.CheckedInt — the arithmetic of a signed `int` of 32 bits, where an
  operation whose value is not an `int` is a fault of the program and not a value.

  `foldlM_sum`: a loop that adds terms has their sum when no partial sum can leave the range;
  `foldlM_ok`: with terms of both signs it ends.
-/

import Mathlib

namespace CryptoChat.Lib.CheckedInt

/-- Faults with one for an overflow. -/
class Overflow (ε : Type) where
  overflow : ε

/-- Where an overflow is the only fault. -/
instance : Overflow Unit := ⟨()⟩

def IsInt (x : Int) : Prop := -2147483648 ≤ x ∧ x ≤ 2147483647

instance (x : Int) : Decidable (IsInt x) := inferInstanceAs (Decidable (_ ∧ _))

variable {ε α : Type} [Overflow ε]

def fit (x : Int) : Except ε Int := if IsInt x then .ok x else .error Overflow.overflow

def add (x y : Int) : Except ε Int := fit (x + y)

def sub (x y : Int) : Except ε Int := fit (x - y)

def mul (x y : Int) : Except ε Int := fit (x * y)

theorem fit_ok {x : Int} (h : IsInt x) : fit x = (.ok x : Except ε Int) := if_pos h

theorem fit_overflow {x : Int} (h : ¬ IsInt x) : fit x = (.error Overflow.overflow : Except ε Int) := if_neg h

theorem add_ok {x y : Int} (h : IsInt (x + y)) : add x y = (.ok (x + y) : Except ε Int) := fit_ok h

theorem sub_ok {x y : Int} (h : IsInt (x - y)) : sub x y = (.ok (x - y) : Except ε Int) := fit_ok h

theorem mul_ok {x y : Int} (h : IsInt (x * y)) : mul x y = (.ok (x * y) : Except ε Int) := fit_ok h

theorem mul_bounds {x y a b : Int} (hx : 0 ≤ x ∧ x ≤ a) (hy : 0 ≤ y ∧ y ≤ b) : 0 ≤ x * y ∧ x * y ≤ a * b :=
  ⟨mul_nonneg hx.1 hy.1, mul_le_mul hx.2 hy.2 hy.1 (hx.1.trans hx.2)⟩

/-- `for (..) acc += term;` with terms in `0 .. bound`. -/
theorem foldlM_sum {term : α → Except ε Int} {value : α → Int} {bound : Int} {l : List α}
    (hterm : ∀ a ∈ l, term a = .ok (value a) ∧ 0 ≤ value a ∧ value a ≤ bound) {acc : Int} (hacc : 0 ≤ acc)
    (hmax : acc + l.length * bound ≤ 2147483647) :
    l.foldlM (fun acc a => do let t ← term a; add acc t) acc = .ok (acc + (l.map value).sum) := by
  induction l generalizing acc with
  | nil => simp [pure, Except.pure]
  | cons a l ih =>
    obtain ⟨hok, h0, hle⟩ := hterm a List.mem_cons_self
    have hbound : 0 ≤ (l.length : Int) * bound := mul_nonneg (Int.natCast_nonneg _) (h0.trans hle)
    have hsplit : ((a :: l).length : Int) * bound = l.length * bound + bound := by
      rw [List.length_cons, Nat.cast_succ, add_mul, one_mul]
    have hadd : add acc (value a) = (.ok (acc + value a) : Except ε Int) := add_ok ⟨by omega, by omega⟩
    rw [List.foldlM_cons, hok]
    simp only [Bind.bind, Except.bind, hadd]
    rw [List.map_cons, List.sum_cons, ← add_assoc]
    exact ih (fun b hb => hterm b (List.mem_cons_of_mem _ hb)) (by omega) (by omega)

/-- The same loop with terms in `-bound .. bound`. -/
theorem foldlM_ok {term : α → Except ε Int} {bound : Int} {l : List α}
    (hterm : ∀ a ∈ l, ∃ value, term a = .ok value ∧ |value| ≤ bound) {acc : Int}
    (hmax : |acc| + l.length * bound ≤ 2147483647) :
    ∃ total, l.foldlM (fun acc a => do let t ← term a; add acc t) acc = .ok total := by
  induction l generalizing acc with
  | nil => exact ⟨acc, rfl⟩
  | cons a l ih =>
    obtain ⟨value, hok, hle⟩ := hterm a List.mem_cons_self
    have hbound : 0 ≤ (l.length : Int) * bound := mul_nonneg (Int.natCast_nonneg _) ((abs_nonneg value).trans hle)
    have hsplit : ((a :: l).length : Int) * bound = l.length * bound + bound := by
      rw [List.length_cons, Nat.cast_succ, add_mul, one_mul]
    have hsum : |acc + value| ≤ |acc| + bound := (abs_add_le acc value).trans (add_le_add_right hle |acc|)
    obtain ⟨hlow, hhigh⟩ := abs_le.mp hsum
    have hadd : add acc value = (.ok (acc + value) : Except ε Int) := add_ok ⟨by omega, by omega⟩
    rw [List.foldlM_cons, hok]
    simp only [Bind.bind, Except.bind, hadd]
    exact ih (fun b hb => hterm b (List.mem_cons_of_mem _ hb)) (by omega)

end CryptoChat.Lib.CheckedInt
