/-
  CryptoChat.Lib.Gf2 — arithmetic of GF(2)[X] modulo a monic polynomial, on bit
  vectors: bit `i` of a `BitVec w` is the coefficient of `X ^ i`, and the modulus
  is `X ^ w + r`, named by its low part `r`.

  `elt r` reads a bit vector as an element of Mathlib's `AdjoinRoot (modulus r)`.
  It is injective (`elt_injective`) and takes `^^^` to `+`, `xtimes` to
  multiplication by the root and `mul` to `*`, so every ring law of the bit-vector
  operations is the law of the quotient ring: commutativity, distributivity,
  uniqueness of inverses (`inv_eq`), and the composition of matrices
  (`matVec_matVec`).
-/

import Mathlib

namespace CryptoChat.Lib.Gf2

open Polynomial

variable {w : Nat}

/-- Multiplication by `X` modulo `X ^ w + r`. -/
def xtimes (r a : BitVec w) : BitVec w := if a.msb then (a <<< 1) ^^^ r else a <<< 1

/-- The product of `a` and the part of `b` below `X ^ n`. -/
def mulLow (r a b : BitVec w) : Nat → BitVec w
  | 0 => 0#w
  | n + 1 => mulLow r a b n ^^^ if b.getLsbD n then (xtimes r)^[n] a else 0#w

def mul (r a b : BitVec w) : BitVec w := mulLow r a b w

/-- The inverse by search, with `0` for an element that has none. -/
def inv (r a : BitVec w) : BitVec w :=
  (((List.range (2 ^ w)).map (BitVec.ofNat w)).find? fun b => mul r a b = 1#w).getD 0#w

/-- `Σ k, u k * v k`. -/
def dot {n : Nat} (r : BitVec w) (u v : Fin n → BitVec w) : BitVec w :=
  (List.finRange n).foldr (fun k acc => mul r (u k) (v k) ^^^ acc) 0#w

def matVec {n m : Nat} (r : BitVec w) (M : Fin m → Fin n → BitVec w) (v : Fin n → BitVec w) : Fin m → BitVec w :=
  fun i => dot r (M i) v

/-! ## Bit vectors as polynomials -/

noncomputable def toPoly (a : BitVec w) : (ZMod 2)[X] :=
  ∑ i ∈ Finset.range w, if a.getLsbD i then X ^ i else 0

noncomputable def modulus (r : BitVec w) : (ZMod 2)[X] := X ^ w + toPoly r

theorem toPoly_coeff (a : BitVec w) (n : Nat) : (toPoly a).coeff n = if a.getLsbD n then 1 else 0 := by
  simp only [toPoly, finsetSum_coeff, apply_ite (coeff · n), coeff_X_pow, coeff_zero]
  by_cases hn : n < w
  · rw [Finset.sum_eq_single n]
    · simp
    · intro i _ hi; simp [Ne.symm hi]
    · intro h; exact absurd (Finset.mem_range.mpr hn) h
  · rw [BitVec.getLsbD_of_ge a n (by omega)]
    refine (Finset.sum_eq_zero ?_).trans (by simp)
    intro i hi
    have : n ≠ i := by have := Finset.mem_range.mp hi; omega
    simp [this]

theorem toPoly_degree (a : BitVec w) : (toPoly a).degree < w := by
  rw [degree_lt_iff_coeff_zero]
  intro n hn
  rw [toPoly_coeff, BitVec.getLsbD_of_ge a n hn]; simp

theorem toPoly_injective : Function.Injective (toPoly (w := w)) := by
  intro a b h
  apply BitVec.eq_of_getLsbD_eq
  intro i _
  have := congrArg (coeff · i) h
  simp only [toPoly_coeff] at this
  cases ha : a.getLsbD i <;> cases hb : b.getLsbD i <;> simp_all

@[simp] theorem toPoly_zero : toPoly (0#w) = 0 := by ext n; simp [toPoly_coeff]

theorem toPoly_xor (a b : BitVec w) : toPoly (a ^^^ b) = toPoly a + toPoly b := by
  ext n
  simp only [coeff_add, toPoly_coeff, BitVec.getLsbD_xor]
  cases a.getLsbD n <;> cases b.getLsbD n <;> simp [CharTwo.add_self_eq_zero]

theorem toPoly_one (hw : 0 < w) : toPoly (1#w) = 1 := by
  ext n
  simp only [toPoly_coeff, BitVec.getLsbD_one, coeff_one]
  by_cases h : n = 0
  · simp [h, hw]
  · simp [h]

/-- Shifting multiplies by `X` and drops the coefficient that leaves the vector. -/
theorem toPoly_shiftLeft (hw : 0 < w) (a : BitVec w) :
    toPoly (a <<< 1) + (if a.msb then X ^ w else 0) = X * toPoly a := by
  ext n
  have hm : a.msb = a.getLsbD (w - 1) := BitVec.msb_eq_getLsbD_last a
  cases n with
  | zero => simp [toPoly_coeff, apply_ite (coeff · 0), coeff_X_pow, show (0 : Nat) ≠ w by omega]
  | succ n =>
    simp only [coeff_add, coeff_X_mul, toPoly_coeff, BitVec.getLsbD_shiftLeft, apply_ite (coeff · (n + 1)),
      coeff_X_pow, coeff_zero, Nat.add_sub_cancel, hm]
    by_cases h : n + 1 < w
    · simp [h, show n + 1 ≠ w by omega]
    · by_cases e : n + 1 = w
      · subst e; simp
      · simp [h, e, BitVec.getLsbD_of_ge a n (by omega)]

theorem modulus_monic (r : BitVec w) : (modulus r).Monic :=
  monic_X_pow_add (toPoly_degree r)

theorem modulus_degree (r : BitVec w) : (modulus r).degree = w := by
  rw [modulus, degree_add_eq_left_of_degree_lt] <;> rw [degree_X_pow]
  exact toPoly_degree r

/-! ## The quotient ring -/

section Quotient

variable (r : BitVec w)

/-- A bit vector as an element of the quotient ring. -/
noncomputable def elt (a : BitVec w) : AdjoinRoot (modulus r) := AdjoinRoot.mk (modulus r) (toPoly a)

theorem elt_injective : Function.Injective (elt r) := by
  intro a b h
  apply toPoly_injective
  by_contra hne
  -- a nonzero difference of degree below `w` is no multiple of the modulus
  have hd : (toPoly a - toPoly b).degree < (modulus r).degree := by
    rw [modulus_degree]
    exact (degree_sub_le _ _).trans_lt (max_lt (toPoly_degree a) (toPoly_degree b))
  exact (modulus_monic r).not_dvd_of_degree_lt (sub_ne_zero.mpr hne) hd (AdjoinRoot.mk_eq_mk.mp h)

@[simp] theorem elt_zero : elt r 0#w = 0 := by simp [elt]

theorem elt_xor (a b : BitVec w) : elt r (a ^^^ b) = elt r a + elt r b := by simp [elt, toPoly_xor]

theorem elt_ite (c : Prop) [Decidable c] (a b : BitVec w) :
    elt r (if c then a else b) = if c then elt r a else elt r b := apply_ite _ _ _ _

theorem elt_one (hw : 0 < w) : elt r 1#w = 1 := by simp [elt, toPoly_one hw]

theorem elt_xtimes (hw : 0 < w) (a : BitVec w) : elt r (xtimes r a) = AdjoinRoot.root (modulus r) * elt r a := by
  have hm : AdjoinRoot.mk (modulus r) (X ^ w) = AdjoinRoot.mk (modulus r) (toPoly r) := by
    rw [AdjoinRoot.mk_eq_mk, CharTwo.sub_eq_add]; rfl
  have hs := congrArg (AdjoinRoot.mk (modulus r)) (toPoly_shiftLeft hw a)
  rw [map_add, map_mul, AdjoinRoot.mk_X] at hs
  unfold xtimes
  split
  · rename_i h
    rw [if_pos h, hm] at hs
    rw [elt_xor]; exact hs
  · rename_i h
    rw [if_neg h, map_zero, add_zero] at hs
    exact hs

theorem elt_iterate_xtimes (hw : 0 < w) (a : BitVec w) (n : Nat) :
    elt r ((xtimes r)^[n] a) = AdjoinRoot.root (modulus r) ^ n * elt r a := by
  induction n with
  | zero => simp
  | succ n ih => rw [Function.iterate_succ_apply', elt_xtimes r hw, ih, pow_succ']; ring

theorem elt_mulLow (hw : 0 < w) (a b : BitVec w) (n : Nat) :
    elt r (mulLow r a b n) =
      (∑ i ∈ Finset.range n, if b.getLsbD i then AdjoinRoot.root (modulus r) ^ i else 0) * elt r a := by
  induction n with
  | zero => simp [mulLow]
  | succ n ih =>
    rw [mulLow, elt_xor, ih, elt_ite, elt_zero, elt_iterate_xtimes r hw, Finset.sum_range_succ, add_mul, ite_mul,
      zero_mul]

theorem elt_eq_sum (b : BitVec w) :
    elt r b = ∑ i ∈ Finset.range w, if b.getLsbD i then AdjoinRoot.root (modulus r) ^ i else 0 := by
  simp only [elt, toPoly, map_sum]
  refine Finset.sum_congr rfl ?_
  intro i _
  split <;> simp

/-- `mul` is the product of the quotient ring. -/
theorem elt_mul (hw : 0 < w) (a b : BitVec w) : elt r (mul r a b) = elt r a * elt r b := by
  rw [mul, elt_mulLow r hw, ← elt_eq_sum, CommMonoid.mul_comm]

/-! ## Ring laws -/

variable {r}

theorem mul_comm (hw : 0 < w) (a b : BitVec w) : mul r a b = mul r b a := by
  apply elt_injective r; rw [elt_mul r hw, elt_mul r hw, CommMonoid.mul_comm]

theorem mul_xor (hw : 0 < w) (a b c : BitVec w) : mul r a (b ^^^ c) = mul r a b ^^^ mul r a c := by
  apply elt_injective r; simp only [elt_mul r hw, elt_xor, mul_add]

theorem mul_one (hw : 0 < w) (a : BitVec w) : mul r a 1#w = a := by
  apply elt_injective r; rw [elt_mul r hw, elt_one r hw, MulOneClass.mul_one]

theorem mul_zero (hw : 0 < w) (a : BitVec w) : mul r a 0#w = 0#w := by
  apply elt_injective r; rw [elt_mul r hw, elt_zero, MulZeroClass.mul_zero]

theorem xtimes_one (hw : 1 < w) : xtimes r 1#w = 2#w := by
  have hm : (1#w).msb = false := by simp [BitVec.msb_eq_getLsbD_last, BitVec.getLsbD_one]; omega
  have hs : (1#w) <<< 1 = 2#w := by apply BitVec.eq_of_toNat_eq; simp [Nat.shiftLeft_eq]
  rw [xtimes, hm, hs]; rfl

/-- Multiplication by `X` is multiplication by the bit vector `2`. -/
theorem xtimes_eq_mul (hw : 1 < w) (a : BitVec w) : xtimes r a = mul r 2#w a := by
  have h0 : 0 < w := by omega
  apply elt_injective r
  rw [← xtimes_one (r := r) hw, elt_mul r h0, elt_xtimes r h0, elt_xtimes r h0, elt_one r h0, MulOneClass.mul_one]

/-- The search for an inverse finds the inverse. -/
theorem inv_eq (hw : 0 < w) {a b : BitVec w} (h : mul r a b = 1#w) : inv r a = b := by
  unfold inv
  have hm : b ∈ (List.range (2 ^ w)).map (BitVec.ofNat w) :=
    List.mem_map.mpr ⟨b.toNat, List.mem_range.mpr b.isLt, by simp⟩
  cases hf : ((List.range (2 ^ w)).map (BitVec.ofNat w)).find? (fun b => mul r a b = 1#w) with
  | none => exact absurd (by simpa using h) (List.find?_eq_none.mp hf b hm)
  | some c =>
    have hc : mul r a c = 1#w := by simpa using List.find?_some hf
    -- two inverses of one element of a commutative ring agree
    apply elt_injective r
    have h1 := congrArg (elt r) h
    have h2 := congrArg (elt r) hc
    rw [elt_mul r hw, elt_one r hw] at h1 h2
    exact left_inv_eq_right_inv (by rw [CommMonoid.mul_comm]; exact h2) h1

theorem inv_zero (hw : 0 < w) : inv r 0#w = 0#w := by
  unfold inv
  rw [List.find?_eq_none.mpr, Option.getD_none]
  intro b _ hb
  have h0 : mul r 0#w b = 0#w := by rw [mul_comm hw, mul_zero hw]
  rw [h0, decide_eq_true_eq] at hb
  have := congrArg (BitVec.getLsbD · 0) hb
  simp [hw] at this

/-! ## Matrices -/

theorem elt_dot (hw : 0 < w) {n : Nat} (u v : Fin n → BitVec w) :
    elt r (dot r u v) = ∑ k, elt r (u k) * elt r (v k) := by
  have h : ∀ l : List (Fin n), elt r (l.foldr (fun k acc => mul r (u k) (v k) ^^^ acc) 0#w) =
      (l.map fun k => elt r (u k) * elt r (v k)).sum := by
    intro l
    induction l with
    | nil => simp
    | cons k l ih => simp only [List.foldr_cons, elt_xor, elt_mul r hw, ih, List.map_cons, List.sum_cons]
  rw [dot, h, Fin.sum_univ_def]

theorem elt_matVec (hw : 0 < w) {n m : Nat} (M : Fin m → Fin n → BitVec w) (v : Fin n → BitVec w) :
    (fun i => elt r (matVec r M v i)) = (Matrix.of fun i j => elt r (M i j)).mulVec fun j => elt r (v j) := by
  funext i
  rw [matVec, elt_dot hw]; rfl

/-- Matrices whose product is the identity undo each other. -/
theorem matVec_matVec (hw : 0 < w) {n : Nat} {M N : Fin n → Fin n → BitVec w}
    (h : ∀ i j, dot r (M i) (fun k => N k j) = if i = j then 1#w else 0#w) (v : Fin n → BitVec w) :
    matVec r M (matVec r N v) = v := by
  have hMN : (Matrix.of fun i j => elt r (M i j)) * (Matrix.of fun i j => elt r (N i j)) = 1 := by
    ext i j
    have := congrArg (elt r) (h i j)
    rw [elt_dot hw, elt_ite, elt_one r hw, elt_zero] at this
    rw [Matrix.mul_apply, Matrix.one_apply]; exact this
  have he : (fun i => elt r (matVec r M (matVec r N v) i)) = fun i => elt r (v i) := by
    rw [elt_matVec hw, elt_matVec hw, Matrix.mulVec_mulVec, hMN, Matrix.one_mulVec]
  funext i
  exact elt_injective r (congrFun he i)

end Quotient

end CryptoChat.Lib.Gf2
