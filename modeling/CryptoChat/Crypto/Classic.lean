/-
  CryptoChat.Crypto.Classic — what the classic ciphers share: their faults, and the letters
  as residues modulo 26.

  The ciphers of letters compute with the place of a letter in its alphabet and add the
  result to the `base` of that alphabet. `onPlace f` is what such a cipher does when the
  result is a place again: `f` on the residue of every letter, in the letter's own case.
  These maps compose as the functions on residues do (`onPlace_onPlace`).
-/

import CryptoChat.Lib.CheckedInt
import CryptoChat.Lib.Ctype
import Mathlib

namespace CryptoChat.Crypto.Classic

open CryptoChat.Lib Ctype CheckedInt

/-- An overflow, or an exception with its `what()`. -/
inductive Fault where
  | overflow
  | invalidArgument (what : String)
  | runtimeError (what : String)
  deriving DecidableEq

instance : Overflow Fault := ⟨.overflow⟩

/-! ## Letters -/

/-- `std::isupper(ch) ? 'A' : 'a'`. -/
def base (ch : Byte) : Int := if isupper ch then 65 else 97

/-- `ch - base`. -/
def place (ch : Byte) : Int := ch.toInt - base ch

/-- `static_cast<char>(base + v)`. -/
def letter (ch : Byte) (v : Int) : Byte := BitVec.ofInt 8 (base ch + v)

theorem letter_place (ch : Byte) : letter ch (place ch) = ch := by
  rw [letter, place, add_sub_cancel, BitVec.ofInt_toInt]

theorem letter_congr {a b : Byte} (h : isupper a = isupper b) (v : Int) : letter a v = letter b v := by
  rw [letter, letter, base, base, h]

set_option maxRecDepth 4000 in
theorem place_bounds : ∀ ch : Byte, isalpha ch → 0 ≤ place ch ∧ place ch ≤ 25 := by
  decide

theorem letter_upper : ∀ v < 26, isupper (BitVec.ofInt 8 (65 + (v : Nat))) ∧
    (BitVec.ofInt 8 (65 + (v : Nat))).toInt = 65 + (v : Nat) := by
  decide

theorem letter_lower : ∀ v < 26, isupper (BitVec.ofInt 8 (97 + (v : Nat))) = false ∧
    islower (BitVec.ofInt 8 (97 + (v : Nat))) ∧ (BitVec.ofInt 8 (97 + (v : Nat))).toInt = 97 + (v : Nat) := by
  decide

/-- At a place from 0 to 25 stands a letter of the same case. -/
theorem letter_spec (ch : Byte) {v : Int} (h0 : 0 ≤ v) (h25 : v ≤ 25) :
    isalpha (letter ch v) ∧ isupper (letter ch v) = isupper ch ∧ place (letter ch v) = v := by
  obtain ⟨n, rfl⟩ := Int.eq_ofNat_of_zero_le h0
  by_cases hupper : isupper ch
  · obtain ⟨hu, hint⟩ := letter_upper n (by omega)
    have hletter : letter ch n = BitVec.ofInt 8 (65 + n) := by rw [letter, base, if_pos hupper]
    rw [hletter, isalpha, place, base, hint, if_pos hu, hu, hupper]
    exact ⟨rfl, rfl, add_sub_cancel_left 65 (n : Int)⟩
  · obtain ⟨hu, hl, hint⟩ := letter_lower n (by omega)
    have hletter : letter ch n = BitVec.ofInt 8 (97 + n) := by rw [letter, base, if_neg hupper]
    rw [hletter, isalpha, place, base, hint, hu, hl, Bool.eq_false_of_not_eq_true hupper]
    exact ⟨rfl, rfl, add_sub_cancel_left 97 (n : Int)⟩

/-! ## Remainders -/

theorem tmod_bounds (x : Int) : -26 < x.tmod 26 ∧ x.tmod 26 < 26 :=
  ⟨Int.lt_tmod_of_pos x (by decide), Int.tmod_lt_of_pos x (by decide)⟩

theorem tmod_nonneg_iff (x : Int) : 0 ≤ x.tmod 26 ↔ 0 ≤ x ∨ 26 ∣ x := by
  rw [Int.tmod_eq_emod]
  split
  · omega
  · rename_i h
    have hx := not_or.mp h
    have hdvd : ¬ (26 : Int) ∣ x := hx.2
    omega

theorem letter_before : ∀ n < 25, isupper (BitVec.ofInt 8 (64 - (n : Nat))) = false := by
  decide

/-- Before its alphabet an upper-case letter is none. -/
theorem nonneg_of_isupper {ch : Byte} (hch : isupper ch) {v : Int} (h : isupper (letter ch v)) (hlow : -26 < v) : 0 ≤ v := by
  by_contra hneg
  have hv : 65 + v = 64 - ((-1 - v).toNat : Nat) := by omega
  rw [letter, base, if_pos hch, hv, letter_before _ (by omega)] at h
  cases h

/-! ## Residues -/

/-- `f` on the place of a letter, in its own case. -/
def onPlace (f : ZMod 26 → ZMod 26) (ch : Byte) : Byte :=
  if isalpha ch then letter ch (f (place ch)).val else ch

variable {f g : ZMod 26 → ZMod 26} {ch : Byte}

theorem onPlace_letter (h : isalpha ch) : onPlace f ch = letter ch (f (place ch)).val := if_pos h

theorem onPlace_other (h : ¬ isalpha ch) : onPlace f ch = ch := if_neg h

theorem val_bounds (k : ZMod 26) : 0 ≤ (k.val : Int) ∧ (k.val : Int) ≤ 25 := by
  have hlt := ZMod.val_lt k
  omega

/-- The remainder of what is not negative is a residue. -/
theorem tmod_eq_val {x : Int} (h : 0 ≤ x) : x.tmod 26 = (x : ZMod 26).val := by
  have hval : ((x : ZMod 26).val : Int) = x % 26 := ZMod.val_intCast x
  rw [hval, Int.tmod_eq_emod_of_nonneg h]

theorem isalpha_onPlace (f : ZMod 26 → ZMod 26) (ch : Byte) : isalpha (onPlace f ch) = isalpha ch := by
  by_cases h : isalpha ch
  · obtain ⟨h0, h25⟩ := val_bounds (f (place ch))
    rw [onPlace_letter h, h, (letter_spec ch h0 h25).1]
  · rw [onPlace_other h]

theorem isupper_onPlace (f : ZMod 26 → ZMod 26) (ch : Byte) : isupper (onPlace f ch) = isupper ch := by
  by_cases h : isalpha ch
  · obtain ⟨h0, h25⟩ := val_bounds (f (place ch))
    rw [onPlace_letter h, (letter_spec ch h0 h25).2.1]
  · rw [onPlace_other h]

theorem place_onPlace (h : isalpha ch) : place (onPlace f ch) = (f (place ch)).val := by
  obtain ⟨h0, h25⟩ := val_bounds (f (place ch))
  rw [onPlace_letter h, (letter_spec ch h0 h25).2.2]

theorem onPlace_onPlace (g f : ZMod 26 → ZMod 26) (ch : Byte) : onPlace g (onPlace f ch) = onPlace (g ∘ f) ch := by
  by_cases h : isalpha ch
  · rw [onPlace_letter ((isalpha_onPlace f ch).trans h), place_onPlace h, letter_congr (isupper_onPlace f ch),
      onPlace_letter h, Int.cast_natCast, ZMod.natCast_zmod_val, Function.comp_apply]
  · rw [onPlace_other h, onPlace_other h, onPlace_other h]

theorem onPlace_id (hf : ∀ x, f x = x) (ch : Byte) : onPlace f ch = ch := by
  by_cases h : isalpha ch
  · obtain ⟨h0, h25⟩ := place_bounds ch h
    have hval : ((place ch : ZMod 26).val : Int) = place ch := by
      rw [ZMod.val_intCast]
      exact Int.emod_eq_of_lt h0 (by omega)
    rw [onPlace_letter h, hf, hval, letter_place]
  · rw [onPlace_other h]

/-- A letter `k` places on, around its alphabet. -/
def rotate (k : ZMod 26) (ch : Byte) : Byte := onPlace (· + k) ch

theorem rotate_letter (h : isalpha ch) (k : ZMod 26) : rotate k ch = letter ch ((place ch : ZMod 26) + k).val :=
  onPlace_letter h

theorem rotate_other (h : ¬ isalpha ch) (k : ZMod 26) : rotate k ch = ch := onPlace_other h

theorem isalpha_rotate (k : ZMod 26) (ch : Byte) : isalpha (rotate k ch) = isalpha ch := isalpha_onPlace _ ch

theorem isupper_rotate (k : ZMod 26) (ch : Byte) : isupper (rotate k ch) = isupper ch := isupper_onPlace _ ch

theorem rotate_rotate (k l : ZMod 26) (ch : Byte) : rotate k (rotate l ch) = rotate (l + k) ch := by
  refine (onPlace_onPlace _ _ ch).trans ?_
  congr 1
  funext x
  exact add_assoc x l k

theorem rotate_cancel {k l : ZMod 26} (h : l + k = 0) (ch : Byte) : rotate k (rotate l ch) = ch := by
  rw [rotate_rotate, h]
  exact onPlace_id add_zero ch

theorem rotate_injective {k l : ZMod 26} (h : isalpha ch) (heq : rotate k ch = rotate l ch) : k = l := by
  have hplace := congrArg place heq
  rw [rotate, rotate, place_onPlace h, place_onPlace h, Nat.cast_inj] at hplace
  exact add_left_cancel (ZMod.val_injective 26 hplace)

/-- Letters stay letters of their case, and all else stays as it is. -/
def Kept (text result : Bytes) : Prop :=
  List.Forall₂ (fun ch c => isalpha c = isalpha ch ∧ isupper c = isupper ch ∧ (¬ isalpha ch → c = ch)) text result

theorem kept_rotate (k : ZMod 26) (text : Bytes) : Kept text (text.map (rotate k)) := by
  rw [Kept, List.forall₂_map_right_iff, List.forall₂_same]
  intro ch _
  exact ⟨isalpha_rotate k ch, isupper_rotate k ch, fun h => rotate_other h k⟩

end CryptoChat.Crypto.Classic
